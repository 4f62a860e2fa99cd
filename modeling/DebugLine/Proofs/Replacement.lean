import DebugLine.Proofs.Relocation
import DebugLine.Proofs.RowMeaning
import DebugLine.Proofs.UnitLayout

/-!
# Replacing a stretch of a program

A stretch of a program may be replaced by another one that leaves the registers alike and gives the
same rows. What stands before the stretch is run as it was, and so is what stands behind it, up to
the offsets of a failure. So the unit gives the same rows.
-/

namespace DebugLine

namespace Listing

open Instruction (decode)

variable {h h' : Header} {d d' : Decoder}

theorem ofDecoder_congr (hdecode : decode h' = decode h) (d : Decoder) :
    ofDecoder h' d = ofDecoder h d := by
  induction d using decoder_induction (h := h) with
  | ended d hend => rw [ofDecoder_of_isEmpty hend, ofDecoder_of_isEmpty hend]
  | fails d e d' hend herr =>
    rw [ofDecoder_of_error hend herr, ofDecoder_of_error hend (by rw [hdecode, herr])]
  | decodes d i d' hend hok ih =>
    rw [ofDecoder_of_ok hend hok, ofDecoder_of_ok hend (by rw [hdecode, hok]), ih]

/-- Two decoders with the same files that see the same bytes list the same instructions, `n` and
`n'` bytes in front of one place. -/
theorem ofDecoder_of_window_eq {n n' : Nat} (hdecode : decode h' = decode h) (hd : d.cursor.Sound)
    (hd' : d'.cursor.Sound) (hwindow : d'.cursor.window = d.cursor.window)
    (horder : d'.cursor.byteOrder = d.cursor.byteOrder)
    (hsize : d'.cursor.addressSize = d.cursor.addressSize) (hfiles : d'.files = d.files)
    (hoffset : d'.cursor.offset + n = d.cursor.offset + n') :
    (ofDecoder h' d').instructions.map Prod.fst = (ofDecoder h d).instructions.map Prod.fst ∧
      (ofDecoder h' d').failure.map (LineError.shift n) =
        (ofDecoder h d).failure.map (LineError.shift n') ∧
      (ofDecoder h' d').decoder.files = (ofDecoder h d).decoder.files := by
  rw [ofDecoder_congr hdecode]
  have halone : d'.cursor.alone = d.cursor.alone := by
    rw [Cursor.alone, hwindow, horder, hsize, Cursor.alone]
  obtain ⟨hinstructions, hfailure, hlast⟩ := ofDecoder_alone h hd
  obtain ⟨hinstructions', hfailure', hlast'⟩ := ofDecoder_alone h hd'
  rw [halone, hfiles] at hinstructions' hfailure' hlast'
  refine ⟨hinstructions'.trans hinstructions.symm, ?_, hlast'.trans hlast.symm⟩
  rw [hfailure, hfailure', Option.map_map, Option.map_map]
  simp only [Function.comp_def, LineError.shift_shift, hoffset]

end Listing

theorem Coding.Spells.known {c : Coding} {t : FileTable} {operands : List UInt8} {i : Instruction}
    (opcode : StandardOpcode) (hbelow : opcode.code < c.opcodeBase)
    (hoperands : c.KnownOperands operands i opcode) :
    c.Spells t (opcode.code :: operands) i [] := by
  refine .standard hbelow (by cases opcode <;> decide) ?_
  rw [StandardOperands, StandardOpcode.ofCode?_code]
  exact hoperands

theorem Row.executeAll_of_replaced {p : LineParameters} {before old new : List Instruction}
    {r : Row} (h : executeAll p new (executeAll p before r).1 =
      executeAll p old (executeAll p before r).1) (after : List Instruction) :
    executeAll p (before ++ new ++ after) r = executeAll p (before ++ old ++ after) r := by
  simp only [executeAll_append, h]

namespace Machine

variable {m : Machine}

theorem rows_of_front {bytes rest : List UInt8} {steps : List (Instruction × List FileEntry)}
    (hsound : m.failure = none) (hsize : m.cursor.addressSize ∈ addressSizes)
    (hwindow : m.cursor.window = bytes ++ rest)
    (hspells : (m.coding m.header).SpellsAll m.files bytes steps) :
    let behind := Listing.ofDecoder m.header (m.toDecoder.passed bytes.length (definedFiles steps))
    let executed := Row.executeAll m.header.toLineParameters
      (steps.map Prod.fst ++ behind.instructions.map Prod.fst) m.registers
    m.rows.1 = executed.2.map .ok ++ behind.failure.toList.map .error ∧
      m.rows.2.registers = executed.1 ∧ m.rows.2.files = behind.decoder.files := by
  obtain ⟨listed, hlisted, hlisting⟩ :=
    Listing.ofDecoder_of_spellsAll (d := m.toDecoder) hsound hsize hspells hwindow
  rw [rows_eq_listed hsound]
  simp only [listedItems, listedMachine, instructions, listing, hlisting, List.map_append, hlisted]
  exact ⟨trivial, trivial, trivial⟩

end Machine

namespace UnitLayout

variable {u : UnitLayout} {unit : CompileUnit} {settings : Settings} {front back : List UInt8}
  {program : List UInt8}

/-- The section that holds the unit with this program between other bytes. -/
def sectionWith (u : UnitLayout) (unit : CompileUnit) (front back program : List UInt8) :
    Array UInt8 :=
  (u.withProgram unit.byteOrder program).among unit.byteOrder front back

/-- The unit is in order with this program, and lies behind `front` where the compile unit says. -/
structure Opens (u : UnitLayout) (unit : CompileUnit) (settings : Settings)
    (front back program : List UInt8) : Prop where
  stmtList_eq : unit.stmtList = some front.length
  addressSize_mem : unit.addressSize ∈ addressSizes
  valid : (u.withProgram unit.byteOrder program).Valid unit.byteOrder unit.directory
    settings.checksOpcodeLengths settings.fileLimit
  size_lt : (u.sectionWith unit front back program).size < UInt64.size - 1

/-- The machine at the start of this program in the unit. -/
def opened (u : UnitLayout) (unit : CompileUnit) (settings : Settings)
    (front back program : List UInt8) : Machine :=
  (u.withProgram unit.byteOrder program).machine unit settings.fileLimit front back

theorem Opens.ofUnit_eq (h : u.Opens unit settings front back program) :
    Machine.ofUnit unit (u.sectionWith unit front back program) settings =
      .ok (some (u.opened unit settings front back program)) :=
  ofUnit_among h.stmtList_eq h.addressSize_mem h.valid h.size_lt

/-- How any program of the unit is read. -/
def coding (u : UnitLayout) (unit : CompileUnit) : Coding where
  opcodeBase := u.header.parameters.opcodeBase
  arguments := fun opcode =>
    ((u.header.header unit.directory 0).standardOpcodeLength? opcode).getD 0
  directories := (u.header.header unit.directory 0).includeDirectories
  byteOrder := unit.byteOrder
  addressSize := unit.addressSize

/-- The files that any program of the unit starts with. -/
def files (u : UnitLayout) (unit : CompileUnit) (settings : Settings) : FileTable :=
  ⟨(u.header.entries unit.directory).toArray, [], settings.fileLimit⟩

end UnitLayout

/-- A program of a unit, and the same program with one stretch replaced by another. -/
structure Replacement (unit : CompileUnit) (settings : Settings) where
  layout : UnitLayout
  /-- What lies in front of the unit in its section. -/
  front : List UInt8
  back : List UInt8
  before : List UInt8
  old : List UInt8
  new : List UInt8
  after : List UInt8
  /-- What the program does in front of the stretch. -/
  first : List (Instruction × List FileEntry)
  oldInstructions : List Instruction
  newInstructions : List Instruction
  opens_old : layout.Opens unit settings front back (before ++ old ++ after)
  opens_new : layout.Opens unit settings front back (before ++ new ++ after)
  first_spelled : (layout.coding unit).SpellsAll (layout.files unit settings) before first
  old_spelled : (layout.coding unit).SpellsAll
    ((layout.files unit settings).pushAll (definedFiles first)) old (oldInstructions.map (·, []))
  new_spelled : (layout.coding unit).SpellsAll
    ((layout.files unit settings).pushAll (definedFiles first)) new (newInstructions.map (·, []))

namespace Replacement

variable {unit : CompileUnit} {settings : Settings}

def parameters (x : Replacement unit settings) : LineParameters := x.layout.header.parameters

/-- The registers in front of the stretch. -/
def registers (x : Replacement unit settings) : Row :=
  (Row.executeAll x.parameters (x.first.map Prod.fst)
    (Row.initial x.parameters.defaultIsStmt)).1

/-- The section with the old stretch. -/
def oldSection (x : Replacement unit settings) : Array UInt8 :=
  x.layout.sectionWith unit x.front x.back (x.before ++ x.old ++ x.after)

def newSection (x : Replacement unit settings) : Array UInt8 :=
  x.layout.sectionWith unit x.front x.back (x.before ++ x.new ++ x.after)

/-- Both programs can be opened. They give the same rows and come to the same registers and files,
and if one fails then so does the other, as far from the end of the stretch. -/
def GivesAlike (x : Replacement unit settings) : Prop :=
  ∃ (start start' : Machine) (rows : List Row) (failure failure' : Option LineError),
    Machine.ofUnit unit x.oldSection settings = .ok (some start) ∧
    Machine.ofUnit unit x.newSection settings = .ok (some start') ∧
    start.rows.1 = rows.map Except.ok ++ failure.toList.map Except.error ∧
    start'.rows.1 = rows.map Except.ok ++ failure'.toList.map Except.error ∧
    failure'.map (LineError.shift x.old.length) = failure.map (LineError.shift x.new.length) ∧
    start'.rows.2.registers = start.rows.2.registers ∧
    start'.rows.2.files = start.rows.2.files

theorem definedFiles_none (instructions : List Instruction) :
    definedFiles (instructions.map (·, [])) = [] := by
  simp [definedFiles]

/-- A stretch may be replaced by one that leaves the registers alike and gives the same rows. -/
theorem givesAlike (x : Replacement unit settings)
    (hsame : Row.executeAll x.parameters x.newInstructions x.registers =
      Row.executeAll x.parameters x.oldInstructions x.registers) : x.GivesAlike := by
  let start := x.layout.opened unit settings x.front x.back (x.before ++ x.old ++ x.after)
  let start' := x.layout.opened unit settings x.front x.back (x.before ++ x.new ++ x.after)
  have hwindow : start.cursor.window = x.before ++ x.old ++ x.after :=
    x.opens_old.valid.window_machine x.front x.back
  have hwindow' : start'.cursor.window = x.before ++ x.new ++ x.after :=
    x.opens_new.valid.window_machine x.front x.back
  obtain ⟨hrows, hregisters, hlast⟩ := Machine.rows_of_front (m := start) rfl
    x.opens_old.addressSize_mem hwindow (x.first_spelled.append x.old_spelled)
  obtain ⟨hrows', hregisters', hlast'⟩ := Machine.rows_of_front (m := start') rfl
    x.opens_new.addressSize_mem hwindow' (x.first_spelled.append x.new_spelled)
  let d := start.toDecoder.passed (x.before ++ x.old).length
    (definedFiles (x.first ++ x.oldInstructions.map (·, [])))
  let d' := start'.toDecoder.passed (x.before ++ x.new).length
    (definedFiles (x.first ++ x.newInstructions.map (·, [])))
  have hdecode : Instruction.decode start'.header = Instruction.decode start.header := rfl
  have hd : d.cursor.Sound := (x.opens_old.valid.sound x.front x.back).passed_front hwindow
  have hd' : d'.cursor.Sound := (x.opens_new.valid.sound x.front x.back).passed_front hwindow'
  have hsameWindow : d'.cursor.window = d.cursor.window := by
    simp only [d, d', Decoder.cursor_passed, Cursor.window_passed, hwindow, hwindow',
      List.drop_left]
  have hsameFiles : d'.files = d.files := by
    simp only [d, d', Decoder.files_passed, definedFiles_append, definedFiles_none]
    rfl
  have hoffset : d'.cursor.offset + x.old.length = d.cursor.offset + x.new.length := by
    have hstart : start'.cursor.offset = start.cursor.offset := rfl
    simp only [d, d', Decoder.cursor_passed, Cursor.offset_passed, hstart, List.length_append]
    omega
  obtain ⟨hinstructions, hfailure, hbehind⟩ := Listing.ofDecoder_of_window_eq hdecode hd hd'
    hsameWindow rfl rfl hsameFiles hoffset
  have hexecuted := Row.executeAll_of_replaced hsame
    ((Listing.ofDecoder start.header d).instructions.map Prod.fst)
  simp only [List.map_append, List.map_map, Function.comp_def, List.map_id']
    at hrows hregisters hrows' hregisters'
  rw [hinstructions] at hrows' hregisters'
  refine ⟨start, start', _, _, _, x.opens_old.ofUnit_eq, x.opens_new.ofUnit_eq, hrows, ?_, hfailure,
    ?_, hlast'.trans (hbehind.trans hlast.symm)⟩
  · rw [hrows']
    exact congrArg (fun executed : Row × List Row => executed.2.map Except.ok ++ _) hexecuted
  · rw [hregisters', hregisters]
    exact congrArg Prod.fst hexecuted

/-- The compile unit that has its line table behind one byte of the section. -/
def spacedUnit : CompileUnit := ⟨some 1, some "/w", 8, .little⟩

theorem opens_spaced {program : List UInt8} (hlength : program.length < 256) :
    UnitLayout.spaced.Opens spacedUnit .unset [0xAA] [0] program := by
  have hinside : (UnitLayout.spaced.header.insideBytes .little ++ UnitLayout.spaced.gap).length =
      32 := by decide
  have hunit : (UnitLayout.spaced.withProgram .little program).header.unitLength =
      32 + program.length := by
    rw [UnitLayout.withProgram, List.length_append, hinside]
  have hvalid : (UnitLayout.spaced.withProgram .little program).Valid .little "/w" true none := by
    apply UnitLayout.spaced_valid.withProgram
    rw [hunit]
    exact (Nat.add_lt_add_left hlength 32).trans (by decide)
  refine ⟨rfl, by decide, hvalid, ?_⟩
  change ((UnitLayout.spaced.withProgram .little program).among .little [0xAA] [0]).size <
    UInt64.size - 1
  rw [hvalid.size_among, hunit]
  simp only [List.length_singleton, UnitLayout.withProgram, UnitLayout.spaced,
    Format.initialSize, UInt64.size]
  omega

/-- A stretch of a program of `spaced` between a row and the end of the sequence, behind which the
program is cut off within an operand. -/
def betweenRows (old new : List UInt8) (oldInstructions newInstructions : List Instruction)
    (hold : old.length < 16) (hnew : new.length < 16)
    (hspelled : ∀ t, (UnitLayout.spaced.coding spacedUnit).SpellsAll t old
      (oldInstructions.map (·, [])))
    (hspelled' : ∀ t, (UnitLayout.spaced.coding spacedUnit).SpellsAll t new
      (newInstructions.map (·, []))) :
    Replacement spacedUnit .unset where
  layout := UnitLayout.spaced
  front := [0xAA]
  back := [0]
  before := [1]
  old := old
  new := new
  after := [1, 0, 1, 1, 2, 0x80]
  first := [(.copy, [])]
  oldInstructions := oldInstructions
  newInstructions := newInstructions
  opens_old := opens_spaced (by simp; omega)
  opens_new := opens_spaced (by simp; omega)
  first_spelled := by
    change Coding.SpellsAll _ _ ([1] ++ []) _
    exact .cons (.known .copy (by decide) ⟨rfl, rfl⟩) .nil
  old_spelled := hspelled _
  new_spelled := hspelled' _

end Replacement
end DebugLine
