import DebugLine.Proofs.Assembled
import DebugLine.Proofs.ProgramLayout

/-!
# The layout of units

A unit is a header, a program, and whatever lies between the tables of the header and the program.
Opening it leads to the start of the program, with the files of the header. A unit may be given
another program: all that its header says about the program is how long the unit is.
-/

namespace DebugLine

/-- A unit as it lies in a section. -/
structure UnitLayout where
  header : HeaderLayout
  /-- What lies between the tables and the program. -/
  gap : List UInt8
  program : List UInt8

namespace UnitLayout

/-- What stands behind the initial length. -/
def body (order : ByteOrder) (u : UnitLayout) : List UInt8 :=
  u.header.insideBytes order ++ u.gap ++ u.program

def bytes (order : ByteOrder) (u : UnitLayout) : List UInt8 :=
  u.header.format.initialBytes order u.header.unitLength ++ u.body order

/-- A section that holds the unit between other bytes. -/
def among (order : ByteOrder) (front back : List UInt8) (u : UnitLayout) : Array UInt8 :=
  (front ++ u.bytes order ++ back).toArray

/-- The header is in order, the unit is as long as it says, and the program starts where it says. -/
structure Valid (order : ByteOrder) (compDir : String) (check : Bool) (limit : Option Nat)
    (u : UnitLayout) : Prop where
  header : u.header.Valid order compDir check limit
  unitLength_eq : u.header.unitLength = (u.body order).length
  programStart_eq : u.header.programStart = (u.header.insideBytes order ++ u.gap).length

/-- The unit with another program, and with the length that it then has. -/
def withProgram (order : ByteOrder) (program : List UInt8) (u : UnitLayout) : UnitLayout where
  header :=
    { u.header with unitLength := (u.header.insideBytes order ++ u.gap ++ program).length }
  gap := u.gap
  program := program

/-- The machine at the start of the program of a unit that lies behind `front`. -/
def machine (unit : CompileUnit) (limit : Option Nat) (front back : List UInt8) (u : UnitLayout) :
    Machine where
  cursor :=
    { bytes := u.among unit.byteOrder front back
      offset := front.length + u.header.format.initialSize + u.header.programStart
      limit := front.length + u.header.format.initialSize + u.header.unitLength
      byteOrder := unit.byteOrder
      addressSize := unit.addressSize
      failure := none }
  files := ⟨(u.header.entries unit.directory).toArray, [], limit⟩
  header := u.header.header unit.directory front.length
  registers := Row.initial u.header.parameters.defaultIsStmt

variable {order : ByteOrder} {compDir : String} {check : Bool} {limit : Option Nat}
  {u : UnitLayout} {front back program : List UInt8} {unit : CompileUnit} {settings : Settings}

@[simp] theorem toLineParameters_machine :
    (u.machine unit limit front back).header.toLineParameters = u.header.parameters := rfl

@[simp] theorem registers_machine : (u.machine unit limit front back).registers =
    Row.initial u.header.parameters.defaultIsStmt := rfl

@[simp] theorem parameters_withProgram :
    (u.withProgram order program).header.parameters = u.header.parameters := rfl

theorem withProgram_program (h : u.Valid order compDir check limit) :
    u.withProgram order u.program = u := by
  obtain ⟨header, gap, program⟩ := u
  obtain ⟨-, hlength, -⟩ := h
  simp only [body] at hlength
  simp only [withProgram, ← hlength]

theorem Valid.withProgram (h : u.Valid order compDir check limit)
    (hfits : (u.withProgram order program).header.unitLength < u.header.format.lengthBound) :
    (u.withProgram order program).Valid order compDir check limit where
  header :=
    { h.header with
      unitLength_lt := hfits
      programStart_le := by
        change u.header.programStart ≤ (u.header.insideBytes order ++ u.gap ++ program).length
        rw [h.programStart_eq]
        exact (List.prefix_append _ _).length_le
      inside_le := by
        change (u.header.insideBytes order).length ≤
          (u.header.insideBytes order ++ u.gap ++ program).length
        rw [List.append_assoc]
        exact (List.prefix_append _ _).length_le }
  unitLength_eq := rfl
  programStart_eq := h.programStart_eq

section Valid

variable (h : u.Valid order compDir check limit)
include h

theorem Valid.length_bytes :
    (u.bytes order).length = u.header.format.initialSize + u.header.unitLength := by
  rw [bytes, List.length_append, Format.length_initialBytes, h.unitLength_eq]

theorem Valid.size_among : (u.among order front back).size =
    front.length + (u.header.format.initialSize + u.header.unitLength) + back.length := by
  simp only [among, List.size_toArray, List.length_append, h.length_bytes]

theorem Valid.liesAt (front back : List UInt8) :
    u.header.LiesAt order (u.among order front back) front.length where
  isPrefix := by
    simp only [among, bytes, body, HeaderLayout.bytes, List.append_assoc, List.drop_left,
      List.prefix_append_right_inj]
    exact List.prefix_append _ _
  unit_le := by
    rw [h.size_among]
    omega

end Valid

theorem Valid.withProgram_of_le {longer shorter : List UInt8} (front back : List UInt8)
    (h : (u.withProgram order longer).Valid order compDir check limit)
    (hle : shorter.length ≤ longer.length) :
    (u.withProgram order shorter).Valid order compDir check limit ∧
      ((u.withProgram order shorter).among order front back).size ≤
        ((u.withProgram order longer).among order front back).size := by
  have hlength : (u.withProgram order shorter).header.unitLength ≤
      (u.withProgram order longer).header.unitLength := by
    simp only [UnitLayout.withProgram, List.length_append]
    omega
  have hshorter : (u.withProgram order shorter).Valid order compDir check limit :=
    h.withProgram (hlength.trans_lt h.header.unitLength_lt)
  refine ⟨hshorter, ?_⟩
  rw [hshorter.size_among, h.size_among]
  exact Nat.add_le_add_right (Nat.add_le_add_left (Nat.add_le_add_left hlength _) _) _

theorem ofUnit_among (hoffset : unit.stmtList = some front.length)
    (hsize : unit.addressSize ∈ addressSizes)
    (h : u.Valid unit.byteOrder unit.directory settings.checksOpcodeLengths settings.fileLimit)
    (hfits : (u.among unit.byteOrder front back).size < UInt64.size - 1) :
    Machine.ofUnit unit (u.among unit.byteOrder front back) settings =
      .ok (some (u.machine unit settings.fileLimit front back)) := by
  have hread := Header.read_of_liesAt h.header (h.liesAt front back) hfits
    unit.addressSize
  rw [Machine.ofUnit_of_read hoffset hsize hread]
  have hlies := (h.liesAt front back).unit_le
  have hstart := h.header.programStart_le
  have hcount : FileTable.truncate ⟨(u.header.entries unit.directory).toArray, [],
      settings.fileLimit⟩ u.header.files.length =
      ⟨(u.header.entries unit.directory).toArray, [], settings.fileLimit⟩ := by
    have htruncate := FileTable.truncate_count
      ⟨(u.header.entries unit.directory).toArray, [], settings.fileLimit⟩
    simpa [FileTable.count, HeaderLayout.entries] using htruncate
  have hstartEnd : front.length + u.header.format.initialSize + u.header.programStart ≤
      front.length + u.header.format.initialSize + u.header.unitLength := by omega
  simp only [Machine.rewound, Cursor.seek, machine, HeaderLayout.header, hcount,
    min_eq_left hlies, min_eq_left hstartEnd]

/-- A unit that opens with a program opens with one that is not longer. -/
theorem Valid.ofUnit_of_le {longer shorter : List UInt8}
    (hoffset : unit.stmtList = some front.length) (hsize : unit.addressSize ∈ addressSizes)
    (h : (u.withProgram unit.byteOrder longer).Valid unit.byteOrder unit.directory
      settings.checksOpcodeLengths settings.fileLimit)
    (hfits : ((u.withProgram unit.byteOrder longer).among unit.byteOrder front back).size <
      UInt64.size - 1) (hle : shorter.length ≤ longer.length) :
    (u.withProgram unit.byteOrder shorter).Valid unit.byteOrder unit.directory
        settings.checksOpcodeLengths settings.fileLimit ∧
      Machine.ofUnit unit ((u.withProgram unit.byteOrder shorter).among unit.byteOrder front back)
        settings = .ok (some ((u.withProgram unit.byteOrder shorter).machine unit
          settings.fileLimit front back)) := by
  obtain ⟨hshorter, hsizeLe⟩ := h.withProgram_of_le front back hle
  exact ⟨hshorter, ofUnit_among hoffset hsize hshorter (hsizeLe.trans_lt hfits)⟩

theorem Valid.sound (h : u.Valid unit.byteOrder compDir check limit) (front back : List UInt8) :
    (u.machine unit limit front back).cursor.Sound where
  failure_eq := rfl
  offset_le := by
    have := h.header.programStart_le
    simp only [machine]
    omega
  limit_le := (h.liesAt front back).unit_le

theorem Valid.window_machine (h : u.Valid unit.byteOrder compDir check limit)
    (front back : List UInt8) :
    (u.machine unit limit front back).cursor.window = u.program := by
  have hbytes : (u.among unit.byteOrder front back).toList =
      (front ++ u.header.format.initialBytes unit.byteOrder u.header.unitLength ++
        (u.header.insideBytes unit.byteOrder ++ u.gap)) ++ (u.program ++ back) := by
    simp [among, bytes, body]
  have hfront : (front ++ u.header.format.initialBytes unit.byteOrder u.header.unitLength ++
      (u.header.insideBytes unit.byteOrder ++ u.gap)).length =
      front.length + u.header.format.initialSize + u.header.programStart := by
    simp [h.programStart_eq, Nat.add_assoc]
  have hlength : u.header.unitLength = u.header.programStart + u.program.length := by
    rw [h.unitLength_eq, h.programStart_eq, body, List.length_append]
  have hprogram : front.length + u.header.format.initialSize + u.header.unitLength -
      (front.length + u.header.format.initialSize + u.header.programStart) = u.program.length := by
    omega
  rw [Cursor.window, Array.toList_extract, List.extract_eq_take_drop]
  simp only [machine]
  rw [hprogram, hbytes, ← hfront, List.drop_left, List.take_left]

/-- Every unit whose header can be read, and whose tables do not reach into the program, lies in its
section like this. -/
theorem exists_among_of_read {bytes : Array UInt8} {offset : Nat} {addressSize : UInt8}
    {header : Header} {d : Decoder} (hbytes : bytes.size < UInt64.size - 1)
    (hread : Header.read compDir check
      ⟨Cursor.ofBytes bytes offset order addressSize, .empty limit⟩ = .ok header d)
    (htables : d.cursor.offset ≤ header.programOffset) :
    ∃ (front : List UInt8) (u : UnitLayout) (back : List UInt8), bytes = u.among order front back ∧
      offset = front.length ∧ u.Valid order compDir check limit ∧
      header = u.header.header compDir offset := by
  obtain ⟨l, hl, hat, rfl, rfl⟩ := Header.layout_of_read hbytes hread
  obtain ⟨rest, hrest⟩ := hat.isPrefix
  have hunit := hat.unit_le
  have hstart := hl.programStart_le
  have hgap : (l.insideBytes order).length ≤ l.programStart := by
    simp only [HeaderLayout.header, HeaderLayout.bytes, List.length_append,
      Format.length_initialBytes] at htables
    omega
  have hsize : l.format.initialSize + ((l.insideBytes order).length + rest.length) =
      bytes.size - offset := by
    simpa [HeaderLayout.bytes] using congrArg List.length hrest
  obtain ⟨gap, more, hmore, hgapLength⟩ :
      ∃ gap more, rest = gap ++ more ∧ gap.length = l.programStart - (l.insideBytes order).length :=
    ⟨_, _, (List.take_append_drop _ _).symm, List.length_take_of_le (by omega)⟩
  have hlength : gap.length + more.length = rest.length := by rw [hmore, List.length_append]
  obtain ⟨program, back, hback, hprogramLength⟩ :
      ∃ program back, more = program ++ back ∧ program.length = l.unitLength - l.programStart :=
    ⟨_, _, (List.take_append_drop _ _).symm, List.length_take_of_le (by omega)⟩
  refine ⟨bytes.toList.take offset, ⟨l, gap, program⟩, back, ?_, ?_, ⟨hl, ?_, ?_⟩, rfl⟩
  · have hwhole : bytes.toList = bytes.toList.take offset ++
        (l.bytes order ++ (gap ++ (program ++ back))) := by
      rw [← hback, ← hmore, hrest, List.take_append_drop]
    apply Array.toList_inj.mp
    refine hwhole.trans ?_
    simp [among, UnitLayout.bytes, body, HeaderLayout.bytes]
  · rw [List.length_take, Array.length_toList]
    omega
  · simp only [body, List.length_append]
    omega
  · simp only [List.length_append]
    omega

/-- So the machine of every such unit is that of a layout. -/
theorem exists_machine_of_read {bytes : Array UInt8} {offset : Nat} {header : Header} {d : Decoder}
    (hoffset : unit.stmtList = some offset) (hsize : unit.addressSize ∈ addressSizes)
    (hbytes : bytes.size < UInt64.size - 1)
    (hread : Header.read unit.directory settings.checksOpcodeLengths
      (Machine.decoderAt unit bytes settings offset) = .ok header d)
    (htables : d.cursor.offset ≤ header.programOffset) :
    ∃ (front : List UInt8) (u : UnitLayout) (back : List UInt8),
      bytes = u.among unit.byteOrder front back ∧ unit.stmtList = some front.length ∧
      u.Valid unit.byteOrder unit.directory settings.checksOpcodeLengths settings.fileLimit ∧
      Machine.ofUnit unit bytes settings =
        .ok (some (u.machine unit settings.fileLimit front back)) := by
  obtain ⟨front, u, back, rfl, rfl, hvalid, rfl⟩ := exists_among_of_read hbytes hread htables
  exact ⟨front, u, back, rfl, hoffset, hvalid, ofUnit_among hoffset hsize hvalid hbytes⟩

theorem pushAll_files_machine (added : List FileEntry) :
    (u.machine unit limit front back).files.pushAll added =
      ⟨(u.header.entries unit.directory ++ added).toArray, [], limit⟩ := by
  rw [FileTable.pushAll_of_hidden_eq_nil rfl]
  simp [machine]

/-- A unit with one file, a standard opcode of its own and a byte between its tables and its
program. -/
def spaced : UnitLayout where
  header :=
    { format := .dwarf32
      unitLength := 32
      version := 2
      headerLength := 26
      parameters := ⟨1, 1, true, -3, 12, 14⟩
      isStmt := 1
      opcodeLengths := [0, 1, 1, 1, 1, 0, 0, 0, 1, 0, 0, 1, 2]
      directories := []
      files := [⟨[0x61], [0], [0], [0]⟩] }
  gap := [0xCC]
  program := []

theorem spaced_valid : spaced.Valid .little "/w" true none where
  header :=
    { unitLength_lt := by decide
      version_supported := by decide
      headerLength_lt := by decide
      programStart_le := by decide
      parameters := ⟨by decide, by decide, by decide, by decide⟩
      isStmt_eq := rfl
      opcodeLengths_length := rfl
      opcodeLengths_agree := fun _ => Header.agreesWithKnown_iff.mpr (by decide)
      directories := by simp [spaced]
      files := by
        have hzero : Leb128.IsUnsigned [0x00] := .last rfl nofun
        simp only [spaced, List.mem_singleton, forall_eq]
        exact ⟨by simp [IsName], hzero, hzero, hzero, .inr (by decide)⟩
      files_length_le := by decide
      inside_le := by decide }
  unitLength_eq := by decide
  programStart_eq := by decide

end UnitLayout

namespace Assembly

/-- An assembled unit, whose tables end where its program begins. -/
def unitLayout (a : Assembly) : UnitLayout := ⟨a.layout, [], a.program⟩

variable {a : Assembly}

theorem bytes_unitLayout (a : Assembly) : a.unitLayout.bytes a.byteOrder = a.encode := by
  rw [encode_eq, UnitLayout.bytes, UnitLayout.body, HeaderLayout.bytes]
  simp [unitLayout]

theorem unitLayout_valid (h : a.Valid) :
    a.unitLayout.Valid a.byteOrder compDir true none where
  header := layout_valid h
  unitLength_eq := by
    rw [UnitLayout.body]
    simpa [unitLayout, layout] using congrArg List.length (body_eq a)
  programStart_eq := by
    have hlength := congrArg List.length (body_eq a)
    rw [length_body, List.length_append] at hlength
    simp only [unitLayout, List.append_nil]
    change 2 + a.format.offsetSize + a.headerBytes.length = _
    omega

/-- The machine of an assembled unit is that of its layout. -/
theorem machine_unitLayout (h : a.Valid) :
    a.unitLayout.machine (a.unit 0) none [] [] = a.machine := by
  have hamong : a.unitLayout.among a.byteOrder [] [] = a.encode.toArray := by
    simp [UnitLayout.among, bytes_unitLayout]
  have hfits : (a.unitLayout.among a.byteOrder [] []).size < UInt64.size - 1 := by
    simpa [hamong] using length_encode_lt h
  have hopen : Machine.ofUnit (a.unit 0) (a.unitLayout.among a.byteOrder [] []) .unset =
      .ok (some (a.unitLayout.machine (a.unit 0) none [] [])) :=
    UnitLayout.ofUnit_among rfl h.addressSize_mem (unitLayout_valid h) hfits
  rw [hamong, ofUnit_encode h] at hopen
  exact (Option.some.inj (Except.ok.inj hopen)).symm

/-- The unit with another program. -/
def withProgram (program : List UInt8) (a : Assembly) : Assembly := { a with program := program }

theorem unitLayout_withProgram (a : Assembly) (program : List UInt8) :
    (a.withProgram program).unitLayout = a.unitLayout.withProgram a.byteOrder program := by
  have hbody : (a.withProgram program).body =
      a.layout.insideBytes a.byteOrder ++ [] ++ program := by
    rw [List.append_nil]
    exact body_eq (a.withProgram program)
  rw [UnitLayout.withProgram]
  change _ = UnitLayout.mk { a.layout with
    unitLength := (a.layout.insideBytes a.byteOrder ++ [] ++ program).length } [] program
  rw [← hbody]
  rfl

theorem Valid.withProgram_of_le {longer shorter : List UInt8} (h : (a.withProgram longer).Valid)
    (hle : shorter.length ≤ longer.length) : (a.withProgram shorter).Valid :=
  { h with
    fits := by
      have hfits := h.fits
      have hbody : (a.withProgram shorter).body.length ≤ (a.withProgram longer).body.length := by
        simp only [length_body]
        exact Nat.add_le_add_left hle _
      have hencode : (a.withProgram shorter).encode.length ≤
          (a.withProgram longer).encode.length := by
        simp only [length_encode]
        exact Nat.add_le_add_left hbody _
      dsimp only [withProgram] at hfits hbody hencode ⊢
      split at hfits
      · exact hbody.trans_lt hfits
      · exact hencode.trans_lt hfits }

end Assembly
end DebugLine
