import DebugLine.Proofs.RoundTrip
import DebugLine.Proofs.RowMeaning
import DebugLine.Proofs.UnitLayout

/-!
# Opcodes without a known meaning

An opcode without a known meaning changes neither the registers nor the files, and the header or the
frame of the opcode says what to skip for it. So a program gives the same rows, each with the same
file, with such an opcode between two of its instructions as without it.
-/

namespace DebugLine

theorem StandardOpcode.ofCode?_eq_none {code : UInt8} (h : 13 ≤ code) : ofCode? code = none := by
  rw [UInt8.le_iff_toNat_le] at h
  unfold ofCode?
  split <;> first | rfl | simp_all

/-- The bytes are one opcode without a known meaning, and what the header or the frame of the opcode
says to skip for it. -/
inductive Header.SpellsUnknown (h : Header) : List UInt8 → Prop
  | standard {opcode count : UInt8} {numbers : List (List UInt8)} (above : 13 ≤ opcode)
      (below : opcode < h.opcodeBase) (declared : h.standardOpcodeLength? opcode = some count)
      (isUnsigned : ∀ number ∈ numbers, Leb128.IsUnsigned number)
      (length_eq : numbers.length = count.toNat) : SpellsUnknown h (opcode :: numbers.flatten)
  | extended {opcode : UInt8} {length payload : List UInt8} (unknown : ¬ (1 ≤ opcode ∧ opcode ≤ 4))
      (isUnsigned : Leb128.IsUnsigned length)
      (length_eq : (Leb128.unsignedWord length).toNat = payload.length + 1) :
      SpellsUnknown h (0 :: (length ++ opcode :: payload))

/-- The instruction neither emits a row nor changes a register. -/
def Instruction.IsInert (i : Instruction) : Prop :=
  ∀ (p : LineParameters) (r : Row), r.execute p i = (r, none)

theorem Header.SpellsUnknown.exists_spells {h : Header} {d : Decoder} {bytes : List UInt8}
    (hbytes : h.SpellsUnknown bytes) (hbase : h.opcodeBase ≠ 0) (t : FileTable) :
    ∃ i, (d.coding h).Spells t bytes i [] ∧ i.IsInert := by
  cases hbytes with
  | @standard opcode count numbers above below declared isUnsigned length_eq =>
    have harguments : (d.coding h).arguments opcode = count := by
      simp [Decoder.coding, declared]
    refine ⟨.unknownStandard opcode count, .standard below ?_ ?_, fun _ _ => rfl⟩
    · rintro rfl
      exact absurd above (by decide)
    · rw [Coding.StandardOperands, StandardOpcode.ofCode?_eq_none above]
      exact ⟨⟨numbers, rfl, isUnsigned, by rw [harguments, length_eq]⟩, by rw [harguments]⟩
  | @extended opcode length payload unknown isUnsigned length_eq =>
    have hspells := @Coding.Spells.extended (d.coding h) t length [] payload opcode
      (.unknownExtended opcode (Leb128.unsignedWord length)) []
      (UInt8.pos_iff_ne_zero.mpr hbase) isUnsigned (by simp [length_eq]; omega)
    refine ⟨_, hspells ?_, fun _ _ => rfl⟩
    rw [Coding.ExtendedOperands, ExtendedOpcode.ofCode?_eq_none unknown]
    exact ⟨rfl, rfl, rfl⟩

namespace Row

/-- The rows that instructions emit, each with its file as far as the program has come. -/
def resolved (p : LineParameters) :
    List (Instruction × List FileEntry) → Row → FileTable → List (Row × Option FileEntry)
  | [], _, _ => []
  | (i, added) :: rest, r, t =>
    ((r.execute p i).2.map fun row => (row, (t.pushAll added).get? row.fileIndex)).toList ++
      resolved p rest (r.execute p i).1 (t.pushAll added)

variable {p : LineParameters} {i : Instruction}

theorem executeAll_inserted (hi : i.IsInert) (before after : List Instruction) (r : Row) :
    executeAll p (before ++ i :: after) r = executeAll p (before ++ after) r := by
  simp [executeAll_append, executeAll, hi p]

theorem resolved_inserted (hi : i.IsInert) (before after : List (Instruction × List FileEntry))
    (r : Row) (t : FileTable) :
    resolved p (before ++ (i, []) :: after) r t = resolved p (before ++ after) r t := by
  induction before generalizing r t with
  | nil => simp [resolved, hi p]
  | cons step before ih => simp only [List.cons_append, resolved, ih]

end Row

namespace Machine

variable {m m' : Machine} {row : Row}

/-- The rows that the machine gives before a failure or the end, each with its file when the row has
just been given. -/
def resolvedRows (m : Machine) : List (Row × Option FileEntry) :=
  m.table.mapIdx fun j row => (row, (m.afterRows (j + 1)).rowFile? row)

theorem resolvedRows_of_silent (h : step m = .ok none m') : m.resolvedRows = m'.resolvedRows := by
  have hnext := nextRow_of_silent h
  simp only [resolvedRows, table, rows_of_silent h, afterRows_succ, hnext]

theorem resolvedRows_of_emits (h : step m = .ok (some row) m') :
    m.resolvedRows = (row, m'.rowFile? row) :: m'.resolvedRows := by
  have hnext := nextRow_of_emits h
  have hafter (j : Nat) : m.afterRows (j + 1) = m'.afterRows j := by
    rw [afterRows_succ, hnext, EStateM.Result.state_ok]
  simp only [resolvedRows, table_of_row hnext, List.mapIdx_cons, hafter]
  rfl

theorem resolvedRows_of_spellsAll {steps : List (Instruction × List FileEntry)}
    (hsound : m.cursor.Sound) (hsize : m.cursor.addressSize ∈ addressSizes)
    (hspells : (m.coding m.header).SpellsAll m.files m.cursor.window steps) :
    m.resolvedRows = Row.resolved m.header.toLineParameters steps m.registers m.files := by
  generalize hc : m.coding m.header = c at hspells
  generalize ht : m.files = t at hspells
  generalize hw : m.cursor.window = w at hspells
  induction hspells generalizing m with
  | nil =>
    have hend : m.atEnd = true := hsound.isEmpty_of_window hw
    rw [resolvedRows, table_of_none (nextRow_of_atEnd hsound.failure_eq hend)]
    rfl
  | @cons t bytes more i added steps hfirst _ ih =>
    subst hc ht
    have hdecode := Instruction.reads_of_spells hsound.failure_eq hsize hfirst _ hw
    have hstep := step_of_decode_ok hsound.failure_eq (Cursor.isEmpty_eq_false hw hfirst.length_pos)
      hdecode
    have hrest : (m.cursor.passed bytes.length).window = more := by
      rw [Cursor.window_passed, hw, List.drop_left]
    have hlater := ih (m := m.executed i (m.toDecoder.passed bytes.length added))
      (hsound.passed_front hw) hsize rfl rfl hrest
    rw [Row.resolved]
    cases hrow : (m.registers.execute m.header.toLineParameters i).2 with
    | none =>
      rw [hrow] at hstep
      rw [resolvedRows_of_silent hstep, hlater]
      rfl
    | some row =>
      rw [hrow] at hstep
      rw [resolvedRows_of_emits hstep, hlater]
      rfl

/-- The machines give the same rows, each with the same file, and end with the same registers and
files. -/
structure SameRows (m m' : Machine) : Prop where
  rows_eq : m'.rows.1 = m.rows.1
  resolvedRows_eq : m'.resolvedRows = m.resolvedRows
  registers_eq : m'.rows.2.registers = m.rows.2.registers
  files_eq : m'.rows.2.files = m.rows.2.files

end Machine

namespace UnitLayout

open Machine (ofUnit)

variable {u : UnitLayout} {unit : CompileUnit} {settings : Settings} {front back : List UInt8}
  {before inserted after : List UInt8} {compDir : String} {check : Bool} {limit : Option Nat}

theorem sameRows_inserted (hsize : unit.addressSize ∈ addressSizes)
    (hvalid : u.Valid unit.byteOrder compDir check limit)
    (hlonger : (u.withProgram unit.byteOrder (before ++ inserted ++ after)).Valid unit.byteOrder
      compDir check limit) (front back : List UInt8) :
    let start := u.machine unit limit front back
    start.ErrorFree → u.program = before ++ after →
      start.header.programOffset + before.length ∈
        start.header.programOffset :: start.listing.instructions.map Prod.snd →
      start.header.SpellsUnknown inserted →
      start.SameRows ((u.withProgram unit.byteOrder (before ++ inserted ++ after)).machine unit
        limit front back) := by
  intro start hdecodes hprogram hboundary hinserted
  have hlisting := Machine.failure_listing_of_errorFree rfl hdecodes
  obtain ⟨bytes, first, rest, second, hwindow, hat, hfirst, hsecond⟩ :=
    Listing.exists_spellsAll rfl hsize hlisting hboundary
  rw [hvalid.window_machine, hprogram] at hwindow
  obtain ⟨rfl, rfl⟩ := List.append_inj hwindow (Nat.add_left_cancel hat)
  obtain ⟨i, hspells, hi⟩ := hinserted.exists_spells (d := start.toDecoder)
    hvalid.header.parameters.opcodeBase_ne (start.files.pushAll (definedFiles first))
  have hwhole := hfirst.append hsecond
  have hlongerWhole := hfirst.append (.cons hspells hsecond)
  have hlongerWindow : ((u.withProgram unit.byteOrder (before ++ inserted ++ after)).machine unit
      limit front back).cursor.window = before ++ inserted ++ after :=
    hlonger.window_machine front back
  rw [← List.append_assoc, ← hlongerWindow] at hlongerWhole
  rw [← hprogram, ← hvalid.window_machine front back] at hwhole
  obtain ⟨hrows, hregisters, hfiles⟩ :=
    Machine.rows_of_spellsAll (hvalid.sound front back) hsize hwhole
  obtain ⟨hrows', hregisters', hfiles'⟩ :=
    Machine.rows_of_spellsAll (hlonger.sound front back) hsize hlongerWhole
  have hresolved := Machine.resolvedRows_of_spellsAll (hvalid.sound front back) hsize hwhole
  have hresolved' :=
    Machine.resolvedRows_of_spellsAll (hlonger.sound front back) hsize hlongerWhole
  rw [List.map_append, List.map_cons, Row.executeAll_inserted hi, ← List.map_append]
    at hrows' hregisters'
  rw [Row.resolved_inserted hi] at hresolved'
  refine ⟨hrows'.trans hrows.symm, hresolved'.trans hresolved.symm,
    hregisters'.trans hregisters.symm, ?_⟩
  rw [hfiles, hfiles', definedFiles_append, definedFiles_append]
  rfl

/-- An opcode without a known meaning may be inserted at the start of a program that is decoded to
its end, or behind any of its instructions. The rows stay what they are, each with its file, and so
do the final registers and files. -/
theorem rows_of_inserted (hoffset : unit.stmtList = some front.length)
    (hsize : unit.addressSize ∈ addressSizes)
    (hvalid : u.Valid unit.byteOrder unit.directory settings.checksOpcodeLengths settings.fileLimit)
    {start : Machine}
    (hopen : ofUnit unit (u.among unit.byteOrder front back) settings = .ok (some start))
    (hdecodes : start.ErrorFree) (hprogram : u.program = before ++ after)
    (hboundary : start.header.programOffset + before.length ∈
      start.header.programOffset :: start.listing.instructions.map Prod.snd)
    (hinserted : start.header.SpellsUnknown inserted)
    (hlength : (u.withProgram unit.byteOrder (before ++ inserted ++ after)).header.unitLength <
      u.header.format.lengthBound)
    (hfits : ((u.withProgram unit.byteOrder (before ++ inserted ++ after)).among unit.byteOrder
      front back).size < UInt64.size - 1) :
    ∃ start', ofUnit unit ((u.withProgram unit.byteOrder (before ++ inserted ++ after)).among
        unit.byteOrder front back) settings = .ok (some start') ∧
      start'.rows.1 = start.rows.1 ∧ start'.resolvedRows = start.resolvedRows ∧
      start'.rows.2.registers = start.rows.2.registers ∧
      start'.rows.2.files = start.rows.2.files := by
  have hlonger := hvalid.withProgram hlength
  have hle : u.program.length ≤ (before ++ inserted ++ after).length := by
    simp only [hprogram, List.length_append]
    omega
  obtain ⟨-, hshorter⟩ := hlonger.ofUnit_of_le hoffset hsize hfits hle
  rw [withProgram_program hvalid, hopen] at hshorter
  cases hshorter
  have hsame :=
    sameRows_inserted hsize hvalid hlonger front back hdecodes hprogram hboundary hinserted
  exact ⟨_, ofUnit_among hoffset hsize hlonger hfits, hsame.rows_eq, hsame.resolvedRows_eq,
    hsame.registers_eq, hsame.files_eq⟩

/-- A row and a file. -/
def namingProgram : List UInt8 := [1, 0, 6, 3, 0x62, 0, 0, 0, 0]

/-- A row of the second file, and the end of the sequence. -/
def namedProgram : List UInt8 := [4, 2, 1, 0, 1, 1]

/-- The opcode that the unit declares two numbers for. The first of them is longer than it need
be. -/
def skippedBytes : List UInt8 := [13, 0x81, 0x00, 0x01]

theorem rows_of_inserted_spaced :
    let u := spaced.withProgram .little (namingProgram ++ namedProgram)
    let longer := spaced.withProgram .little (namingProgram ++ skippedBytes ++ namedProgram)
    let unit : CompileUnit := ⟨some 1, some "/w", 8, .little⟩
    u.Valid .little "/w" true none ∧ ∃ start start',
      ofUnit unit (u.among .little [0xAA] [0]) .unset = .ok (some start) ∧ start.ErrorFree ∧
      start.header.programOffset + 9 ∈
        start.header.programOffset :: start.listing.instructions.map Prod.snd ∧
      start.header.SpellsUnknown skippedBytes ∧
      ofUnit unit (longer.among .little [0xAA] [0]) .unset = .ok (some start') ∧
      start'.rows.1 = start.rows.1 ∧ start'.resolvedRows = start.resolvedRows ∧
      start.resolvedRows.map (fun named => (named.1.address, named.2.map FileEntry.path)) =
        [(0, some "/w/a"), (0, some "/w/b"), (0, some "/w/b")] ∧
      start'.rows.2.registers = start.rows.2.registers ∧
      start'.rows.2.files = start.rows.2.files := by
  intro u longer unit
  have hvalid : u.Valid .little "/w" true none := spaced_valid.withProgram (by decide)
  obtain ⟨start, hopen, hrows, hboundary, hbase, hdeclared, hresolved⟩ : ∃ start,
      ofUnit unit (u.among .little [0xAA] [0]) .unset = .ok (some start) ∧
      start.rows.1 = (start.rows.1.filterMap Except.toOption).map .ok ∧
      start.header.programOffset + namingProgram.length ∈
        start.header.programOffset :: start.listing.instructions.map Prod.snd ∧
      13 < start.header.opcodeBase ∧ start.header.standardOpcodeLength? 13 = some 2 ∧
      start.resolvedRows.map (fun named => (named.1.address, named.2.map FileEntry.path)) =
        [(0, some "/w/a"), (0, some "/w/b"), (0, some "/w/b")] :=
    Machine.exists_of_opened (by decide +kernel)
  have hunknown : start.header.SpellsUnknown skippedBytes :=
    @Header.SpellsUnknown.standard start.header 13 2 [[0x81, 0x00], [0x01]] (by decide) hbase
      hdeclared
      (by simpa using ⟨.more rfl (.last rfl (by decide)), .last rfl (by decide)⟩) rfl
  have hdecodes := Machine.errorFree_of_rows hrows
  obtain ⟨start', hopen', hrows', hresolved', hregisters, hfiles⟩ := @rows_of_inserted u unit .unset
    [0xAA] [0] namingProgram skippedBytes namedProgram rfl (by decide) hvalid start hopen hdecodes
    rfl hboundary hunknown (by decide) (by decide)
  exact ⟨hvalid, start, start', hopen, hdecodes, hboundary, hunknown, hopen', hrows', hresolved',
    hresolved, hregisters, hfiles⟩

/-- Whatever section a header is read from, the opcode may be inserted into its unit, unless the
tables of the header reach into the program. -/
theorem exists_inserted_of_read {bytes : Array UInt8} {offset : Nat} {header : Header}
    {d : Decoder} (hoffset : unit.stmtList = some offset) (hsize : unit.addressSize ∈ addressSizes)
    (hbytes : bytes.size < UInt64.size - 1)
    (hread : Header.read unit.directory settings.checksOpcodeLengths
      (Machine.decoderAt unit bytes settings offset) = .ok header d)
    (htables : d.cursor.offset ≤ header.programOffset) :
    ∃ (front : List UInt8) (u : UnitLayout) (back : List UInt8) (start : Machine),
      bytes = u.among unit.byteOrder front back ∧ ofUnit unit bytes settings = .ok (some start) ∧
      start.cursor.window = u.program ∧
      ∀ before inserted after : List UInt8, start.ErrorFree → u.program = before ++ after →
        start.header.programOffset + before.length ∈
          start.header.programOffset :: start.listing.instructions.map Prod.snd →
        start.header.SpellsUnknown inserted →
        let longer := u.withProgram unit.byteOrder (before ++ inserted ++ after)
        longer.header.unitLength < u.header.format.lengthBound →
        (longer.among unit.byteOrder front back).size < UInt64.size - 1 →
        ∃ start', ofUnit unit (longer.among unit.byteOrder front back) settings =
          .ok (some start') ∧ start.SameRows start' := by
  obtain ⟨front, u, back, rfl, hfront, hvalid, hopen⟩ :=
    exists_machine_of_read hoffset hsize hbytes hread htables
  refine ⟨front, u, back, _, rfl, hopen, hvalid.window_machine front back, ?_⟩
  intro before inserted after hdecodes hprogram hboundary hinserted longer hlength hfits
  have hlonger := hvalid.withProgram hlength
  exact ⟨_, ofUnit_among hfront hsize hlonger hfits,
    sameRows_inserted hsize hvalid hlonger front back hdecodes hprogram hboundary hinserted⟩

end UnitLayout

/-- Into an assembled unit the opcode may be inserted as well. -/
theorem Assembly.sameRows_inserted {a : Assembly} {before inserted after : List UInt8}
    (h : a.Valid) (hlonger : (a.withProgram (before ++ inserted ++ after)).Valid)
    (hdecodes : a.machine.ErrorFree) (hprogram : a.program = before ++ after)
    (hboundary : a.machine.header.programOffset + before.length ∈
      a.machine.header.programOffset :: a.machine.listing.instructions.map Prod.snd)
    (hinserted : a.machine.header.SpellsUnknown inserted) :
    a.machine.SameRows (a.withProgram (before ++ inserted ++ after)).machine := by
  have hvalid : a.unitLayout.Valid (a.unit 0).byteOrder compDir true none := unitLayout_valid h
  have hlongerValid := unitLayout_valid hlonger
  rw [unitLayout_withProgram] at hlongerValid
  have hsame := UnitLayout.sameRows_inserted h.addressSize_mem hvalid hlongerValid [] []
  rw [← machine_unitLayout h] at hdecodes hboundary hinserted ⊢
  rw [← machine_unitLayout hlonger, unitLayout_withProgram]
  exact hsame hdecodes hprogram hboundary hinserted

end DebugLine
