import DebugLine.Assembly
import DebugLine.Proofs.Admission
import DebugLine.Proofs.Clones
import DebugLine.Proofs.StartingOver

/-!
# Every machine is well formed

Three things last while a machine and its copies are run, put at saved positions and started over:
they do not fall behind their start, their tables have no more files than there may be, and between
two instructions the registers are those of a row inside a sequence. Together with what is known of
the header these say that every machine stands inside its program, wherever it has been put.
-/

namespace DebugLine

/-- Registers between two instructions: the operation is one of those that an instruction holds, and
no sequence has just ended. -/
structure Row.Settled (p : LineParameters) (r : Row) : Prop where
  opIndex_lt : r.opIndex.toNat < p.maximumOperations.toNat
  endSequence_eq : r.endSequence = false

namespace Row

variable {p : LineParameters} {r : Row}

theorem opIndex_advance_lt (hp : p.maximumOperations ≠ 0) (operations : UInt64) :
    (r.advance p operations).opIndex.toNat < p.maximumOperations.toNat := by
  have hpos : 0 < p.maximumOperations.toNat := Nat.pos_of_ne_zero fun h =>
    hp (UInt8.toNat_inj.mp h)
  have hmod := Nat.mod_lt (r.opIndex + operations).toNat hpos
  simpa [advance, UInt64.toNat_mod] using hmod

theorem settled_initial (hp : p.maximumOperations ≠ 0) (defaultIsStmt : Bool) :
    (initial defaultIsStmt).Settled p :=
  ⟨Nat.pos_of_ne_zero fun h => hp (UInt8.toNat_inj.mp h), rfl⟩

theorem Settled.advance (hp : p.maximumOperations ≠ 0) (hr : r.Settled p) (operations : UInt64) :
    (r.advance p operations).Settled p :=
  ⟨opIndex_advance_lt hp operations, hr.endSequence_eq⟩

theorem Settled.special (hp : p.maximumOperations ≠ 0) (hr : r.Settled p) (opcode : UInt8) :
    (r.special p opcode).Settled p :=
  let hadvanced := hr.advance hp (specialAdvance p opcode)
  ⟨hadvanced.opIndex_lt, hadvanced.endSequence_eq⟩

/-- Every instruction leaves the registers settled, also the one that ends a sequence. The row that
it emits is at an operation of the machine. -/
theorem Settled.execute (hp : p.maximumOperations ≠ 0) (hr : r.Settled p)
    (instruction : Instruction) :
    (r.execute p instruction).1.Settled p ∧
      ∀ row, (r.execute p instruction).2 = some row →
        row.opIndex.toNat < p.maximumOperations.toNat := by
  cases instruction with
  | special opcode =>
    have hspecial := hr.special hp opcode
    refine ⟨⟨hspecial.opIndex_lt, hspecial.endSequence_eq⟩, ?_⟩
    rintro row ⟨⟩
    exact hspecial.opIndex_lt
  | copy =>
    refine ⟨⟨hr.opIndex_lt, hr.endSequence_eq⟩, ?_⟩
    rintro row ⟨⟩
    exact hr.opIndex_lt
  | endSequence =>
    refine ⟨settled_initial hp _, ?_⟩
    rintro row ⟨⟩
    exact hr.opIndex_lt
  | advancePc operations => exact ⟨hr.advance hp operations, nofun⟩
  | constAddPc => exact ⟨hr.advance hp _, nofun⟩
  | advanceLine | setFile | setColumn | negateStatement | setBasicBlock | fixedAddPc
    | setPrologueEnd | setEpilogueBegin | setIsa | unknownStandard | setAddress | defineFile
    | setDiscriminator | unknownExtended =>
    exact ⟨⟨hr.opIndex_lt, hr.endSequence_eq⟩, nofun⟩

end Row

namespace Machine

variable {start m : Machine} {p : LineParameters}

theorem settled_lasting (hp : p.maximumOperations ≠ 0) :
    Lasting (fun m => m.header.toLineParameters = p ∧ m.registers.Settled p)
      (fun position => position.registers.Settled p)
      (fun row => row.opIndex.toNat < p.maximumOperations.toNat) where
  step := by
    refine step_keeps (fun m hm => hm) fun m instruction hm => ?_
    obtain ⟨hparameters, hsettled⟩ := hm
    obtain ⟨hnext, hrow⟩ := hsettled.execute hp instruction
    subst hparameters
    exact ⟨⟨rfl, hnext⟩, hrow⟩
  checkpoint m hm := hm.2
  restored m position hm hposition := ⟨hm.1, hposition⟩
  rewound m hm := ⟨hm.1, Row.settled_initial hp _⟩

theorem bounded_invariant : Invariant fun m => m.files.Bounded where
  step := by
    refine (step_keeps (R := fun _ => True) (fun m hm => ?_) fun m instruction hm =>
      ⟨hm, fun _ _ => trivial⟩).moves
    exact Instruction.decode_preserves (FileTable.bounded_admits m.header.includeDirectories)
      m.toDecoder hm
  restored m position hm := by
    simpa [FileTable.Bounded, restored, FileTable.setCount, FileTable.stored] using hm
  rewound m hm := by
    simpa [FileTable.Bounded, rewound, FileTable.truncate, FileTable.setCount, FileTable.stored]
      using hm

/-- The machine runs the program of `h` and stands inside it, its registers are settled, and it
shows the files of the header and no more than are stored or than there may be. A table is the
visible files in front of the hidden ones, so `count_le_stored` holds by its form; of entries and a
number that are kept apart, `Checked.length_le_size` says it. -/
structure WellFormed (h : Header) (bytes : Array UInt8) (limit : Option Nat) (m : Machine) :
    Prop where
  header_eq : m.header = h
  bytes_eq : m.cursor.bytes = bytes
  limit_eq : m.cursor.limit = h.endOffset
  programOffset_le : h.programOffset ≤ m.cursor.offset
  offset_le : m.cursor.offset ≤ h.endOffset
  registers : m.registers.Settled h.toLineParameters
  initialFileCount_le : h.initialFileCount ≤ m.files.count
  count_le_stored : m.files.count ≤ m.files.stored.length
  count_le_limit : ∀ most, limit = some most → m.files.count ≤ most

theorem wellFormed_of_ofUnit {unit : CompileUnit} {bytes : Array UInt8} {settings : Settings}
    (hopen : ofUnit unit bytes settings = .ok (some start)) :
    start.header.WellFormed unit.directory bytes.size ∧ start.cursor.bytes = bytes ∧
      start.files.limit = settings.fileLimit ∧ start.files.Bounded := by
  obtain ⟨offset, header, d, hread, rfl⟩ := of_ofUnit hopen
  obtain ⟨hbytes, _, -, -, hlimit⟩ := Header.bytes_and_files_of_read hread
  have hempty : (FileTable.empty settings.fileLimit).Bounded := fun _ _ => Nat.zero_le _
  have hbounded : d.files.Bounded :=
    (Header.read_preserves FileTable.bounded_admits _ _).of_ok hread hempty
  exact ⟨(Header.wellFormed_of_read hread).1, hbytes, hlimit,
    bounded_invariant.rewound ⟨d, header, _⟩ hbounded⟩

theorem Fresh.wellFormed (hstart : Fresh start) {compDir : String} {bytes : Array UInt8}
    (hheader : start.header.WellFormed compDir bytes.size) (hbytes : start.cursor.bytes = bytes)
    (hm : start.Onward m.shown) (hbounded : m.files.Bounded)
    (hsettled : m.registers.Settled start.header.toLineParameters) :
    m.WellFormed start.header bytes start.files.limit := by
  have hlimit : start.cursor.limit = start.header.endOffset := by
    rw [hstart.limit_eq, hbytes]
    exact min_eq_left hheader.endOffset_le
  have hoffset : start.cursor.offset = start.header.programOffset := by
    rw [hstart.offset_eq, hlimit]
    exact min_eq_left hheader.programOffset_le
  have hmove : start.cursor.Onward m.cursor := hm.decoder.cursor
  have hfiles : m.files.limit = start.files.limit :=
    ((FileTable.extended_shown_iff hstart.hidden_eq_nil).mp hm.decoder.files).2
  have hcount := hm.decoder.files.visible_isPrefix.length_le
  rw [Array.length_toList, Array.length_toList] at hcount
  exact
    { header_eq := hm.header_eq
      bytes_eq := hmove.bytes_eq.trans hbytes
      limit_eq := hmove.limit_eq.trans hlimit
      programOffset_le := hoffset ▸ hmove.offset_le
      offset_le := by
        have hle := hmove.offset_le_limit (by rw [hoffset, hlimit]; exact hheader.programOffset_le)
        rwa [hmove.limit_eq, hlimit] at hle
      registers := hsettled
      initialFileCount_le := hstart.initialFileCount_eq.trans_le hcount
      count_le_stored := by simp [FileTable.count, FileTable.stored]
      count_le_limit := fun most hmost => hbounded.count_le (hfiles.trans hmost) }

end Machine

namespace Clones

variable {start : Machine}

theorem wellFormed_after {unit : CompileUnit} {bytes : Array UInt8} {settings : Settings}
    (hopen : Machine.ofUnit unit bytes settings = .ok (some start)) (calls : List Call) :
    (∀ m ∈ ((ofMachine start).after calls).machines,
      m.WellFormed start.header bytes settings.fileLimit) ∧
    ∀ answer ∈ (ofMachine start).answers calls, ∀ row, answer.Gives row →
      row.opIndex.toNat < start.header.maximumOperations.toNat := by
  have hstart := Machine.fresh_of_ofUnit hopen
  obtain ⟨hheader, hbytes, hlimit, hbounded⟩ := Machine.wellFormed_of_ofUnit hopen
  have hp := hheader.parameters.maximumOperations_ne
  have hsettled : start.registers.Settled start.header.toLineParameters := by
    rw [← hstart.registers_eq]
    exact Row.settled_initial hp _
  have hlasting := hstart.onward_lasting.and
    (Machine.bounded_invariant.lasting.and (Machine.settled_lasting hp))
  obtain ⟨hs, hgiven⟩ := Holds.after hlasting
    (holds_ofMachine ⟨hstart.onward_shown, hbounded, rfl, hsettled⟩) calls
  refine ⟨fun m hmem => ?_, fun answer hanswer row hrow => (hgiven answer hanswer row hrow).2.2⟩
  obtain ⟨hm, hbounded, -, hsettled⟩ := hs.machines m hmem
  exact hlimit ▸ hstart.wellFormed hheader hbytes hm hbounded hsettled

/-- Whatever is asked of a machine and its copies, each of them stays well formed under a header
that does not change, and each row that is given is at an operation of the machine. Where an
instruction holds one operation, this is the first. -/
theorem always_wellFormed {unit : CompileUnit} {bytes : Array UInt8} {settings : Settings}
    (hopen : Machine.ofUnit unit bytes settings = .ok (some start)) (calls : List Call) :
    let s := (ofMachine start).after calls
    start.header.WellFormed unit.directory bytes.size ∧
    (∀ m ∈ s.machines, m.WellFormed start.header bytes settings.fileLimit) ∧
    (∀ answer ∈ (ofMachine start).answers calls, ∀ row, answer.Gives row →
      row.opIndex.toNat < start.header.maximumOperations.toNat) ∧
    (start.header.maximumOperations = 1 →
      (∀ m ∈ s.machines, m.registers.opIndex = 0) ∧
      ∀ answer ∈ (ofMachine start).answers calls, ∀ row, answer.Gives row → row.opIndex = 0) := by
  intro s
  obtain ⟨hmachines, hrows⟩ := wellFormed_after hopen calls
  have hfirst (index : UInt64) (hone : start.header.maximumOperations = 1)
      (h : index.toNat < start.header.maximumOperations.toNat) : index = 0 := by
    rw [hone] at h
    exact UInt64.toNat_inj.mp (Nat.lt_one_iff.mp h)
  refine ⟨(Machine.wellFormed_of_ofUnit hopen).1, hmachines, hrows,
    fun hone => ⟨fun m hmem => ?_, fun answer hanswer row hrow => ?_⟩⟩
  · exact hfirst _ hone (hmachines m hmem).registers.opIndex_lt
  · exact hfirst _ hone (hrows answer hanswer row hrow)

/-- A program that moves by operations, three to an instruction, defines a file and breaks off. -/
def bundled : Assembly :=
  [.advancePc 2, .copy, .defineFile "b" 0 0 0, .fixedAdvancePc 9, .special 61, .endSequence,
    .raw [2, 0x80]].foldl Assembly.emit
    { Assembly.empty with maximumOperations := 3, files := [("a", 0)] }

def twoFiles : Settings := { Settings.unset with maxFileEntries := some 2 }

/-- The copy is put at a position that the machine saved behind its file, where the copy has come
upon none. The machine then runs into the end of its program. -/
theorem always_wellFormed_bundled :
    ∃ start, Machine.ofUnit (bundled.unit 0) bundled.encode.toArray twoFiles =
        .ok (some start) ∧
      let calls : List Call := [.clone 0, .perform 0 .nextRow, .perform 0 .nextRow,
        .perform 0 .checkpoint, .perform 1 (.restore 0), .perform 1 .nextRow, .perform 0 (.rows 3)]
      ((ofMachine start).after calls).machines.length = 2 ∧
      (∀ m ∈ ((ofMachine start).after calls).machines,
        m.WellFormed start.header bundled.encode.toArray (some 2)) ∧
      ∀ answer ∈ (ofMachine start).answers calls, ∀ row, answer.Gives row →
        row.opIndex.toNat < 3 := by
  obtain ⟨start, hopen, hthree, hcopies⟩ : ∃ start,
      Machine.ofUnit (bundled.unit 0) bundled.encode.toArray twoFiles = .ok (some start) ∧
      start.header.maximumOperations = 3 ∧
      ((ofMachine start).after [.clone 0, .perform 0 .nextRow, .perform 0 .nextRow,
        .perform 0 .checkpoint, .perform 1 (.restore 0), .perform 1 .nextRow,
        .perform 0 (.rows 3)]).machines.length = 2 :=
    Machine.exists_of_opened (by decide +kernel)
  obtain ⟨-, hmachines, hrows, -⟩ := always_wellFormed hopen [.clone 0, .perform 0 .nextRow,
    .perform 0 .nextRow, .perform 0 .checkpoint, .perform 1 (.restore 0), .perform 1 .nextRow,
    .perform 0 (.rows 3)]
  rw [hthree] at hrows
  exact ⟨start, hopen, hcopies, hmachines, hrows⟩

end Clones
end DebugLine
