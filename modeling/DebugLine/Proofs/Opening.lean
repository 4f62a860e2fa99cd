import DebugLine.Proofs.HeaderReading
import DebugLine.Proofs.Trajectory

/-!
# A machine that has been opened is fresh

Reading a header fills an empty table, so nothing is hidden in it, and counts the files that it
found. The machine is then put at the start of its program.
-/

namespace DebugLine

theorem FileTable.truncate_count (t : FileTable) : t.truncate t.count = t := by
  obtain ⟨visible, hidden, limit⟩ := t
  simp [truncate, setCount, stored, count]

namespace Machine

theorem ofUnit_of_read {unit : CompileUnit} {bytes : Array UInt8} {settings : Settings}
    {offset : Nat} {header : Header} {d : Decoder} (hoffset : unit.stmtList = some offset)
    (hsize : unit.addressSize ∈ addressSizes)
    (hread : Header.read unit.directory settings.checksOpcodeLengths
      (decoderAt unit bytes settings offset) = .ok header d) :
    ofUnit unit bytes settings =
      .ok (some (rewound ⟨d, header, Row.initial header.defaultIsStmt⟩)) := by
  unfold ofUnit
  rw [hoffset]
  dsimp only
  rw [if_pos hsize, hread]

theorem of_ofUnit {unit : CompileUnit} {bytes : Array UInt8} {settings : Settings}
    {start : Machine} (h : ofUnit unit bytes settings = .ok (some start)) :
    ∃ offset header d, Header.read unit.directory settings.checksOpcodeLengths
        (decoderAt unit bytes settings offset) = .ok header d ∧
      start = rewound ⟨d, header, Row.initial header.defaultIsStmt⟩ := by
  unfold ofUnit at h
  split at h
  · simp at h
  · split_ifs at h
    split at h
    · simp at h
    · next hread =>
      cases h
      exact ⟨_, _, _, hread, rfl⟩

/-- Where `P` can be decided, so can the premise: by opening the unit. -/
theorem exists_of_opened {unit : CompileUnit} {bytes : Array UInt8} {settings : Settings}
    {P : Machine → Prop} (h : ∃ start ∈ (ofUnit unit bytes settings).toOption.join, P start) :
    ∃ start, ofUnit unit bytes settings = .ok (some start) ∧ P start := by
  obtain ⟨start, hstart, hP⟩ := h
  cases hopen : ofUnit unit bytes settings with
  | error e =>
    rw [hopen] at hstart
    cases hstart
  | ok opened =>
    rw [hopen] at hstart
    exact ⟨start, congrArg Except.ok hstart, hP⟩

theorem fresh_of_ofUnit {unit : CompileUnit} {bytes : Array UInt8} {settings : Settings}
    {start : Machine} (h : ofUnit unit bytes settings = .ok (some start)) : Fresh start := by
  obtain ⟨offset, header, d, hread, rfl⟩ := of_ofUnit h
  have hsound : d.cursor.failure = none := (Header.read_records _ _).ok hread
  have hhidden : d.files.hidden = [] :=
    (Header.bytes_and_files_of_read hread).2.hidden_eq_nil rfl
  have hcount : header.initialFileCount = d.files.count := (Header.wellFormed_of_read hread).2
  have htruncate : d.files.truncate header.initialFileCount = d.files := by
    rw [hcount, FileTable.truncate_count]
  unfold rewound
  simp only [htruncate]
  refine ⟨?_, hhidden, hcount, hsound⟩
  unfold rewound
  simp only [htruncate, Cursor.seek]

end Machine
end DebugLine
