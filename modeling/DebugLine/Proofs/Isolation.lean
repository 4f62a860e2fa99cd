import DebugLine.Proofs.HeaderIsolation
import DebugLine.Proofs.Listing
import DebugLine.Proofs.Lockstep

/-!
# A unit is read apart from its neighbours

A machine that runs a unit among others goes along with a machine that runs the unit alone. Their
cursors see the same bytes, their registers and files are the same, and going back keeps it so. What
they answer differs only in the places that it names.
-/

namespace DebugLine

variable {α β : Type}

/-- The same position in a unit that lies `n` bytes further on. -/
def Position.shift (n : Nat) (p : Position) : Position := { p with offset := p.offset + n }

/-- The same answer about a unit that lies `n` bytes further on. -/
def Answer.shift (n : Nat) : Answer → Answer
  | row found => row (found.mapError (LineError.shift n))
  | items given => items (given.map (Option.map (Except.mapError (LineError.shift n))))
  | position saved => position (saved.shift n)
  | file entry => file entry
  | files entries => files entries
  | atEnd ended => atEnd ended
  | failure kept => failure (kept.map (LineError.shift n))
  | done => done

namespace Surroundings

open Machine

variable {s : Surroundings} {m m' : Machine}

/-- `m'` runs in the whole section as `m` does in the stretch alone. -/
structure HoldsMachine (s : Surroundings) (m m' : Machine) : Prop where
  decoder : s.HoldsDecoder m.toDecoder m'.toDecoder
  header_eq : m'.header = m.header.shift s.distance
  registers_eq : m'.registers = m.registers
  endOffset_le : m.header.endOffset ≤ s.stretch.length

theorem HoldsMachine.atEnd_eq (h : s.HoldsMachine m m') : m'.atEnd = m.atEnd :=
  h.decoder.cursor.isEmpty_eq

abbrev CarriesRun (s : Surroundings) (x x' : Run α) : Prop :=
  Simulates s.HoldsMachine (LineError.shift s.distance) id x x'

theorem ofDecode_carries {x x' : Decode α} (h : s.CarriesDecode id x x') :
    s.CarriesRun (Run.ofDecode x) (Run.ofDecode x') := by
  intro m m' hm
  have hdecode := h hm.decoder
  unfold Run.ofDecode
  generalize x m.toDecoder = o at hdecode
  generalize x' m'.toDecoder = o' at hdecode
  cases hdecode with
  | ok value_eq state =>
    exact .ok value_eq ⟨state, hm.header_eq, hm.registers_eq, hm.endOffset_le⟩
  | error error_eq state =>
    exact .error error_eq ⟨state, hm.header_eq, hm.registers_eq, hm.endOffset_le⟩

theorem execute_carries (instruction : Instruction) :
    s.CarriesRun (execute instruction) (execute instruction) := by
  intro m m' hm
  have hexecute : m'.registers.execute m'.header.toLineParameters instruction =
      m.registers.execute m.header.toLineParameters instruction := by
    rw [hm.header_eq, hm.registers_eq]
    rfl
  exact .ok (congrArg Prod.snd hexecute)
    ⟨hm.decoder, hm.header_eq, congrArg Prod.fst hexecute, hm.endOffset_le⟩

theorem runCheck_carries : s.CarriesRun (Cursor.check : Run Unit) Cursor.check :=
  ofDecode_carries (ofRead_carries check_carries)

theorem step_carries : s.CarriesRun step step := by
  refine runCheck_carries.bind fun _ => .get_bind fun m m' hm => ?_
  rw [hm.atEnd_eq, hm.header_eq]
  split_ifs
  · exact .pure rfl
  · exact (ofDecode_carries (decode_carries m.header)).bind execute_carries

namespace HoldsMachine

variable (h : s.HoldsMachine m m')
include h

theorem checkpoint_eq : m'.checkpoint = m.checkpoint.shift s.distance := by
  simp only [checkpoint, Position.shift, h.decoder.cursor.offset_eq, h.decoder.files_eq,
    h.registers_eq]

theorem restored (p : Position) :
    s.HoldsMachine (m.restored p) (m'.restored (p.shift s.distance)) where
  decoder :=
    { cursor := by
        have hseek := h.decoder.cursor.seek p.offset h.endOffset_le
        simpa only [Machine.restored, Position.shift, h.header_eq, Header.shift] using hseek
      files_eq := congrArg (·.setCount p.fileCount) h.decoder.files_eq }
  header_eq := h.header_eq
  registers_eq := rfl
  endOffset_le := h.endOffset_le

theorem rewound : s.HoldsMachine m.rewound m'.rewound where
  decoder :=
    { cursor := by
        have hseek := h.decoder.cursor.seek m.header.programOffset h.endOffset_le
        simpa only [Machine.rewound, h.header_eq, Header.shift] using hseek
      files_eq := by
        simp only [Machine.rewound, h.decoder.files_eq, h.header_eq, Header.shift] }
  header_eq := h.header_eq
  registers_eq := by simp only [Machine.rewound, h.header_eq, Header.shift]
  endOffset_le := h.endOffset_le

end HoldsMachine

/-- Both machines go back to their own places, and these lie as far apart as the machines do. -/
theorem lockstep : Lockstep s.HoldsMachine (LineError.shift s.distance) where
  failure_eq h := h.decoder.cursor.failure_eq
  remaining_eq h := h.decoder.cursor.remaining_eq
  step := step_carries
  restored h ht := by
    rw [h.checkpoint_eq]
    exact ht.restored _
  rewound h := h.rewound

/-- A stream of rows in the whole section as it is in the stretch alone. -/
structure HoldsStream (s : Surroundings) (t t' : RowStream) : Prop where
  machine : s.HoldsMachine t.machine t'.machine
  ended_eq : t'.ended = t.ended

theorem nextTimes_carries {t t' : RowStream} (h : s.HoldsStream t t') (times : Nat) :
    (RowStream.nextTimes times t').1 =
        (RowStream.nextTimes times t).1.map
          (Option.map (Except.mapError (LineError.shift s.distance))) ∧
      s.HoldsStream (RowStream.nextTimes times t).2 (RowStream.nextTimes times t').2 := by
  obtain ⟨hitems, hmachine, hended⟩ := lockstep.nextTimes h.machine h.ended_eq times
  exact ⟨hitems, hmachine, hended⟩

/-- The same session in the whole section as in the stretch alone. -/
structure HoldsSession (s : Surroundings) (t t' : Session) : Prop where
  machine : s.HoldsMachine t.machine t'.machine
  saved_eq : t'.saved = t.saved.map (Position.shift s.distance)

theorem drive_carries {t t' : Session} {run : Run (Option Row)} (h : s.HoldsSession t t')
    (hrun : s.CarriesRun run run) :
    (t'.drive run).1 = (t.drive run).1.shift s.distance ∧
      s.HoldsSession (t.drive run).2 (t'.drive run).2 :=
  ⟨congrArg Answer.row (hrun h.machine).answer_eq, (hrun h.machine).state, h.saved_eq⟩

theorem restore_carries {t t' : Session} (h : s.HoldsSession t t') (slot : Nat) :
    s.HoldsSession (t.restore slot) (t'.restore slot) := by
  unfold Session.restore
  rw [h.saved_eq, List.getElem?_map]
  cases t.saved[slot]? with
  | none => exact h
  | some position => exact ⟨h.machine.restored position, rfl⟩

theorem perform_carries {t t' : Session} (h : s.HoldsSession t t') (operation : Operation) :
    (t'.perform operation).1 = (t.perform operation).1.shift s.distance ∧
      s.HoldsSession (t.perform operation).2 (t'.perform operation).2 := by
  have hfiles : t'.machine.files = t.machine.files := h.machine.decoder.files_eq
  cases operation with
  | nextRow => exact drive_carries h lockstep.nextRow
  | step => exact drive_carries h step_carries
  | seekPc pc => exact drive_carries h (lockstep.seekPc pc)
  | rows times =>
    obtain ⟨hitems, hstream⟩ := @nextTimes_carries s ⟨t.machine, false⟩ ⟨t'.machine, false⟩
      ⟨h.machine, rfl⟩ times
    exact ⟨congrArg Answer.items hitems, hstream.machine, h.saved_eq⟩
  | checkpoint =>
    have hposition := h.machine.checkpoint_eq
    refine ⟨congrArg Answer.position hposition, h.machine, ?_⟩
    simp [Session.perform, h.saved_eq, hposition]
  | restore slot => exact ⟨rfl, restore_carries h slot⟩
  | reset => exact ⟨rfl, h.machine.rewound, h.saved_eq⟩
  | file index =>
    exact ⟨congrArg (fun files : FileTable => Answer.file (files.get? index)) hfiles, h⟩
  | rowFile row =>
    exact ⟨congrArg (fun files : FileTable => Answer.file (files.get? row.fileIndex)) hfiles, h⟩
  | files => exact ⟨congrArg (fun files : FileTable => Answer.files files.visible.toList) hfiles, h⟩
  | atEnd => exact ⟨congrArg Answer.atEnd h.machine.atEnd_eq, h⟩
  | failure => exact ⟨congrArg Answer.failure h.machine.decoder.cursor.failure_eq, h⟩

theorem answers_carries {t t' : Session} (h : s.HoldsSession t t') (operations : List Operation) :
    t'.answers operations = (t.answers operations).map (Answer.shift s.distance) := by
  induction operations generalizing t t' with
  | nil => rfl
  | cons operation rest ih =>
    obtain ⟨hanswer, hnext⟩ := perform_carries h operation
    exact congrArg₂ List.cons hanswer (ih hnext)

theorem opened_carries {unit : CompileUnit} {format : Format}
    (hunit : IsWholeUnit unit.byteOrder format s.stretch)
    (hfits : s.distance + s.stretch.length < UInt64.size - 1) (settings : Settings) :
    let alone := ofUnit { unit with stmtList := some 0 } s.stretch.toArray settings
    let among := ofUnit { unit with stmtList := some s.distance } s.whole.toArray settings
    (∃ e, alone = .error e ∧ among = .error (e.shift s.distance)) ∨
      ∃ start start', alone = .ok (some start) ∧ among = .ok (some start') ∧
        s.HoldsMachine start start' := by
  intro alone among
  by_cases hsize : unit.addressSize ∈ addressSizes
  · have hread := read_matching hunit hfits unit.addressSize (FileTable.empty settings.fileLimit)
      unit.directory settings.checksOpcodeLengths
    have hend := @read_endOffset s _ _ hunit hfits unit.addressSize
      (FileTable.empty settings.fileLimit) unit.directory settings.checksOpcodeLengths
    simp only [alone, among, ofUnit, decoderAt, CompileUnit.directory, if_pos hsize] at hread hend ⊢
    generalize Header.read _ _ ⟨Cursor.ofBytes s.stretch.toArray _ _ _, _⟩ = o at hread hend
    generalize Header.read _ _ ⟨Cursor.ofBytes s.whole.toArray _ _ _, _⟩ = o' at hread
    cases hread with
    | error error_eq state => exact .inl ⟨_, rfl, congrArg Except.error error_eq⟩
    | @ok header header' d d' value_eq state =>
      subst value_eq
      have hmachine : s.HoldsMachine ⟨d, header, Row.initial header.defaultIsStmt⟩
          ⟨d', header.shift s.distance, Row.initial header.defaultIsStmt⟩ :=
        ⟨state, rfl, rfl, (hend rfl).le⟩
      exact .inr ⟨_, _, rfl, rfl, hmachine.rewound⟩
  · simp only [alone, among, ofUnit, if_neg hsize]
    exact .inl ⟨_, rfl, rfl⟩

end Surroundings

namespace Session

open Machine (cutOff)

/-- A unit gives among others what it gives alone, only further on. The section is no longer than 64
bits can count. -/
theorem answers_among_neighbours {unit : CompileUnit} {format : Format}
    {front stretch back : List UInt8} (hunit : IsWholeUnit unit.byteOrder format stretch)
    (hfits : front.length + stretch.length < UInt64.size - 1) (settings : Settings) :
    let alone := Machine.ofUnit { unit with stmtList := some 0 } stretch.toArray settings
    let among := Machine.ofUnit { unit with stmtList := some front.length }
      (front ++ stretch ++ back).toArray settings
    (∃ e, alone = .error e ∧ among = .error (e.shift front.length)) ∨
      ∃ start start', alone = .ok (some start) ∧ among = .ok (some start') ∧
        start'.header = start.header.shift front.length ∧ start'.files = start.files ∧
        ∀ operations, (ofMachine start').answers operations =
          ((ofMachine start).answers operations).map (Answer.shift front.length) := by
  rcases (⟨front, stretch, back⟩ : Surroundings).opened_carries hunit hfits settings with
    hfailed | ⟨start, start', halone, hamong, hmachine⟩
  · exact .inl hfailed
  · have hsession : (⟨front, stretch, back⟩ : Surroundings).HoldsSession (ofMachine start)
        (ofMachine start') := ⟨hmachine, rfl⟩
    exact .inr ⟨start, start', halone, hamong, hmachine.header_eq, hmachine.decoder.files_eq,
      Surroundings.answers_carries hsession⟩

/-- The byte behind the unit would complete the operand that the end of the unit cuts off. -/
theorem answers_among_neighbours_cutOff :
    IsWholeUnit .little .dwarf32 cutOff.encode ∧ 3 + cutOff.encode.length < UInt64.size - 1 ∧
      ∃ start start', Machine.ofUnit ⟨some 0, none, 8, .little⟩ cutOff.encode.toArray .unset =
          .ok (some start) ∧
        Machine.ofUnit ⟨some 3, none, 8, .little⟩ ([1, 2, 3] ++ cutOff.encode ++ [0]).toArray
          .unset = .ok (some start') ∧
        start'.header.programOffset = start.header.programOffset + 3 ∧
        (ofMachine start').answers [.rows 9, .checkpoint, .files] =
          ((ofMachine start).answers [.rows 9, .checkpoint, .files]).map (Answer.shift 3) ∧
        (ofMachine start').answers [.seekPc 0x11, .failure] =
          [.row (.error (.unexpectedEnd 61 1 0)), .failure (some (.unexpectedEnd 61 1 0))] := by
  have hunit : IsWholeUnit .little .dwarf32 cutOff.encode := by
    rw [← List.take_append_drop 4 cutOff.encode]
    exact .dwarf32 (by decide +kernel) (by decide +kernel) (by decide +kernel)
  have hfits : 3 + cutOff.encode.length < UInt64.size - 1 := by decide +kernel
  obtain ⟨start, hopen, hanswers⟩ : ∃ start,
      Machine.ofUnit ⟨some 0, none, 8, .little⟩ cutOff.encode.toArray .unset = .ok (some start) ∧
      (ofMachine start).answers [.seekPc 0x11, .failure] =
        [.row (.error (.unexpectedEnd 58 1 0)), .failure (some (.unexpectedEnd 58 1 0))] :=
    Machine.exists_of_opened (by decide +kernel)
  rcases @answers_among_neighbours ⟨none, none, 8, .little⟩ .dwarf32 [1, 2, 3] cutOff.encode [0]
    hunit hfits .unset with ⟨e, hfailed, -⟩ | ⟨first, start', halone, hamong, hheader, -, hsame⟩
  · rw [hopen] at hfailed
    cases hfailed
  · rw [hopen] at halone
    cases halone
    refine ⟨hunit, hfits, start, start', hopen, hamong, congrArg Header.programOffset hheader,
      hsame _, ?_⟩
    rw [hsame, hanswers]
    rfl

end Session
end DebugLine
