import DebugLine.Proofs.Replay
import DebugLine.Proofs.Table

/-!
# A file number keeps its meaning

Every place of the trajectory shows the files that its instructions have defined so far, and a step
that does not end it moves on. So of two places, the one at the greater offset shows the files of
the other and perhaps more. Wherever a machine has been in between, from the place behind a row on
it resolves the row to the file that it resolved to there.
-/

namespace DebugLine

namespace FileTable

variable {t t' : FileTable}

theorem get?_zero (t : FileTable) : t.get? 0 = none := if_pos rfl

theorem get?_of_isPrefix (h : t.visible.toList <+: t'.visible.toList) {index : UInt64}
    {entry : FileEntry} (hget : t.get? index = some entry) : t'.get? index = some entry := by
  unfold get? at hget ⊢
  by_cases hzero : index = 0
  · rw [if_pos hzero] at hget
    cases hget
  · rw [if_neg hzero, ← Array.getElem?_toList] at hget ⊢
    obtain ⟨added, hadded⟩ := h
    rw [← hadded, List.getElem?_append_left (List.getElem?_eq_some_iff.mp hget).1]
    exact hget

end FileTable

namespace Machine

variable {start m m' : Machine}

theorem step_eq_of_offset_le {row : Option Row} (h : step m = .ok row m')
    (hle : m'.cursor.offset ≤ m.cursor.offset) : m' = m := by
  have hsound := failure_of_step_ok h
  cases hend : m.atEnd with
  | true =>
    rw [step_of_atEnd hsound hend] at h
    cases h
    rfl
  | false =>
    have hmove := step_disciplined.moves m
    rw [h] at hmove
    have hlimit : m'.cursor.limit = m.cursor.limit := hmove.decoder.cursor.limit_eq
    have hlt := remaining_step_lt h hend
    unfold Cursor.remaining at hlt
    omega

theorem afterSteps_eq_of_offset_le {n k : Nat} (hn : n ≤ k)
    (hsound : (start.afterSteps k).failure = none)
    (hle : (start.afterSteps k).cursor.offset ≤ (start.afterSteps n).cursor.offset) :
    start.afterSteps k = start.afterSteps n := by
  induction k, hn using Nat.le_induction with
  | base => rfl
  | succ k hk ih =>
    have hmove : (start.afterSteps k).cursor.offset ≤ (start.afterSteps (k + 1)).cursor.offset :=
      (afterSteps_onward (Nat.le_succ k)).decoder.cursor.offset_le
    have hbefore := ih (sound_of_le (Nat.le_succ k) hsound) (hmove.trans hle)
    have hnext : start.afterSteps (k + 1) = (step (start.afterSteps k)).state := rfl
    cases hs : step (start.afterSteps k) with
    | error e t =>
      rw [hnext, hs] at hsound
      exact absurd ((step_disciplined.records.error hs).symm.trans hsound) (Option.some_ne_none e)
    | ok row t =>
      rw [hs, EStateM.Result.state_ok] at hnext
      rw [hnext, ← hbefore] at hle
      rw [hnext, step_eq_of_offset_le hs hle, hbefore]

theorem visible_isPrefix_of_offset_le {n k : Nat} (hn : (start.afterSteps n).failure = none)
    (hle : (start.afterSteps n).cursor.offset ≤ (start.afterSteps k).cursor.offset) :
    (start.afterSteps n).files.visible.toList <+: (start.afterSteps k).files.visible.toList := by
  rcases le_total n k with h | h
  · exact (afterSteps_onward h).decoder.files.visible_isPrefix
  · rw [afterSteps_eq_of_offset_le h hn hle]

theorem Fresh.exists_behind (hstart : Fresh start) {k : Nat} (hk : k ≤ start.table.length) :
    ∃ m, Behind start m k := by
  induction k with
  | zero => exact ⟨start, ⟨0, 0, .ofFresh hstart⟩, shown_of_hidden_eq_nil hstart.hidden_eq_nil⟩
  | succ k ih =>
    obtain ⟨m, hm⟩ := ih (Nat.le_of_succ_le hk)
    obtain ⟨t, -, ht⟩ := hm.awaiting.nextRow_of_getElem? (List.getElem?_eq_getElem hk)
    exact ⟨t, ht⟩

theorem Fresh.exists_afterSteps (hstart : Fresh start) {k : Nat} {row : Row} {behind : Machine}
    (hrow : nextRow (start.afterRows k) = .ok (some row) behind) :
    ∃ n, start.afterSteps n = behind ∧ (start.afterSteps n).failure = none := by
  have hbehind : start.afterRows (k + 1) = behind := congrArg EStateM.Result.state hrow
  have hget : start.table[k]? = some row := getElem?_table.mpr (hbehind ▸ hrow)
  obtain ⟨m, ⟨n, reach, hstanding⟩, hshown⟩ :=
    hstart.exists_behind (List.getElem?_eq_some_iff.mp hget).1
  rw [hbehind] at hshown
  exact ⟨n, hstanding.shown_eq.symm.trans hshown, sound_of_le hstanding.le hstanding.sound⟩

end Machine

namespace Session

open Machine (nextRow)

variable {start : Machine}

/-- A row that resolves to a file when it is given resolves to the same file for good, wherever the
machine stands at the end of its instruction or further on. The number zero never means a file. -/
theorem rowFile_stays {unit : CompileUnit} {bytes : Array UInt8} {settings : Settings}
    (hopen : Machine.ofUnit unit bytes settings = .ok (some start)) :
    (∀ m : Machine, m.file? 0 = none) ∧
    ∀ (k : Nat) (row : Row) (behind : Machine) (file : FileEntry),
      nextRow (start.afterRows k) = .ok (some row) behind →
      behind.rowFile? row = some file →
      ∀ operations,
        let m := ((ofMachine start).after operations).machine
        m.failure = none → behind.cursor.offset ≤ m.cursor.offset →
          m.rowFile? row = some file := by
  refine ⟨fun m => m.files.get?_zero, ?_⟩
  intro k row behind file hrow hfile operations m hsound hle
  have hstart := Machine.fresh_of_ofUnit hopen
  obtain ⟨i, rfl, hi⟩ := hstart.exists_afterSteps hrow
  obtain ⟨n, reach, -, hon⟩ := (((Alike.ofFresh hstart).run hstart operations).2).onTrack hsound
  have hoffset : m.cursor.offset = (start.afterSteps n).cursor.offset :=
    congrArg (·.cursor.offset) hon.standing.shown_eq
  -- What the table of `m` keeps out of sight may differ from the trajectory; no row shows it.
  have hprefix := Machine.visible_isPrefix_of_offset_le hi (hoffset ▸ hle)
  rw [← hon.standing.visible_eq] at hprefix
  exact FileTable.get?_of_isPrefix hprefix hfile

/-- The second row resolves to the file that is defined before it. The file is out of sight where
the machine starts over, and the row resolves to it again where a later position is restored. -/
theorem rowFile_stays_definingFiles :
    ∃ start row file, Machine.ofUnit (definingFiles.unit 0) definingFiles.encode.toArray .unset =
        .ok (some start) ∧
      nextRow (start.afterRows 1) = .ok (some row) (start.afterRows 2) ∧
      (start.afterRows 2).rowFile? row = some file ∧ file.path = "/work/b" ∧
      ((ofMachine start).after [.rows 9, .checkpoint, .reset]).machine.rowFile? row = none ∧
      ((ofMachine start).after [.rows 9, .checkpoint, .reset, .nextRow, .step, .seekPc 1,
        .restore 0]).machine.rowFile? row = some file := by
  obtain ⟨start, hopen, row, -, hget, file, -, hfile, hpath, hhidden, hsound, hle⟩ : ∃ start,
      Machine.ofUnit (definingFiles.unit 0) definingFiles.encode.toArray .unset =
        .ok (some start) ∧
      ∃ row ∈ start.table, start.table[1]? = some row ∧
      ∃ file ∈ (start.afterRows 2).files.visible.toList,
        (start.afterRows 2).rowFile? row = some file ∧ file.path = "/work/b" ∧
        ((ofMachine start).after [.rows 9, .checkpoint, .reset]).machine.rowFile? row = none ∧
        let last := ((ofMachine start).after [.rows 9, .checkpoint, .reset, .nextRow, .step,
          .seekPc 1, .restore 0]).machine
        last.failure = none ∧ (start.afterRows 2).cursor.offset ≤ last.cursor.offset :=
    Machine.exists_of_opened (by decide +kernel)
  have hrow := Machine.getElem?_table.mp hget
  exact ⟨start, row, file, hopen, hrow, hfile, hpath, hhidden,
    (rowFile_stays hopen).2 1 row _ file hrow hfile _ hsound hle⟩

end Session
end DebugLine
