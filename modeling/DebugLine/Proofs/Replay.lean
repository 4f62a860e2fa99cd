import DebugLine.Assembly
import DebugLine.Proofs.Alike
import DebugLine.Proofs.Opening
import DebugLine.Proofs.Session

/-!
# Going back to a position replays exactly

Sessions on alike machines with the same saved positions give the same answers, as long as both
machines have passed every saved position. A machine that went on and was put back has passed all
that it had passed before, so it answers as if it had never left.
-/

namespace DebugLine

namespace Machine

theorem seekPc_of_failure {m : Machine} {e : LineError} (h : m.failure = some e) (pc : UInt64) :
    seekPc pc m = .error e m := by
  apply bind_of_error
  exact bind_of_error (nextRow_of_failure h)

end Machine

namespace RowStream

variable {start : Machine} {r r' : Nat} {s s' : RowStream}

theorem nextTimes_alike (h : Machine.Alike start r r' s.machine s'.machine)
    (hended : s.ended = s'.ended) (times : Nat) :
    (nextTimes times s).1 = (nextTimes times s').1 ∧
      Machine.Alike start r r' (nextTimes times s).2.machine (nextTimes times s').2.machine := by
  induction times generalizing s s' with
  | zero => exact ⟨rfl, h⟩
  | succ times ih =>
    obtain ⟨hitem, hended', hnext⟩ := next_alike h hended
    obtain ⟨hitems, hlast⟩ := ih hnext hended'
    exact ⟨congrArg₂ List.cons hitem hitems, hlast⟩

theorem machine_next_of_failure {e : LineError} (h : s.machine.failure = some e) :
    s.next.2.machine = s.machine := by
  unfold next
  split_ifs
  · rfl
  · rw [Machine.nextRow_of_failure h]

theorem machine_nextTimes_of_failure {e : LineError} (h : s.machine.failure = some e)
    (times : Nat) : (nextTimes times s).2.machine = s.machine := by
  induction times generalizing s with
  | zero => rfl
  | succ times ih =>
    have hnext := machine_next_of_failure h
    have hfail : s.next.2.machine.failure = some e := by
      rw [hnext]
      exact h
    exact (ih hfail).trans hnext

end RowStream

namespace Session

open Machine (Fresh Standing Passed)

variable {start : Machine} {r r' : Nat} {s t : Session}

theorem failure_perform {e : LineError} (h : s.machine.failure = some e) (operation : Operation) :
    (s.perform operation).2.machine.failure = some e := by
  cases operation with
  | nextRow =>
    change (Machine.nextRow s.machine).state.failure = _
    rw [Machine.nextRow_of_failure h]
    exact h
  | step =>
    change (Machine.step s.machine).state.failure = _
    rw [Machine.step_of_failure h]
    exact h
  | seekPc pc =>
    change (Machine.seekPc pc s.machine).state.failure = _
    rw [Machine.seekPc_of_failure h]
    exact h
  | rows times =>
    change (RowStream.nextTimes times ⟨s.machine, false⟩).2.machine.failure = _
    rw [RowStream.machine_nextTimes_of_failure h]
    exact h
  | restore slot =>
    change (s.restore slot).machine.failure = _
    unfold restore
    cases s.saved[slot]? <;> exact h
  | checkpoint | reset | file | rowFile | files | atEnd | failure => exact h

theorem failure_after {e : LineError} (h : s.machine.failure = some e)
    (operations : List Operation) : (s.after operations).machine.failure = some e := by
  induction operations generalizing s with
  | nil => exact h
  | cons operation rest ih => exact ih (failure_perform h operation)

/-- Two sessions that no operation tells apart: the machines are alike and have both passed every
saved position, or the sessions are one and keep the failure of the program. -/
inductive Alike (start : Machine) (r r' : Nat) (s t : Session) : Prop
  | running {k k' : Nat} (machines : Machine.Alike start k k' s.machine t.machine)
      (le : r ≤ k) (le' : r' ≤ k') (saved : s.saved = t.saved)
      (passed : ∀ p ∈ s.saved, Passed start (min k k') p)
  | stopped {k : Nat} (eq : s = t) (failed : s.machine.failure ≠ none)
      (known : (start.afterSteps k).failure = s.machine.failure)

theorem Alike.drive {run : Run (Option Row)} {k k' : Nat} (le : r ≤ k) (le' : r' ≤ k')
    (saved : s.saved = t.saved) (passed : ∀ p ∈ s.saved, Passed start (min k k') p)
    (h : Machine.AlikeOutcome start k k' (run s.machine) (run t.machine)) :
    (s.drive run).1 = (t.drive run).1 ∧ Alike start r r' (s.drive run).2 (t.drive run).2 :=
  ⟨congrArg Answer.row h.1, .running h.2 le le' saved passed⟩

theorem Alike.perform (hstart : Fresh start) (h : Alike start r r' s t) (operation : Operation) :
    (s.perform operation).1 = (t.perform operation).1 ∧
      Alike start r r' (s.perform operation).2 (t.perform operation).2 := by
  cases h with
  | stopped eq failed known =>
    subst eq
    obtain ⟨e, he⟩ := Option.ne_none_iff_exists'.mp failed
    have hfail := failure_perform he operation
    rw [he] at known
    refine ⟨rfl, .stopped rfl ?_ (known.trans hfail.symm)⟩
    rw [hfail]
    exact Option.some_ne_none e
  | @running k k' machines le le' saved passed =>
    have hshown := machines.shown_eq
    cases operation with
    | nextRow => exact Alike.drive le le' saved passed machines.nextRow
    | step => exact Alike.drive le le' saved passed machines.step
    | seekPc pc => exact Alike.drive le le' saved passed (machines.seekPc hstart pc)
    | rows times =>
      obtain ⟨hitems, hmachine⟩ :=
        @RowStream.nextTimes_alike start k k' ⟨s.machine, false⟩ ⟨t.machine, false⟩ machines rfl
          times
      exact ⟨congrArg Answer.items hitems, .running hmachine le le' saved passed⟩
    | checkpoint =>
      cases machines with
      | stopped eq failed known =>
        have hst : s = t := by
          cases s
          cases t
          exact congr (congrArg Session.mk eq) saved
        subst hst
        exact ⟨rfl, .stopped rfl failed known⟩
      | @standing n reach reach' left right hk hk' =>
        have hposition := left.checkpoint_eq.trans right.checkpoint_eq.symm
        have hanswer : Answer.position s.machine.checkpoint = .position t.machine.checkpoint :=
          congrArg Answer.position hposition
        refine ⟨hanswer, .running (.standing left right le_rfl le_rfl) (le.trans hk) (le'.trans hk')
          ?_ ?_⟩
        · change s.saved ++ [s.machine.checkpoint] = t.saved ++ [t.machine.checkpoint]
          rw [saved, hposition]
        · intro p hp
          rcases List.mem_append.mp hp with hp | hp
          · exact (passed p hp).mono (min_le_min hk hk')
          · rw [List.mem_singleton.mp hp]
            exact ⟨n, le_min left.le right.le, left.checkpoint_eq⟩
    | restore slot =>
      refine ⟨rfl, ?_⟩
      change Alike start r r' (s.restore slot) (t.restore slot)
      unfold restore
      rw [← saved]
      cases hp : s.saved[slot]? with
      | none =>
        dsimp only
        exact .running machines le le' saved passed
      | some p =>
        have hpassed := passed p (List.mem_of_getElem? hp)
        dsimp only
        exact .running (machines.restored hstart hpassed) le le' rfl passed
    | reset => exact ⟨rfl, .running (machines.rewound hstart) le le' saved passed⟩
    | file index =>
      have hanswer := congrArg (fun m : Machine => Answer.file (m.file? index)) hshown
      exact ⟨hanswer, .running machines le le' saved passed⟩
    | rowFile row =>
      have hanswer := congrArg (fun m : Machine => Answer.file (m.rowFile? row)) hshown
      exact ⟨hanswer, .running machines le le' saved passed⟩
    | files =>
      have hanswer := congrArg (fun m : Machine => Answer.files m.files.visible.toList) hshown
      exact ⟨hanswer, .running machines le le' saved passed⟩
    | atEnd =>
      have hanswer := congrArg (fun m : Machine => Answer.atEnd m.atEnd) hshown
      exact ⟨hanswer, .running machines le le' saved passed⟩
    | failure =>
      have hanswer := congrArg (fun m : Machine => Answer.failure m.failure) hshown
      exact ⟨hanswer, .running machines le le' saved passed⟩

theorem Alike.run (hstart : Fresh start) (h : Alike start r r' s t)
    (operations : List Operation) :
    s.answers operations = t.answers operations ∧
      Alike start r r' (s.after operations) (t.after operations) := by
  induction operations generalizing s t with
  | nil => exact ⟨rfl, h⟩
  | cons operation rest ih =>
    obtain ⟨hanswer, hnext⟩ := h.perform hstart operation
    obtain ⟨hanswers, hlast⟩ := ih hnext
    exact ⟨congrArg₂ List.cons hanswer hanswers, hlast⟩

theorem Alike.ofFresh (hstart : Fresh start) :
    Alike start 0 0 (ofMachine start) (ofMachine start) :=
  .running (Standing.ofFresh hstart).alike le_rfl le_rfl rfl (by simp [ofMachine])

/-- A session without a failure stands on the trajectory and has passed what it saved. -/
structure OnTrack (start : Machine) (s : Session) (n reach : Nat) : Prop where
  standing : Standing start s.machine n reach
  passed : ∀ p ∈ s.saved, Passed start reach p

theorem Alike.onTrack (h : Alike start r r' s s) (hsound : s.machine.failure = none) :
    ∃ n reach, r ≤ reach ∧ OnTrack start s n reach := by
  cases h with
  | stopped eq failed known => exact absurd hsound failed
  | running machines le le' saved passed =>
    obtain ⟨n, reach, hk, hstanding⟩ := machines.standing_of_sound hsound
    exact ⟨n, reach, le.trans hk, hstanding, fun p hp =>
      (passed p hp).mono ((min_le_left _ _).trans hk)⟩

theorem OnTrack.alike {n reach : Nat} (h : OnTrack start s n reach) : Alike start reach reach s s :=
  .running h.standing.alike le_rfl le_rfl rfl ((min_self reach).symm ▸ h.passed)

/-- A position that a session on the trajectory saved can be gone back to from anywhere later. -/
theorem OnTrack.restored_alike (hstart : Fresh start) {n n' reach reach' : Nat}
    (hs : OnTrack start s n reach) (ht : OnTrack start t n' reach') (hle : reach ≤ reach') :
    Alike start reach' reach
      { s with machine := t.machine.restored s.machine.checkpoint } s := by
  have hback : Standing start (t.machine.restored s.machine.checkpoint) n reach' := by
    rw [hs.standing.checkpoint_eq]
    exact ht.standing.restored hstart (hs.standing.le.trans hle)
  refine .running (.standing hback hs.standing le_rfl le_rfl) le_rfl le_rfl rfl ?_
  rw [min_eq_right hle]
  exact hs.passed

/-- Whatever is done between, a machine put back to a saved position answers as its clone does that
was left there. -/
theorem answers_restored {unit : CompileUnit} {bytes : Array UInt8} {settings : Settings}
    (hopen : Machine.ofUnit unit bytes settings = .ok (some start))
    (before between further : List Operation)
    (hsound : ((((ofMachine start).after before).perform .checkpoint).2.after
      between).machine.failure = none) :
    let left := (ofMachine start).after before
    let clone := (left.perform .checkpoint).2
    let moved := clone.after between
    ({ clone with machine := moved.machine.restored left.machine.checkpoint } : Session).answers
        further = clone.answers further := by
  intro left clone moved
  have hstart := Machine.fresh_of_ofUnit hopen
  have hleft := ((Alike.ofFresh hstart).run hstart before).2
  have hclone := (hleft.perform hstart .checkpoint).2
  have hcloneSound : clone.machine.failure = none := by
    cases hfail : clone.machine.failure with
    | none => rfl
    | some e => exact absurd (hsound.symm.trans (failure_after hfail between)) nofun
  obtain ⟨n, reach, -, hon⟩ := hclone.onTrack hcloneSound
  obtain ⟨n', reach', hle, hon'⟩ := (hon.alike.run hstart between).2.onTrack hsound
  exact ((hon.restored_alike hstart hon' hle).run hstart further).1

/-- A program that defines files before and behind its second row. -/
def definingFiles : Assembly :=
  [.copy, .defineFile "b" 0 0 0, .setFile 2, .special 33, .defineFile "c" 0 0 0, .setFile 3,
    .special 33, .endSequence].foldl Assembly.emit { Assembly.empty with files := [("a", 0)] }

/-- The position lies ahead of the machine, and one file is hidden behind it. -/
theorem answers_restored_definingFiles :
    ∃ start, Machine.ofUnit (definingFiles.unit 0) definingFiles.encode.toArray .unset =
        .ok (some start) ∧
      let left := (ofMachine start).after [.nextRow, .nextRow]
      let clone := (left.perform .checkpoint).2
      let moved := clone.after [.rows 9, .checkpoint, .reset, .seekPc 1, .restore 1, .reset]
      moved.machine.failure = none ∧
        ({ clone with machine := moved.machine.restored left.machine.checkpoint } : Session).answers
            [.restore 0, .files, .rows 2, .files, .checkpoint, .seekPc 0, .restore 1] =
          clone.answers
            [.restore 0, .files, .rows 2, .files, .checkpoint, .seekPc 0, .restore 1] := by
  obtain ⟨start, hopen, hsound⟩ : ∃ start,
      Machine.ofUnit (definingFiles.unit 0) definingFiles.encode.toArray .unset =
        .ok (some start) ∧
      ((((ofMachine start).after [.nextRow, .nextRow]).perform .checkpoint).2.after
        [.rows 9, .checkpoint, .reset, .seekPc 1, .restore 1, .reset]).machine.failure = none :=
    Machine.exists_of_opened (by decide +kernel)
  exact ⟨start, hopen, hsound, answers_restored hopen _ _ _ hsound⟩

end Session
end DebugLine
