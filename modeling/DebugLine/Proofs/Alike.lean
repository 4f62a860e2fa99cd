import DebugLine.Machine.Lookup
import DebugLine.Proofs.Trajectory

/-!
# Machines at one place of the trajectory

Two machines that stand at one place may store different files, but nothing that they do tells them
apart. They give the same rows, and where they fail they have nothing hidden left to differ in.
-/

namespace DebugLine

namespace Machine

variable {start m m' : Machine} {r r' : Nat} {α β : Type}

/-- Two machines at one place, which have come `r` and `r'` steps far at least, or one machine that
keeps the failure of the program. -/
inductive Alike (start : Machine) (r r' : Nat) (m m' : Machine) : Prop
  | standing {n reach reach' : Nat} (left : Standing start m n reach)
      (right : Standing start m' n reach') (le : r ≤ reach) (le' : r' ≤ reach')
  | stopped {k : Nat} (eq : m = m') (failed : m.failure ≠ none)
      (known : (start.afterSteps k).failure = m.failure)

theorem Alike.mono {k k' : Nat} (h : Alike start r r' m m') (hk : k ≤ r) (hk' : k' ≤ r') :
    Alike start k k' m m' := by
  cases h with
  | standing left right le le' => exact .standing left right (hk.trans le) (hk'.trans le')
  | stopped eq failed known => exact .stopped eq failed known

/-- Equal answers, with machines behind them that stay alike. -/
def AlikeOutcome (start : Machine) (r r' : Nat) (o o' : EStateM.Result LineError Machine α) :
    Prop :=
  o.answer = o'.answer ∧ Alike start r r' o.state o'.state

theorem AlikeOutcome.mono {k k' : Nat} {o o' : EStateM.Result LineError Machine α}
    (h : AlikeOutcome start r r' o o') (hk : k ≤ r) (hk' : k' ≤ r') :
    AlikeOutcome start k k' o o' :=
  ⟨h.1, h.2.mono hk hk'⟩

theorem AlikeOutcome.of_ok {a : α} {t : Machine} {o : EStateM.Result LineError Machine α}
    (h : AlikeOutcome start r r' (.ok a t) o) : ∃ t', o = .ok a t' ∧ Alike start r r' t t' := by
  obtain ⟨hanswer, hstate⟩ := h
  cases o with
  | ok b t' => cases hanswer; exact ⟨t', rfl, hstate⟩
  | error e t' => cases hanswer

theorem AlikeOutcome.of_error {e : LineError} {t : Machine}
    {o : EStateM.Result LineError Machine α} (h : AlikeOutcome start r r' (.error e t) o) :
    ∃ t', o = .error e t' ∧ Alike start r r' t t' := by
  obtain ⟨hanswer, hstate⟩ := h
  cases o with
  | ok b t' => cases hanswer
  | error first t' => cases hanswer; exact ⟨t', rfl, hstate⟩

theorem AlikeOutcome.bind {x : Run α} {f f' : α → Run β}
    (hx : AlikeOutcome start r r' (x m) (x m'))
    (hf : ∀ a t t', Alike start r r' t t' → AlikeOutcome start r r' (f a t) (f' a t')) :
    AlikeOutcome start r r' ((x >>= f) m) ((x >>= f') m') := by
  cases h : x m with
  | ok a t =>
    rw [h] at hx
    obtain ⟨t', h', ht⟩ := hx.of_ok
    rw [bind_of_ok h, bind_of_ok h']
    exact hf a t t' ht
  | error e t =>
    rw [h] at hx
    obtain ⟨t', h', ht⟩ := hx.of_error
    rw [bind_of_error h, bind_of_error h']
    exact ⟨rfl, ht⟩

theorem Alike.step (h : Alike start r r' m m') :
    AlikeOutcome start r r' (step m) (step m') := by
  cases h with
  | @standing n _ _ left right le le' =>
    have hleft := left.run_eq step_disciplined
    have hright := right.run_eq step_disciplined
    have hview := hleft.symm.trans hright
    cases hs : Machine.step m with
    | ok row t =>
      cases hs' : Machine.step m' with
      | error e t' => simp [hs, hs', EStateM.Result.mapState] at hview
      | ok row' t' =>
        simp only [hs, hs', EStateM.Result.mapState, EStateM.Result.ok.injEq] at hview
        exact ⟨congrArg Except.ok hview.1, .standing (left.step_ok hs) (right.step_ok hs')
          (le.trans (le_max_left _ _)) (le'.trans (le_max_left _ _))⟩
    | error e t =>
      cases hs' : Machine.step m' with
      | ok row' t' => simp [hs, hs', EStateM.Result.mapState] at hview
      | error e' t' =>
        simp only [hs, hs', EStateM.Result.mapState, EStateM.Result.error.injEq] at hview
        have ht := shown_of_hidden_eq_nil (left.step_fails hs)
        have ht' := shown_of_hidden_eq_nil (right.step_fails hs')
        have hfail : t.failure ≠ none := by
          rw [step_disciplined.records.error hs]
          exact Option.some_ne_none e
        have hknown : (start.afterSteps (n + 1)).failure = t.failure := by
          rw [hs] at hleft
          change (Machine.step (start.afterSteps n)).state.failure = _
          rw [hleft]
          rfl
        exact ⟨congrArg Except.error hview.1,
          .stopped (ht.symm.trans (hview.2.trans ht')) hfail hknown⟩
  | stopped eq failed known =>
    subst eq
    obtain ⟨e, he⟩ := Option.ne_none_iff_exists'.mp failed
    rw [step_of_failure he]
    exact ⟨rfl, .stopped rfl failed known⟩

theorem Alike.nextRow (h : Alike start r r' m m') :
    AlikeOutcome start r r' (nextRow m) (nextRow m') := by
  induction m using nextRow_induction generalizing m' with
  | stuck m hm hend =>
    cases h with
    | standing left right le le' =>
      have hend' : m'.atEnd = true := by
        have hcursor := congrArg atEnd (left.shown_eq.trans right.shown_eq.symm)
        exact hcursor.symm.trans hend
      rw [nextRow_of_atEnd hm hend, nextRow_of_atEnd right.failure_eq hend']
      exact ⟨rfl, .standing left right le le'⟩
    | stopped eq failed known => exact absurd hm failed
  | emits m row t ht =>
    have hstep := h.step
    rw [ht] at hstep
    obtain ⟨t', ht', halike⟩ := hstep.of_ok
    rw [nextRow_of_emits ht, nextRow_of_emits ht']
    exact ⟨rfl, halike⟩
  | fails m e t ht =>
    have hstep := h.step
    rw [ht] at hstep
    obtain ⟨t', ht', halike⟩ := hstep.of_error
    rw [nextRow_of_fails ht, nextRow_of_fails ht']
    exact ⟨rfl, halike⟩
  | silent m t hend ht ih =>
    have hstep := h.step
    rw [ht] at hstep
    obtain ⟨t', ht', halike⟩ := hstep.of_ok
    rw [nextRow_of_silent ht, nextRow_of_silent ht']
    exact ih halike

theorem Alike.standing_of_sound (h : Alike start r r' m m) (hm : m.failure = none) :
    ∃ n reach, r ≤ reach ∧ Standing start m n reach := by
  cases h with
  | @standing n reach reach' left right le le' => exact ⟨n, reach, le, left⟩
  | stopped eq failed known => exact absurd hm failed

theorem Standing.alike {n reach : Nat} (h : Standing start m n reach) :
    Alike start reach reach m m :=
  .standing h h le_rfl le_rfl

theorem Standing.nextRow_ok {n reach : Nat} {row : Option Row} (h : Standing start m n reach)
    (hrow : Machine.nextRow m = .ok row m') :
    ∃ n' reach', reach ≤ reach' ∧ Standing start m' n' reach' := by
  have hnext := h.alike.nextRow
  rw [hrow] at hnext
  exact hnext.2.standing_of_sound ((nextRow_disciplined.records.ok hrow).trans h.failure_eq)

/-- A position that the trajectory has within its first `reach` steps. -/
def Passed (start : Machine) (reach : Nat) (p : Position) : Prop :=
  ∃ k ≤ reach, p = (start.afterSteps k).checkpoint

theorem Passed.mono {reach reach' : Nat} {p : Position} (h : Passed start reach p)
    (hle : reach ≤ reach') : Passed start reach' p := by
  obtain ⟨k, hk, hp⟩ := h
  exact ⟨k, hk.trans hle, hp⟩

theorem Standing.checkpoint_eq {n reach : Nat} (h : Standing start m n reach) :
    m.checkpoint = (start.afterSteps n).checkpoint := by
  rw [← h.shown_eq]
  rfl

theorem Alike.restored (hstart : Fresh start) (h : Alike start r r' m m') {p : Position}
    (hp : Passed start (min r r') p) : Alike start r r' (m.restored p) (m'.restored p) := by
  obtain ⟨k, hk, rfl⟩ := hp
  rw [le_min_iff] at hk
  cases h with
  | standing left right le le' =>
    exact .standing (left.restored hstart (hk.1.trans le)) (right.restored hstart (hk.2.trans le'))
      le le'
  | stopped eq failed known =>
    subst eq
    exact .stopped rfl failed known

theorem Alike.rewound (hstart : Fresh start) (h : Alike start r r' m m') :
    Alike start r r' m.rewound m'.rewound := by
  cases h with
  | standing left right le le' =>
    exact .standing (left.rewound hstart) (right.rewound hstart) le le'
  | stopped eq failed known =>
    subst eq
    exact .stopped rfl failed known

theorem Alike.shown_eq (h : Alike start r r' m m') : m.shown = m'.shown := by
  cases h with
  | standing left right le le' => exact left.shown_eq.trans right.shown_eq.symm
  | stopped eq failed known => rw [eq]

theorem Alike.remaining_eq (h : Alike start r r' m m') :
    m.cursor.remaining = m'.cursor.remaining :=
  congrArg (·.cursor.remaining) h.shown_eq

theorem Alike.nextRowUpTo (h : Alike start r r' m m') (pc : UInt64) :
    AlikeOutcome start r r' (nextRowUpTo pc m) (nextRowUpTo pc m') :=
  h.nextRow.bind fun _ _ _ ht => ⟨rfl, ht⟩

theorem scanWithin_succ (pc : UInt64) (most : Nat) (held : Row) (m : Machine) :
    scanWithin pc (most + 1) held m =
      (Machine.nextRow >>= fun
        | none => pure none
        | some next =>
          if pc < next.address then do
            modify fun u => u.restored m.checkpoint
            return if held.endSequence then none else some held
          else scanWithin pc most next) m := rfl

theorem Alike.scanWithin (hstart : Fresh start) (h : Alike start r r' m m') (pc : UInt64)
    (most : Nat) (held : Row) :
    AlikeOutcome start r r' (scanWithin pc most held m) (scanWithin pc most held m') := by
  induction most generalizing m m' r r' held with
  | zero => exact ⟨rfl, h⟩
  | succ most ih =>
    rw [scanWithin_succ, scanWithin_succ]
    cases h with
    | stopped eq failed known =>
      subst eq
      obtain ⟨e, he⟩ := Option.ne_none_iff_exists'.mp failed
      rw [bind_of_error (nextRow_of_failure he)]
      exact ⟨rfl, .stopped rfl failed known⟩
    | @standing n reach reach' left right le le' =>
      have hnow : Alike start reach reach' m m' := .standing left right le_rfl le_rfl
      refine AlikeOutcome.mono (hnow.nextRow.bind fun row t t' ht => ?_) le le'
      cases row with
      | none => exact ⟨rfl, ht⟩
      | some next =>
        dsimp only
        by_cases hpc : pc < next.address
        · rw [if_pos hpc, if_pos hpc, left.checkpoint_eq, right.checkpoint_eq]
          exact ⟨rfl, ht.restored hstart ⟨n, le_min left.le right.le, rfl⟩⟩
        · rw [if_neg hpc, if_neg hpc]
          exact ih ht next

theorem Alike.scanFrom (hstart : Fresh start) (h : Alike start r r' m m') (pc : UInt64)
    (held : Row) : AlikeOutcome start r r' (scanFrom pc held m) (scanFrom pc held m') := by
  change AlikeOutcome start r r' (Machine.scanWithin pc (m.cursor.remaining + 1) held m)
    (Machine.scanWithin pc (m'.cursor.remaining + 1) held m')
  rw [h.remaining_eq]
  exact h.scanWithin hstart pc _ held

theorem Alike.seekPc (hstart : Fresh start) (h : Alike start r r' m m') (pc : UInt64) :
    AlikeOutcome start r r' (seekPc pc m) (seekPc pc m') := by
  apply (h.nextRowUpTo pc).bind
  intro held t t' ht
  cases held with
  | some held => exact ht.scanFrom hstart pc held
  | none =>
    refine AlikeOutcome.bind (x := modify Machine.rewound) ⟨rfl, ht.rewound hstart⟩
      fun _ u u' hu => (hu.nextRowUpTo pc).bind fun held v v' hv => ?_
    cases held with
    | some held => exact hv.scanFrom hstart pc held
    | none => exact ⟨rfl, hv.rewound hstart⟩

end Machine

namespace RowStream

variable {start : Machine} {r r' : Nat} {s s' : RowStream}

theorem next_alike (h : Machine.Alike start r r' s.machine s'.machine)
    (hended : s.ended = s'.ended) :
    s.next.1 = s'.next.1 ∧ s.next.2.ended = s'.next.2.ended ∧
      Machine.Alike start r r' s.next.2.machine s'.next.2.machine := by
  unfold next
  rw [← hended]
  split_ifs
  · exact ⟨rfl, hended, h⟩
  · have hrow := h.nextRow
    cases hm : Machine.nextRow s.machine with
    | ok row t =>
      rw [hm] at hrow
      obtain ⟨t', hm', ht⟩ := hrow.of_ok
      rw [hm']
      cases row <;> exact ⟨rfl, rfl, ht⟩
    | error e t =>
      rw [hm] at hrow
      obtain ⟨t', hm', ht⟩ := hrow.of_error
      rw [hm']
      exact ⟨rfl, rfl, ht⟩

end RowStream
end DebugLine
