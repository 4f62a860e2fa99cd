import DebugLine.Proofs.Alike

/-!
# The table of a program

The rows that a fresh machine gives one after another are the table of its program. A machine on
the trajectory has given the first of them, and gives the next one next, whether it stands right
behind a row or some instructions further on.
-/

namespace DebugLine

variable {start m m' : Machine} {row : Row}

namespace Machine

theorem remaining_nextRow_lt (h : nextRow m = .ok (some row) m') :
    m'.cursor.remaining < m.cursor.remaining := by
  induction m using nextRow_induction with
  | stuck m hm hend =>
    rw [nextRow_of_atEnd hm hend] at h
    cases h
  | emits m first t ht =>
    rw [nextRow_of_emits ht] at h
    cases h
    exact remaining_step_lt ht (atEnd_eq_false_of_step (failure_of_step_ok ht) (by simp [ht]))
  | fails m e t ht =>
    rw [nextRow_of_fails ht] at h
    cases h
  | silent m t hend ht ih =>
    rw [nextRow_of_silent ht] at h
    exact (ih h).trans (remaining_step_lt ht hend)

theorem atEnd_of_nextRow_none (h : nextRow m = .ok none m') :
    m'.failure = none ∧ m'.atEnd = true := by
  induction m using nextRow_induction with
  | stuck m hm hend =>
    rw [nextRow_of_atEnd hm hend] at h
    cases h
    exact ⟨hm, hend⟩
  | emits m first t ht =>
    rw [nextRow_of_emits ht] at h
    cases h
  | fails m e t ht =>
    rw [nextRow_of_fails ht] at h
    cases h
  | silent m t hend ht ih =>
    rw [nextRow_of_silent ht] at h
    exact ih h

end Machine

namespace RowStream

open Machine (nextRow)

theorem itemsWithin_ended (most : Nat) : itemsWithin most ⟨m, true⟩ = ([], ⟨m, true⟩) := by
  cases most <;> rfl

theorem itemsWithin_of_none (h : nextRow m = .ok none m') (most : Nat) :
    itemsWithin (most + 1) ⟨m, false⟩ = ([], ⟨m', true⟩) := by
  simp [itemsWithin, next, h]

theorem itemsWithin_of_error {e : LineError} (h : nextRow m = .error e m') (most : Nat) :
    itemsWithin (most + 1) ⟨m, false⟩ = ([.error e], ⟨m', true⟩) := by
  simp [itemsWithin, next, h, itemsWithin_ended]

theorem itemsWithin_of_row (h : nextRow m = .ok (some row) m') (most : Nat) :
    itemsWithin (most + 1) ⟨m, false⟩ =
      (.ok row :: (itemsWithin most ⟨m', false⟩).1, (itemsWithin most ⟨m', false⟩).2) := by
  simp [itemsWithin, next, h]

/-- Any two bounds above the number of unread bytes give the same items. -/
theorem itemsWithin_eq {a b : Nat} (ha : m.cursor.remaining < a) (hb : m.cursor.remaining < b) :
    itemsWithin a ⟨m, false⟩ = itemsWithin b ⟨m, false⟩ := by
  induction a generalizing b m with
  | zero => omega
  | succ a ih =>
    obtain ⟨b, rfl⟩ : ∃ k, b = k + 1 := ⟨b - 1, by omega⟩
    cases h : nextRow m with
    | error e t => rw [itemsWithin_of_error h, itemsWithin_of_error h]
    | ok found t =>
      cases found with
      | none => rw [itemsWithin_of_none h, itemsWithin_of_none h]
      | some row =>
        have hlt := Machine.remaining_nextRow_lt h
        rw [itemsWithin_of_row h, itemsWithin_of_row h, ih (b := b) (by omega) (by omega)]

end RowStream

namespace Machine

theorem rows_of_none (h : nextRow m = .ok none m') : m.rows = ([], m') := by
  simp only [rows, RowStream.items, RowStream.itemsWithin_of_none h]

theorem rows_of_error {e : LineError} (h : nextRow m = .error e m') :
    m.rows = ([.error e], m') := by
  simp only [rows, RowStream.items, RowStream.itemsWithin_of_error h]

theorem rows_of_row (h : nextRow m = .ok (some row) m') :
    m.rows = (.ok row :: m'.rows.1, m'.rows.2) := by
  have hlt := remaining_nextRow_lt h
  have hbound : RowStream.itemsWithin (m.cursor.remaining + 1) ⟨m', false⟩ =
      RowStream.items ⟨m', false⟩ :=
    RowStream.itemsWithin_eq (by omega) (by dsimp only; omega)
  simp only [rows, RowStream.items, RowStream.itemsWithin_of_row h, hbound]

/-- The rows that the machine gives before a failure or the end. -/
def table (m : Machine) : List Row := m.rows.1.filterMap Except.toOption

theorem table_of_none (h : nextRow m = .ok none m') : m.table = [] := by
  rw [table, rows_of_none h]
  rfl

theorem table_of_error {e : LineError} (h : nextRow m = .error e m') : m.table = [] := by
  rw [table, rows_of_error h]
  rfl

theorem table_of_row (h : nextRow m = .ok (some row) m') : m.table = row :: m'.table := by
  rw [table, rows_of_row h]
  rfl

theorem table_of_rows {rows : List Row} (h : m.rows.1 = rows.map .ok) : m.table = rows := by
  rw [table, h, List.filterMap_map]
  exact List.filterMap_some

/-- The machine after so many calls for the next row. -/
def afterRows (start : Machine) : Nat → Machine
  | 0 => start
  | j + 1 => (nextRow (start.afterRows j)).state

theorem afterRows_succ (j : Nat) : m.afterRows (j + 1) = (nextRow m).state.afterRows j := by
  induction j with
  | zero => rfl
  | succ j ih =>
    change (nextRow (m.afterRows (j + 1))).state = _
    rw [ih]
    rfl

theorem afterRows_of_stuck (h : (nextRow m).state = m) (j : Nat) : m.afterRows j = m := by
  induction j with
  | zero => rfl
  | succ j ih => rw [afterRows_succ, h, ih]

theorem nextRow_afterRows_of_none (h : nextRow m = .ok none m') (j : Nat) :
    nextRow (m'.afterRows j) = .ok none m' := by
  have hstuck : nextRow m' = .ok none m' :=
    nextRow_of_atEnd (atEnd_of_nextRow_none h).1 (atEnd_of_nextRow_none h).2
  rw [afterRows_of_stuck (by rw [hstuck]; rfl), hstuck]

theorem nextRow_afterRows_of_error {e : LineError} (h : nextRow m = .error e m') (j : Nat) :
    nextRow (m'.afterRows j) = .error e m' := by
  have hstuck : nextRow m' = .error e m' :=
    nextRow_of_failure (nextRow_disciplined.records.error h)
  rw [afterRows_of_stuck (by rw [hstuck]; rfl), hstuck]

theorem getElem?_table {j : Nat} :
    m.table[j]? = some row ↔ nextRow (m.afterRows j) = .ok (some row) (m.afterRows (j + 1)) := by
  induction j generalizing m with
  | zero =>
    change _ ↔ nextRow m = .ok (some row) (nextRow m).state
    cases h : nextRow m with
    | error e t => simp [table_of_error h]
    | ok found t =>
      cases found with
      | none => simp [table_of_none h]
      | some first => simp [table_of_row h]
  | succ j ih =>
    rw [afterRows_succ, afterRows_succ]
    cases h : nextRow m with
    | error e t => simp [table_of_error h, nextRow_afterRows_of_error h]
    | ok found t =>
      cases found with
      | none => simp [table_of_none h, nextRow_afterRows_of_none h]
      | some first =>
        rw [table_of_row h, List.getElem?_cons_succ]
        exact ih

theorem error_mem_rows {e : LineError} {j : Nat} (h : nextRow (m.afterRows j) = .error e m') :
    .error e ∈ m.rows.1 := by
  induction j generalizing m with
  | zero =>
    rw [rows_of_error (show nextRow m = .error e m' from h)]
    exact List.mem_singleton_self _
  | succ j ih =>
    rw [afterRows_succ] at h
    cases hm : nextRow m with
    | error first t =>
      rw [hm, EStateM.Result.state_error, nextRow_afterRows_of_error hm] at h
      cases h
      rw [rows_of_error hm]
      exact List.mem_singleton_self _
    | ok found t =>
      rw [hm, EStateM.Result.state_ok] at h
      cases found with
      | none =>
        rw [nextRow_afterRows_of_none hm] at h
        cases h
      | some first =>
        rw [rows_of_row hm]
        exact List.mem_cons_of_mem _ (ih h)

/-- The program is decoded to its end. -/
def ErrorFree (start : Machine) : Prop := ∀ e, .error e ∉ start.rows.1

theorem errorFree_of_rows {rows : List Row} (h : m.rows.1 = rows.map .ok) : m.ErrorFree := by
  intro e
  simp [h]

/-- `m` stands right behind the first `j` rows. -/
structure Behind (start m : Machine) (j : Nat) : Prop where
  standing : ∃ n reach, Standing start m n reach
  shown_eq : m.shown = start.afterRows j

/-- `m` stands where the first `j` rows have been given and the next one has not. -/
structure Awaiting (start m : Machine) (j : Nat) : Prop where
  standing : ∃ n reach, Standing start m n reach
  nextRow_eq : (nextRow m).mapState shown = nextRow (start.afterRows j)

variable {j : Nat}

theorem Behind.awaiting (h : Behind start m j) : Awaiting start m j where
  standing := h.standing
  nextRow_eq := by rw [← h.shown_eq, nextRow_disciplined.ignores]

theorem Behind.shown_eq_shown (h : Behind start m j) : m.shown = (start.afterRows j).shown := by
  rw [← h.shown_eq]
  rfl

/-- Every place of the trajectory lies between two rows, or before the first, or behind the last. -/
theorem exists_nextRow_afterSteps {n : Nat} (h : (start.afterSteps n).failure = none) :
    ∃ j ≤ start.table.length, nextRow (start.afterSteps n) = nextRow (start.afterRows j) := by
  induction n with
  | zero => exact ⟨0, Nat.zero_le _, rfl⟩
  | succ n ih =>
    obtain ⟨j, hj, heq⟩ := ih (sound_of_le (Nat.le_succ n) h)
    have hnext : start.afterSteps (n + 1) = (step (start.afterSteps n)).state := rfl
    cases hs : step (start.afterSteps n) with
    | error e t =>
      rw [hnext, hs] at h
      exact absurd ((step_disciplined.records.error hs).symm.trans h) (Option.some_ne_none e)
    | ok found t =>
      rw [hs, EStateM.Result.state_ok] at hnext
      cases found with
      | none => exact ⟨j, hj, by rw [hnext, ← nextRow_of_silent hs, heq]⟩
      | some row =>
        have hrow : nextRow (start.afterRows j) = .ok (some row) t :=
          heq.symm.trans (nextRow_of_emits hs)
        have hafter : start.afterRows (j + 1) = t := congrArg EStateM.Result.state hrow
        have hget : start.table[j]? = some row := getElem?_table.mpr (hafter ▸ hrow)
        exact ⟨j + 1, (List.getElem?_eq_some_iff.mp hget).1, by rw [hnext, hafter]⟩

theorem Standing.exists_awaiting {n reach : Nat} (h : Standing start m n reach) :
    ∃ j ≤ start.table.length, Awaiting start m j := by
  obtain ⟨j, hj, heq⟩ := exists_nextRow_afterSteps (sound_of_le h.le h.sound)
  exact ⟨j, hj, ⟨n, reach, h⟩, by rw [← heq, h.run_eq nextRow_disciplined]⟩

theorem Fresh.afterSteps_sound (hstart : Fresh start) (hrows : start.ErrorFree) (n : Nat) :
    (start.afterSteps n).failure = none := by
  induction n with
  | zero => exact hstart.sound
  | succ n ih =>
    obtain ⟨j, -, heq⟩ := exists_nextRow_afterSteps ih
    change (step (start.afterSteps n)).state.failure = none
    cases hs : step (start.afterSteps n) with
    | error e t => exact absurd (error_mem_rows (heq.symm.trans (nextRow_of_fails hs))) (hrows e)
    | ok found t => exact (step_disciplined.records.ok hs).trans ih

namespace Awaiting

variable (h : Awaiting start m j)
include h

theorem of_nextRow_ok (hrow : nextRow m = .ok (some row) m') :
    start.table[j]? = some row ∧ Behind start m' (j + 1) := by
  have hview := h.nextRow_eq
  rw [hrow] at hview
  have hafter : start.afterRows (j + 1) = m'.shown := congrArg EStateM.Result.state hview.symm
  obtain ⟨n, reach, hstanding⟩ := h.standing
  obtain ⟨n', reach', -, hnext⟩ := hstanding.nextRow_ok hrow
  exact ⟨getElem?_table.mpr (hafter ▸ hview.symm), ⟨n', reach', hnext⟩, hafter.symm⟩

theorem of_nextRow_none (hrow : nextRow m = .ok none m') :
    start.table.length ≤ j ∧ m'.atEnd = true := by
  have hview := h.nextRow_eq
  rw [hrow] at hview
  refine ⟨?_, (atEnd_of_nextRow_none hrow).2⟩
  by_contra hlt
  have hget := getElem?_table.mp (List.getElem?_eq_getElem (Nat.not_le.mp hlt))
  rw [← hview] at hget
  cases hget

theorem of_nextRow_error {e : LineError} (hrow : nextRow m = .error e m') :
    .error e ∈ start.rows.1 := by
  have hview := h.nextRow_eq
  rw [hrow] at hview
  exact error_mem_rows hview.symm

theorem nextRow_of_getElem? (hget : start.table[j]? = some row) :
    ∃ t, nextRow m = .ok (some row) t ∧ Behind start t (j + 1) := by
  have hview := h.nextRow_eq
  rw [getElem?_table.mp hget] at hview
  cases hrow : nextRow m with
  | error e t =>
    rw [hrow] at hview
    cases hview
  | ok found t =>
    rw [hrow, EStateM.Result.mapState, EStateM.Result.ok.injEq] at hview
    obtain ⟨rfl, -⟩ := hview
    exact ⟨t, rfl, (h.of_nextRow_ok hrow).2⟩

end Awaiting

/-- What a machine still gives is the rest of the table. -/
theorem Awaiting.table_eq (h : Awaiting start m j) : m.table = start.table.drop j := by
  induction hn : m.cursor.remaining using Nat.strong_induction_on generalizing m j with
  | _ n ih =>
    cases hget : start.table[j]? with
    | some row =>
      obtain ⟨t, hrow, ht⟩ := h.nextRow_of_getElem? hget
      obtain ⟨hlen, hrowEq⟩ := List.getElem?_eq_some_iff.mp hget
      rw [table_of_row hrow, List.drop_eq_getElem_cons hlen, hrowEq,
        ih _ (hn ▸ remaining_nextRow_lt hrow) ht.awaiting rfl]
    | none =>
      rw [List.drop_eq_nil_of_le (List.getElem?_eq_none_iff.mp hget)]
      cases hrow : nextRow m with
      | error e t => exact table_of_error hrow
      | ok found t =>
        cases found with
        | none => exact table_of_none hrow
        | some row => exact absurd ((h.of_nextRow_ok hrow).1.symm.trans hget) nofun

/-- A row can be taken back. -/
theorem Behind.restored (hstart : Fresh start) (h : Behind start m j)
    (hrow : nextRow m = .ok (some row) m') : Behind start (m'.restored m.checkpoint) j := by
  obtain ⟨n, reach, hstanding⟩ := h.standing
  obtain ⟨n', reach', hle, hnext⟩ := hstanding.nextRow_ok hrow
  have hback : Standing start (m'.restored m.checkpoint) n reach' := by
    rw [hstanding.checkpoint_eq]
    exact hnext.restored hstart (hstanding.le.trans hle)
  exact ⟨⟨n, reach', hback⟩, by rw [hback.shown_eq, ← hstanding.shown_eq, h.shown_eq]⟩

theorem Standing.behind_rewound {n reach : Nat} (hstart : Fresh start)
    (h : Standing start m n reach) : Behind start m.rewound 0 :=
  ⟨⟨0, reach, h.rewound hstart⟩, (h.rewound hstart).shown_eq⟩

end Machine
end DebugLine
