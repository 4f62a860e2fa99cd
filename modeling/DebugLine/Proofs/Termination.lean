import DebugLine.Proofs.Lookup
import DebugLine.Proofs.WellFormed

/-!
# Every scan ends

The loops of the machine have no bound of their own: one runs up to the next row, one up to the row
behind an address, and a lookup may run both again from the start. Here they are relations, which
count the instructions that are decoded and hold only where the loop ends. Each instruction takes a
byte, so all of them end, where the bounded loops do and within the unread bytes. What is counted
are bytes and not addresses, so instructions that move no address change nothing.
-/

namespace DebugLine

namespace Machine

/-- The outcome of running for a row. -/
abbrev Outcome := EStateM.Result LineError Machine (Option Row)

variable {m m' t : Machine} {pc : UInt64} {held : Row} {j k : Nat} {o o' : Outcome}

/-- So many steps lead from one machine to another; none of them fails or is at the end. -/
inductive Steps : Nat → Machine → Machine → Prop
  | refl (m : Machine) : Steps 0 m m
  | step {k : Nat} {m m' t : Machine} {row : Option Row} (hend : m.atEnd = false)
      (hstep : step m = .ok row m') (rest : Steps k m' t) : Steps (k + 1) m t

/-- The loop for the next row ends like this, after it has decoded so many instructions. One that
cannot be decoded counts too. -/
inductive RowIn : Machine → Nat → Outcome → Prop
  | stopped {m : Machine} {e : LineError} (hfail : m.failure = some e) : RowIn m 0 (.error e m)
  | ended {m : Machine} (hsound : m.failure = none) (hend : m.atEnd = true) : RowIn m 0 (.ok none m)
  | fails {m t : Machine} {e : LineError} (hsound : m.failure = none) (hend : m.atEnd = false)
      (hstep : step m = .error e t) : RowIn m 1 (.error e t)
  | emits {m t : Machine} {row : Row} (hend : m.atEnd = false)
      (hstep : step m = .ok (some row) t) : RowIn m 1 (.ok (some row) t)
  | silent {m t : Machine} {k : Nat} {o : Outcome} (hend : m.atEnd = false)
      (hstep : step m = .ok none t) (rest : RowIn t k o) : RowIn m (k + 1) o

/-- The loop for the row behind `pc` ends like this, if it holds the row `held`. -/
inductive ScanIn (pc : UInt64) : Row → Machine → Nat → Outcome → Prop
  | failed {held : Row} {m t : Machine} {k : Nat} {e : LineError} (next : RowIn m k (.error e t)) :
      ScanIn pc held m k (.error e t)
  | ended {held : Row} {m t : Machine} {k : Nat} (next : RowIn m k (.ok none t)) :
      ScanIn pc held m k (.ok none t)
  /-- The row behind `pc` is taken back. -/
  | turned {held row : Row} {m t : Machine} {k : Nat} (next : RowIn m k (.ok (some row) t))
      (lt : pc < row.address) :
      ScanIn pc held m k
        (.ok (if held.endSequence then none else some held) (t.restored m.checkpoint))
  | passed {held row : Row} {m t : Machine} {j k : Nat} {o : Outcome}
      (next : RowIn m j (.ok (some row) t)) (le : row.address ≤ pc) (rest : ScanIn pc row t k o) :
      ScanIn pc held m (j + k) o

/-- The lookup of `pc` ends like this. It has not started over yet unless `again` is set. -/
inductive SeekIn (pc : UInt64) : (again : Bool) → Machine → Nat → Outcome → Prop
  | failed {again : Bool} {m t : Machine} {k : Nat} {e : LineError}
      (next : RowIn m k (.error e t)) : SeekIn pc again m k (.error e t)
  | ahead {again : Bool} {held : Row} {m t : Machine} {j k : Nat} {o : Outcome}
      (next : RowIn m j (.ok (some held) t)) (le : held.address ≤ pc)
      (scan : ScanIn pc held t k o) : SeekIn pc again m (j + k) o
  | startsOver {found : Option Row} {m t : Machine} {j k : Nat} {o : Outcome}
      (next : RowIn m j (.ok found t)) (lt : ∀ row, found = some row → pc < row.address)
      (rest : SeekIn pc true t.rewound k o) : SeekIn pc false m (j + k) o
  | before {found : Option Row} {m t : Machine} {k : Nat}
      (next : RowIn m k (.ok found t)) (lt : ∀ row, found = some row → pc < row.address) :
      SeekIn pc true m k (.ok none t.rewound)

theorem step_moves (hle : m.cursor.offset ≤ m.cursor.limit) (hend : m.atEnd = false) :
    (∃ e t, step m = .error e t) ∨
      ∃ row t, step m = .ok row t ∧ m.cursor.offset < t.cursor.offset ∧
        t.cursor.offset ≤ m.cursor.limit := by
  cases hs : step m with
  | error e t => exact .inl ⟨e, t, rfl⟩
  | ok row t =>
    have hmove := step_disciplined.moves m
    rw [hs] at hmove
    have hlimit : t.cursor.limit = m.cursor.limit := hmove.decoder.cursor.limit_eq
    have hinside : t.cursor.offset ≤ t.cursor.limit := hmove.decoder.cursor.offset_le_limit hle
    have hlt := remaining_step_lt hs hend
    simp only [Cursor.remaining, hlimit] at hlt
    exact .inr ⟨row, t, rfl, by omega, hlimit ▸ hinside⟩

theorem Steps.add_remaining_le (h : Steps k m t) : k + t.cursor.remaining ≤ m.cursor.remaining := by
  induction h with
  | refl m => exact (Nat.zero_add _).le
  | step hend hstep rest ih =>
    have hlt := remaining_step_lt hstep hend
    omega

theorem exists_steps (m : Machine) :
    ∃ k t, Steps k m t ∧ (t.atEnd = true ∨ ∃ e t', step t = .error e t') := by
  induction hn : m.cursor.remaining using Nat.strong_induction_on generalizing m with
  | _ n ih =>
    cases hend : m.atEnd with
    | true => exact ⟨0, m, .refl m, .inl hend⟩
    | false =>
      cases hs : step m with
      | error e t => exact ⟨0, m, .refl m, .inr ⟨e, t, hs⟩⟩
      | ok row m' =>
        obtain ⟨k, t, hsteps, hlast⟩ := ih _ (hn ▸ remaining_step_lt hs hend) m' rfl
        exact ⟨k + 1, t, .step hend hs hsteps, hlast⟩

/-- The bytes that are left behind an outcome, none behind a failure. -/
def Outcome.unread : Outcome → Nat
  | .ok _ t => t.cursor.remaining
  | .error _ _ => 0

theorem remaining_pos (hend : m.atEnd = false) : 0 < m.cursor.remaining := by
  simpa [atEnd, Cursor.isEmpty, Nat.pos_iff_ne_zero] using hend

namespace RowIn

theorem add_unread_le (h : RowIn m k o) : k + o.unread ≤ m.cursor.remaining := by
  induction h with
  | stopped => exact Nat.zero_le _
  | ended => exact (Nat.zero_add _).le
  | fails hsound hend hstep => exact remaining_pos hend
  | emits hend hstep => exact Nat.add_comm 1 _ ▸ remaining_step_lt hstep hend
  | silent hend hstep rest ih =>
    have hlt := remaining_step_lt hstep hend
    omega

theorem le_remaining (h : RowIn m k o) : k ≤ m.cursor.remaining :=
  (Nat.le_add_right _ _).trans h.add_unread_le

theorem unique (h : RowIn m j o) (h' : RowIn m k o') : j = k ∧ o = o' := by
  induction h generalizing k o' with
  | stopped hfail =>
    cases h' with
    | stopped | ended | fails => simp_all
    | emits hend hstep | silent hend hstep => simp_all [step_of_failure hfail]
  | ended hsound hend => cases h' <;> simp_all
  | fails hsound hend hstep => cases h' <;> simp_all
  | emits hend hstep =>
    have hsound := failure_of_step_ok hstep
    cases h' <;> simp_all
  | silent hend hstep rest ih =>
    have hsound := failure_of_step_ok hstep
    cases h' with
    | silent hend' hstep' rest' =>
      rw [hstep] at hstep'
      cases hstep'
      obtain ⟨rfl, rfl⟩ := ih rest'
      exact ⟨rfl, rfl⟩
    | stopped | ended | fails | emits => simp_all

end RowIn

theorem exists_rowIn (m : Machine) : ∃ k, RowIn m k (nextRow m) := by
  induction m using nextRow_induction with
  | stuck m hsound hend =>
    rw [nextRow_of_atEnd hsound hend]
    exact ⟨0, .ended hsound hend⟩
  | emits m row t h =>
    have hend := atEnd_eq_false_of_step (failure_of_step_ok h) (by simp [h])
    rw [nextRow_of_emits h]
    exact ⟨1, .emits hend h⟩
  | fails m e t h =>
    cases hfail : m.failure with
    | some first =>
      rw [nextRow_of_failure hfail]
      exact ⟨0, .stopped hfail⟩
    | none =>
      have hend := atEnd_eq_false_of_step hfail (by simp [h])
      rw [nextRow_of_fails h]
      exact ⟨1, .fails hfail hend h⟩
  | silent m t hend h ih =>
    obtain ⟨k, hk⟩ := ih
    rw [nextRow_of_silent h]
    exact ⟨k + 1, .silent hend h hk⟩

theorem rowIn_of_nextRow (h : nextRow m = o) : ∃ k, RowIn m k o := h ▸ exists_rowIn m

theorem RowIn.eq_nextRow (h : RowIn m k o) : o = nextRow m := by
  obtain ⟨j, hj⟩ := exists_rowIn m
  exact (h.unique hj).2

namespace ScanIn

theorem le_remaining (h : ScanIn pc held m k o) : k ≤ m.cursor.remaining := by
  induction h with
  | failed next | ended next | turned next => exact next.le_remaining
  | passed next le rest ih =>
    have hread := next.add_unread_le
    rw [Outcome.unread] at hread
    omega

theorem unique (h : ScanIn pc held m j o) (h' : ScanIn pc held m k o') : j = k ∧ o = o' := by
  induction h generalizing k o' with
  | failed next =>
    cases h' with
    | failed next' => exact next.unique next'
    | ended next' | turned next' | passed next' => cases (next.unique next').2
  | ended next =>
    cases h' with
    | ended next' => exact next.unique next'
    | failed next' | turned next' | passed next' => cases (next.unique next').2
  | turned next lt =>
    cases h' with
    | turned next' =>
      obtain ⟨rfl, heq⟩ := next.unique next'
      cases heq
      exact ⟨rfl, rfl⟩
    | passed next' le =>
      cases (next.unique next').2
      exact absurd lt (UInt64.not_lt.mpr le)
    | failed next' | ended next' => cases (next.unique next').2
  | passed next le rest ih =>
    cases h' with
    | passed next' le' rest' =>
      obtain ⟨rfl, heq⟩ := next.unique next'
      cases heq
      obtain ⟨rfl, rfl⟩ := ih rest'
      exact ⟨rfl, rfl⟩
    | turned next' lt =>
      cases (next.unique next').2
      exact absurd lt (UInt64.not_lt.mpr le)
    | failed next' | ended next' => cases (next.unique next').2

end ScanIn

theorem exists_scanIn_within {most : Nat} (hmost : m.cursor.remaining < most) (pc : UInt64)
    (held : Row) : ∃ k, ScanIn pc held m k (scanWithin pc most held m) := by
  induction most generalizing m held with
  | zero => omega
  | succ most ih =>
    rw [scanWithin_succ]
    cases hrow : nextRow m with
    | error e t =>
      obtain ⟨k, hk⟩ := rowIn_of_nextRow hrow
      rw [bind_of_error hrow]
      exact ⟨k, .failed hk⟩
    | ok found t =>
      obtain ⟨k, hk⟩ := rowIn_of_nextRow hrow
      rw [bind_of_ok hrow]
      cases found with
      | none => exact ⟨k, .ended hk⟩
      | some next =>
        dsimp only
        by_cases hpc : pc < next.address
        · rw [if_pos hpc]
          exact ⟨k, .turned hk hpc⟩
        · rw [if_neg hpc]
          have hlt := remaining_nextRow_lt hrow
          obtain ⟨rest, hrest⟩ := ih (m := t) (by omega) next
          exact ⟨k + rest, .passed hk (UInt64.not_lt.mp hpc) hrest⟩

theorem exists_scanIn (pc : UInt64) (held : Row) (m : Machine) :
    ∃ k, ScanIn pc held m k (scanFrom pc held m) :=
  exists_scanIn_within (Nat.lt_succ_self _) pc held

/-- A lookup that holds the next row ends, and so does one that does not if what it does instead
ends. -/
theorem exists_seekIn_of {again : Bool} {instead : Run (Option Row)}
    (h : ∀ {found t j}, RowIn m j (.ok found t) →
      (∀ row, found = some row → pc < row.address) → ∃ k, SeekIn pc again m k (instead t)) :
    ∃ k, SeekIn pc again m k ((nextRowUpTo pc >>= fun
      | some held => scanFrom pc held
      | none => instead) m) := by
  cases hrow : nextRow m with
  | error e t =>
    obtain ⟨k, hk⟩ := rowIn_of_nextRow hrow
    rw [bind_of_error (nextRowUpTo_of_error hrow)]
    exact ⟨k, .failed hk⟩
  | ok found t =>
    obtain ⟨k, hk⟩ := rowIn_of_nextRow hrow
    rcases found_le_or_lt pc found with ⟨held, rfl, hle⟩ | hlt
    · obtain ⟨rest, hrest⟩ := exists_scanIn pc held t
      rw [bind_of_ok (nextRowUpTo_of_le hrow hle)]
      exact ⟨k + rest, .ahead hk hle hrest⟩
    · rw [bind_of_ok (nextRowUpTo_of_lt hrow hlt)]
      exact h hk hlt

theorem exists_seekIn (pc : UInt64) (m : Machine) : ∃ k, SeekIn pc false m k (seekPc pc m) := by
  refine exists_seekIn_of fun {found t j} hk hlt => ?_
  obtain ⟨k, hrest⟩ : ∃ k, SeekIn pc true t.rewound k ((nextRowUpTo pc >>= fun
      | some held => scanFrom pc held
      | none => do
        modify rewound
        return none) t.rewound) :=
    exists_seekIn_of fun hk hlt => ⟨_, .before hk hlt⟩
  exact ⟨j + k, .startsOver hk hlt hrest⟩

theorem remaining_rewound_le (m : Machine) :
    m.rewound.cursor.remaining ≤ m.header.endOffset - m.header.programOffset := by
  simp only [rewound, Cursor.seek, Cursor.remaining]
  omega

namespace SeekIn

variable {again : Bool}

theorem le_remaining (h : SeekIn pc true m k o) : k ≤ m.cursor.remaining := by
  cases h with
  | failed next | before next => exact next.le_remaining
  | ahead next le scan =>
    have hread := next.add_unread_le
    have hscan := scan.le_remaining
    rw [Outcome.unread] at hread
    omega

/-- A lookup reads what is left of the program, and then all of it at most once. -/
theorem le_remaining_add (h : SeekIn pc false m k o) :
    k ≤ m.cursor.remaining + (m.header.endOffset - m.header.programOffset) := by
  cases h with
  | failed next => exact next.le_remaining.trans (Nat.le_add_right _ _)
  | ahead next le scan =>
    have hread := next.add_unread_le
    have hscan := scan.le_remaining
    rw [Outcome.unread] at hread
    omega
  | @startsOver found _ t j k _ next lt rest =>
    have hheader : t.header = m.header := by
      have hmove := nextRow_disciplined.moves m
      rw [← next.eq_nextRow] at hmove
      exact hmove.header_eq
    have hread := next.le_remaining
    have hrest := rest.le_remaining.trans t.remaining_rewound_le
    rw [hheader] at hrest
    exact add_le_add hread hrest

theorem unique (h : SeekIn pc again m j o) (h' : SeekIn pc again m k o') : j = k ∧ o = o' := by
  induction h generalizing k o' with
  | failed next =>
    cases h' with
    | failed next' => exact next.unique next'
    | ahead next' le scan | startsOver next' lt rest | before next' lt =>
      cases (next.unique next').2
  | ahead next le scan =>
    cases h' with
    | failed next' => cases (next.unique next').2
    | ahead next' le' scan' =>
      obtain ⟨rfl, heq⟩ := next.unique next'
      cases heq
      obtain ⟨rfl, rfl⟩ := scan.unique scan'
      exact ⟨rfl, rfl⟩
    | startsOver next' lt rest | before next' lt =>
      cases (next.unique next').2
      exact absurd (lt _ rfl) (UInt64.not_lt.mpr le)
  | startsOver next lt rest ih =>
    cases h' with
    | failed next' => cases (next.unique next').2
    | ahead next' le scan =>
      cases (next.unique next').2
      exact absurd (lt _ rfl) (UInt64.not_lt.mpr le)
    | startsOver next' lt' rest' =>
      obtain ⟨rfl, heq⟩ := next.unique next'
      cases heq
      obtain ⟨rfl, rfl⟩ := ih rest'
      exact ⟨rfl, rfl⟩
  | before next lt =>
    cases h' with
    | failed next' => cases (next.unique next').2
    | ahead next' le scan =>
      cases (next.unique next').2
      exact absurd (lt _ rfl) (UInt64.not_lt.mpr le)
    | before next' lt' =>
      obtain ⟨rfl, heq⟩ := next.unique next'
      cases heq
      exact ⟨rfl, rfl⟩

end SeekIn

end Machine

theorem Machine.exists_rows_eq (m : Machine) :
    ∃ (rows : List Row) (failure : Option LineError), rows.length ≤ m.cursor.remaining ∧
      m.rows.1 = rows.map .ok ++ failure.toList.map .error := by
  induction hn : m.cursor.remaining using Nat.strong_induction_on generalizing m with
  | _ n ih =>
    cases hrow : nextRow m with
    | error e t => exact ⟨[], some e, Nat.zero_le _, by rw [rows_of_error hrow]; rfl⟩
    | ok found t =>
      cases found with
      | none => exact ⟨[], none, Nat.zero_le _, by rw [rows_of_none hrow]; rfl⟩
      | some row =>
        have hlt := hn ▸ remaining_nextRow_lt hrow
        obtain ⟨rows, failure, hlength, hrows⟩ := ih _ hlt t rfl
        refine ⟨row :: rows, failure, Nat.succ_le_of_lt (hlength.trans_lt hlt), ?_⟩
        rw [rows_of_row hrow, hrows]
        rfl

namespace RowStream

open Machine (nextRow rows_of_row rows_of_none rows_of_error)

theorem nextTimes_succ (times : Nat) (s : RowStream) :
    (nextTimes (times + 1) s).1 = s.next.1 :: (nextTimes times s.next.2).1 := rfl

/-- A stream gives the rows of its machine and the failure behind them, and then nothing. -/
theorem nextTimes_eq_rows (times : Nat) (m : Machine) :
    (nextTimes times ⟨m, false⟩).1 = (List.range times).map (m.rows.1[·]?) := by
  induction times generalizing m with
  | zero => rfl
  | succ times ih =>
    have hended (t : Machine) : (nextTimes times ⟨t, true⟩).1 = List.replicate times none := by
      rw [nextTimes_ended rfl]
    rw [nextTimes_succ, List.range_succ_eq_map, List.map_cons, List.map_map]
    cases hrow : nextRow m with
    | error e t =>
      rw [next_of_error (s := ⟨m, false⟩) rfl hrow, rows_of_error hrow, hended]
      simp [Function.comp_def]
    | ok found t =>
      rw [next_of_row (s := ⟨m, false⟩) rfl hrow]
      cases found with
      | none =>
        rw [rows_of_none hrow, Option.isNone_none, hended]
        simp [Function.comp_def]
      | some row =>
        rw [rows_of_row hrow, Option.isNone_some, ih]
        rfl

end RowStream

namespace Clones

open Machine (step nextRow seekPc Steps RowIn SeekIn)

/-- Wherever a machine or a copy of it has been put, with `r` bytes to its end in a program of `n`
bytes: a step fails or moves on, so that there are at most `r` of them; the loop for the next row
ends after at most `r` instructions, and so a stream gives at most `r` rows and one failure; and a
lookup ends after at most `r + n` instructions. -/
theorem scans_end {unit : CompileUnit} {bytes : Array UInt8} {settings : Settings}
    {start : Machine} (hopen : Machine.ofUnit unit bytes settings = .ok (some start))
    (calls : List Call) : ∀ m ∈ ((ofMachine start).after calls).machines,
    let r := m.header.endOffset - m.cursor.offset
    let n := m.header.endOffset - m.header.programOffset
    (m.atEnd = false → (∃ e t, step m = .error e t) ∨
      ∃ row t, step m = .ok row t ∧ m.cursor.offset < t.cursor.offset ∧
        t.cursor.offset ≤ m.header.endOffset) ∧
    (∀ k t, Steps k m t → k ≤ r) ∧
    (∃ k t, Steps k m t ∧ (t.atEnd = true ∨ ∃ e t', step t = .error e t')) ∧
    (∃ k ≤ r, ∀ j o, RowIn m j o ↔ j = k ∧ o = nextRow m) ∧
    (∃ (rows : List Row) (failure : Option LineError), rows.length ≤ r ∧
      m.rows.1 = rows.map .ok ++ failure.toList.map .error ∧
      ∀ times, (RowStream.nextTimes times ⟨m, false⟩).1 =
        (List.range times).map (m.rows.1[·]?)) ∧
    ∀ pc, ∃ k ≤ r + n, ∀ j o, SeekIn pc false m j o ↔ j = k ∧ o = seekPc pc m := by
  intro m hmem r n
  have hm := (wellFormed_after hopen calls).1 m hmem
  have hlimit : m.cursor.limit = m.header.endOffset := hm.limit_eq.trans (hm.header_eq ▸ rfl)
  have hremaining : m.cursor.remaining = r := by rw [Cursor.remaining, hlimit]
  have hinside : m.cursor.offset ≤ m.cursor.limit := hm.limit_eq ▸ hm.offset_le
  refine ⟨hlimit ▸ m.step_moves hinside, fun k t h => ?_, m.exists_steps, ?_, ?_, fun pc => ?_⟩
  · exact (Nat.le_add_right _ _).trans (hremaining ▸ h.add_remaining_le)
  · obtain ⟨k, hk⟩ := m.exists_rowIn
    refine ⟨k, hremaining ▸ hk.le_remaining, fun j o => ⟨fun h => h.unique hk, ?_⟩⟩
    rintro ⟨rfl, rfl⟩
    exact hk
  · obtain ⟨rows, failure, hlength, hrows⟩ := m.exists_rows_eq
    exact ⟨rows, failure, hremaining ▸ hlength, hrows,
      fun times => RowStream.nextTimes_eq_rows times m⟩
  · obtain ⟨k, hk⟩ := m.exists_seekIn pc
    refine ⟨k, hremaining ▸ hk.le_remaining_add, fun j o => ⟨fun h => h.unique hk, ?_⟩⟩
    rintro ⟨rfl, rfl⟩
    exact hk

/-- A program whose addresses never move, with an extended opcode of no length at its end. -/
def motionless : Assembly :=
  [.copy, .advancePc 0, .special 19, .special 33, .raw [0, 0, 1]].foldl Assembly.emit
    { Assembly.empty with minimumInstructionLength := 0 }

/-- The program has eight bytes. The machine stands behind its first row, and its copy has failed
at the end. -/
theorem scans_end_motionless :
    ∃ start, Machine.ofUnit (motionless.unit 0) motionless.encode.toArray .unset =
        .ok (some start) ∧
      let s := (ofMachine start).after [.perform 0 .nextRow, .clone 0, .perform 1 (.rows 9)]
      s.machines.length = 2 ∧ s.machines.map Machine.failure =
        [none, some (.extendedOpcodeOverrun 35 1 0 1)] ∧
      ∀ m ∈ s.machines, (∃ k ≤ 7, RowIn m k (nextRow m)) ∧
        ∀ pc, ∃ k ≤ 15, SeekIn pc false m k (seekPc pc m) := by
  obtain ⟨start, hopen, hlength, hfailures, hunread⟩ : ∃ start,
      Machine.ofUnit (motionless.unit 0) motionless.encode.toArray .unset = .ok (some start) ∧
      let s := (ofMachine start).after [.perform 0 .nextRow, .clone 0, .perform 1 (.rows 9)]
      s.machines.length = 2 ∧ s.machines.map Machine.failure =
        [none, some (.extendedOpcodeOverrun 35 1 0 1)] ∧
      ∀ m ∈ s.machines, m.header.endOffset - m.cursor.offset ≤ 7 ∧
        m.header.endOffset - m.header.programOffset = 8 :=
    Machine.exists_of_opened (by decide +kernel)
  refine ⟨start, hopen, hlength, hfailures, fun m hmem => ?_⟩
  obtain ⟨hrest, hprogram⟩ := hunread m hmem
  obtain ⟨-, -, -, ⟨k, hk, hrow⟩, -, hseek⟩ :=
    scans_end hopen [.perform 0 .nextRow, .clone 0, .perform 1 (.rows 9)] m hmem
  refine ⟨⟨k, hk.trans hrest, (hrow _ _).mpr ⟨rfl, rfl⟩⟩, fun pc => ?_⟩
  obtain ⟨k, hk, hseek⟩ := hseek pc
  exact ⟨k, by omega, (hseek _ _).mpr ⟨rfl, rfl⟩⟩

end Clones
end DebugLine
