import DebugLine.Proofs.Opening
import DebugLine.Proofs.Replay

/-!
# The first failure is the last

Running for a row fails exactly with the failure that the machine then keeps. So as long as nothing
fails nothing is kept, and the first failure is what every later run ends in. Where the saved
positions come from plays no role.
-/

namespace DebugLine

namespace Machine

theorem modify_restored_records (p : Position) :
    Records failure (modify fun m => m.restored p : Run PUnit) :=
  .modify fun _ => rfl

theorem modify_rewound_records : Records failure (modify rewound : Run PUnit) :=
  .modify fun _ => rfl

theorem scanWithin_records (pc : UInt64) (most : Nat) (held : Row) :
    Records failure (scanWithin pc most held) := by
  induction most generalizing held with
  | zero => exact .pure none
  | succ most ih =>
    refine Records.get.bind fun m => nextRow_disciplined.records.bind fun row => ?_
    cases row with
    | none => exact .pure none
    | some next =>
      dsimp only
      split_ifs
      · exact (modify_restored_records _).bind fun _ => .pure none
      · exact (modify_restored_records _).bind fun _ => .pure (some held)
      · exact ih next

theorem nextRowUpTo_records (pc : UInt64) : Records failure (nextRowUpTo pc) :=
  nextRow_disciplined.records.bind fun _ => .pure _

theorem scanFrom_records (pc : UInt64) (held : Row) : Records failure (scanFrom pc held) :=
  Records.get.bind fun _ => scanWithin_records pc _ held

theorem seekPc_records (pc : UInt64) : Records failure (seekPc pc) := by
  refine (nextRowUpTo_records pc).bind fun held => ?_
  cases held with
  | some held => exact scanFrom_records pc held
  | none =>
    refine modify_rewound_records.bind fun _ => (nextRowUpTo_records pc).bind fun held => ?_
    cases held with
    | some held => exact scanFrom_records pc held
    | none => exact modify_rewound_records.bind fun _ => .pure none

/-- A run that records its failure, and that a kept failure stops at once, fails exactly with the
failure that is kept behind it. -/
theorem answer_eq_error_iff {α : Type} {run : Run α} {m : Machine} {e : LineError}
    (hrun : Records failure run)
    (hstop : ∀ {m : Machine} {e}, m.failure = some e → run m = .error e m) :
    (run m).answer = .error e ↔ (run m).state.failure = some e := by
  cases hm : m.failure with
  | some first =>
    rw [hstop hm]
    simp [EStateM.Result.answer, hm]
  | none =>
    cases h : run m with
    | ok row t => simp [EStateM.Result.answer, hrun.ok h, hm]
    | error first t => simp [EStateM.Result.answer, hrun.error h]

end Machine

namespace RowStream

variable {s : RowStream} {e : LineError} {times : Nat}

theorem next_ended (h : s.ended = true) : s.next = (none, s) := if_pos h

theorem nextTimes_ended (h : s.ended = true) (times : Nat) :
    nextTimes times s = (List.replicate times none, s) := by
  induction times with
  | zero => rfl
  | succ times ih => simp [nextTimes, next_ended h, ih, List.replicate_succ]

theorem next_of_row {row : Option Row} {m : Machine} (hended : s.ended = false)
    (h : Machine.nextRow s.machine = .ok row m) : s.next = (row.map .ok, ⟨m, row.isNone⟩) := by
  cases row <;> simp [next, hended, h]

theorem next_of_error {m : Machine} (hended : s.ended = false)
    (h : Machine.nextRow s.machine = .error e m) : s.next = (some (.error e), ⟨m, true⟩) := by
  simp [next, hended, h]

theorem nextTimes_of_failure (hended : s.ended = false) (h : s.machine.failure = some e)
    (times : Nat) :
    nextTimes (times + 1) s =
      (some (.error e) :: List.replicate times none, ⟨s.machine, true⟩) := by
  simp [nextTimes, next_of_error hended (Machine.nextRow_of_failure h), nextTimes_ended]

theorem failure_nextTimes (hsound : s.machine.failure = none) :
    (nextTimes times s).2.machine.failure = some e ↔ some (.error e) ∈ (nextTimes times s).1 := by
  induction times generalizing s with
  | zero => simp [nextTimes, hsound]
  | succ times ih =>
    cases hended : s.ended with
    | true => simp [nextTimes_ended hended, hsound, List.mem_replicate]
    | false =>
      cases h : Machine.nextRow s.machine with
      | ok row m =>
        have hm : m.failure = none := (Machine.nextRow_disciplined.records.ok h).trans hsound
        have hrest := @ih ⟨m, row.isNone⟩ hm
        cases row <;> simpa [nextTimes, next_of_row hended h] using hrest
      | error first m =>
        have hm : m.failure = some first := Machine.nextRow_disciplined.records.error h
        simp [nextTimes, next_of_error hended h, nextTimes_ended, hm, List.mem_replicate, eq_comm]

theorem error_notMem_replicate (e : LineError) (n : Nat) :
    some (.error e) ∉ List.replicate n (none : Option (Except LineError Row)) := by
  simp [List.mem_replicate]

theorem eq_none_of_mem_behind {front back : List (Option (Except LineError Row))}
    (h : (nextTimes times s).1 = front ++ some (.error e) :: back) :
    ∀ item ∈ back, item = none := by
  induction times generalizing s front with
  | zero => simp [nextTimes] at h
  | succ times ih =>
    cases hended : s.ended with
    | true =>
      rw [nextTimes_ended hended] at h
      exact absurd (by simp [show List.replicate _ none = _ from h])
        (error_notMem_replicate e (times + 1))
    | false =>
      cases hrow : Machine.nextRow s.machine with
      | ok row m =>
        cases front with
        | nil => cases row <;> simp [nextTimes, next_of_row hended hrow] at h
        | cons first front =>
          simp only [nextTimes, next_of_row hended hrow, List.cons_append, List.cons.injEq] at h
          exact ih h.2
      | error first m =>
        simp only [nextTimes, next_of_error hended hrow, nextTimes_ended] at h
        cases front with
        | nil =>
          simp only [List.nil_append, List.cons.injEq] at h
          intro item hitem
          rw [← h.2] at hitem
          exact List.eq_of_mem_replicate hitem
        | cons other front =>
          simp only [List.cons_append, List.cons.injEq] at h
          exact absurd (by simp [h.2]) (error_notMem_replicate e times)

end RowStream

/-- The operations that run the machine up to a row. -/
def Operation.drives : Operation → Bool
  | .nextRow | .step | .seekPc _ => true
  | _ => false

namespace Answer

/-- The answer is a failure, or a stream's items with the failure among them. -/
inductive Reports : Answer → LineError → Prop
  | row {e : LineError} : Reports (.row (.error e)) e
  | item {e : LineError} {items : List (Option (Except LineError Row))}
      (mem : some (.error e) ∈ items) : Reports (.items items) e

/-- The answer is a row, or a stream's items with the row among them. -/
inductive Gives : Answer → Row → Prop
  | row {row : Row} : Gives (.row (.ok (some row))) row
  | item {row : Row} {items : List (Option (Except LineError Row))}
      (mem : some (.ok row) ∈ items) : Gives (.items items) row

variable {e : LineError} {row : Row} {found : Except LineError (Option Row)}
  {items : List (Option (Except LineError Row))}

@[simp] theorem reports_row_iff : (Answer.row found).Reports e ↔ found = .error e := by
  constructor
  · rintro ⟨⟩
    rfl
  · rintro rfl
    exact .row

@[simp] theorem reports_items_iff : (Answer.items items).Reports e ↔ some (.error e) ∈ items := by
  constructor
  · rintro ⟨⟩
    assumption
  · exact .item

@[simp] theorem gives_row_iff : (Answer.row found).Gives row ↔ found = .ok (some row) := by
  constructor
  · rintro ⟨⟩
    rfl
  · rintro rfl
    exact .row

@[simp] theorem gives_items_iff : (Answer.items items).Gives row ↔ some (.ok row) ∈ items := by
  constructor
  · rintro ⟨⟩
    assumption
  · exact .item

end Answer

namespace Session

variable {s : Session} {e : LineError}

/-- What drives the machine fails exactly with the failure that is kept behind it. -/
theorem perform_eq_error_iff {operation : Operation} (h : operation.drives = true) :
    (s.perform operation).1 = .row (.error e) ↔
      (s.perform operation).2.machine.failure = some e := by
  have hdrive {run : Run (Option Row)} (hrun : Records Machine.failure run)
      (hstop : ∀ {m : Machine} {e}, m.failure = some e → run m = .error e m) :
      (s.drive run).1 = .row (.error e) ↔ (s.drive run).2.machine.failure = some e := by
    rw [drive, Answer.row.injEq]
    exact Machine.answer_eq_error_iff hrun hstop
  cases operation with
  | nextRow => exact hdrive Machine.nextRow_disciplined.records Machine.nextRow_of_failure
  | step => exact hdrive Machine.step_disciplined.records Machine.step_of_failure
  | seekPc pc => exact hdrive (Machine.seekPc_records pc) (Machine.seekPc_of_failure · pc)
  | rows | checkpoint | restore | reset | file | rowFile | files | atEnd | failure => cases h

theorem failure_perform_iff_reports (hsound : s.machine.failure = none) (operation : Operation) :
    (s.perform operation).2.machine.failure = some e ↔ (s.perform operation).1.Reports e := by
  have hdrive (h : operation.drives = true) {found : Except LineError (Option Row)}
      (hfound : (s.perform operation).1 = .row found) :
      (s.perform operation).2.machine.failure = some e ↔ (s.perform operation).1.Reports e := by
    rw [← perform_eq_error_iff h, hfound, Answer.reports_row_iff, Answer.row.injEq]
  have hsilent {kept : Option LineError} {answer : Answer} (hkept : kept = none)
      (hanswer : ¬answer.Reports e) : kept = some e ↔ answer.Reports e := by
    simp [hkept, hanswer]
  cases operation with
  | nextRow | step | seekPc => exact hdrive rfl rfl
  | rows times =>
    refine Iff.trans ?_ Answer.reports_items_iff.symm
    exact RowStream.failure_nextTimes (s := ⟨s.machine, false⟩) hsound
  | restore slot =>
    refine hsilent ?_ nofun
    change (s.restore slot).machine.failure = none
    unfold restore
    cases s.saved[slot]? <;> exact hsound
  | checkpoint | reset | file | rowFile | files | atEnd | failure => exact hsilent hsound nofun

theorem perform_of_failure (h : s.machine.failure = some e) (operation : Operation) :
    (∀ row, ¬(s.perform operation).1.Gives row) ∧
      ∀ other, (s.perform operation).1.Reports other → other = e := by
  have hdrive (hdrives : operation.drives = true) :
      (s.perform operation).1 = .row (.error e) :=
    (perform_eq_error_iff hdrives).mpr (failure_perform h operation)
  cases operation with
  | nextRow | step | seekPc =>
    rw [hdrive rfl]
    simp [eq_comm]
  | rows times =>
    cases times with
    | zero => simp [perform, RowStream.nextTimes]
    | succ times =>
      have hitems := RowStream.nextTimes_of_failure (s := ⟨s.machine, false⟩) rfl h times
      simp [perform, hitems, List.mem_replicate]
  | checkpoint | restore | reset | file | rowFile | files | atEnd | failure => exact ⟨nofun, nofun⟩

theorem answers_of_failure (h : s.machine.failure = some e) (operations : List Operation) :
    ∀ answer ∈ s.answers operations,
      (∀ row, ¬answer.Gives row) ∧ ∀ other, answer.Reports other → other = e := by
  induction operations generalizing s with
  | nil => nofun
  | cons operation rest ih =>
    intro answer hanswer
    rcases List.mem_cons.mp hanswer with rfl | hrest
    · exact perform_of_failure h operation
    · exact ih (failure_perform h operation) answer hrest

/-- The failure that is kept is the one that has been reported. -/
theorem failure_after_iff_reports (hsound : s.machine.failure = none)
    (operations : List Operation) :
    (s.after operations).machine.failure = some e ↔
      ∃ answer ∈ s.answers operations, answer.Reports e := by
  induction operations generalizing s with
  | nil => simp [after, answers, run, hsound]
  | cons operation rest ih =>
    have hfirst := fun e => @failure_perform_iff_reports s e hsound operation
    change ((s.perform operation).2.after rest).machine.failure = some e ↔
      ∃ answer ∈ (s.perform operation).1 :: (s.perform operation).2.answers rest, answer.Reports e
    rw [List.exists_mem_cons_iff]
    cases hnext : (s.perform operation).2.machine.failure with
    | none =>
      have hnot : ¬(s.perform operation).1.Reports e := by simp [← hfirst, hnext]
      rw [ih hnext, or_iff_right hnot]
    | some first =>
      have hreported := (hfirst first).mp hnext
      rw [failure_after hnext rest]
      constructor
      · intro h
        exact .inl (Option.some.inj h ▸ hreported)
      · rintro (h | ⟨answer, hmem, h⟩)
        · exact hnext.symm.trans ((hfirst e).mpr h)
        · rw [(answers_of_failure hnext rest answer hmem).2 e h]

theorem eq_none_of_items_mem {operations : List Operation}
    {front back : List (Option (Except LineError Row))}
    (h : .items (front ++ some (.error e) :: back) ∈ s.answers operations) :
    ∀ item ∈ back, item = none := by
  induction operations generalizing s with
  | nil => cases h
  | cons operation rest ih =>
    rcases List.mem_cons.mp h with hfirst | hrest
    · cases operation with
      | rows times => exact RowStream.eq_none_of_mem_behind (Answer.items.inj hfirst).symm
      | nextRow | step | seekPc | checkpoint | restore | reset | file | rowFile | files | atEnd
        | failure => cases hfirst
    · exact ih hrest

/-- The first failure is the only one that is ever reported, whatever is done to the machine, and
nothing is given behind it. -/
theorem first_failure_final {unit : CompileUnit} {bytes : Array UInt8} {settings : Settings}
    {start : Machine} (hopen : Machine.ofUnit unit bytes settings = .ok (some start))
    (saved : List Position) (before : List Operation) :
    let fresh : Session := ⟨start, saved⟩
    let s := fresh.after before
    (∀ operation : Operation, operation.drives = true → ∀ e,
      (s.perform operation).1 = .row (.error e) ↔
        (s.perform operation).2.machine.failure = some e) ∧
    (∀ e, s.machine.failure = some e ↔ ∃ answer ∈ fresh.answers before, answer.Reports e) ∧
    (∀ e front back, .items (front ++ some (.error e) :: back) ∈ fresh.answers before →
      ∀ item ∈ back, item = none) ∧
    ∀ e, s.machine.failure = some e → ∀ further : List Operation,
      (s.after further).machine.failure = some e ∧
      (∀ answer ∈ s.answers further,
        (∀ row, ¬answer.Gives row) ∧ ∀ other, answer.Reports other → other = e) ∧
      (∀ operation : Operation, operation.drives = true →
        ((s.after further).perform operation).1 = .row (.error e)) ∧
      ∀ times, ((s.after further).perform (.rows (times + 1))).1 =
        .items (some (.error e) :: List.replicate times none) := by
  intro fresh s
  have hsound : fresh.machine.failure = none := (Machine.fresh_of_ofUnit hopen).sound
  refine ⟨fun operation hdrives e => perform_eq_error_iff hdrives,
    fun e => failure_after_iff_reports hsound before, fun e front back => eq_none_of_items_mem,
    fun e he further => ?_⟩
  have hfurther := failure_after he further
  refine ⟨hfurther, answers_of_failure he further, fun operation hdrives => ?_, fun times => ?_⟩
  · exact (perform_eq_error_iff hdrives).mpr (failure_perform hfurther operation)
  · exact congrArg (fun r => Answer.items r.1)
      (RowStream.nextTimes_of_failure (s := ⟨(s.after further).machine, false⟩) rfl hfurther times)

/-- A program that gives a row and then defines a file without a name. -/
def nameless : Assembly :=
  [.copy, .extended ExtendedOpcode.defineFile.code [0], .endSequence].foldl Assembly.emit
    Assembly.empty

/-- The failure behind the first row outlasts a reset, and a lookup of an address that the row lies
at. -/
theorem first_failure_final_nameless :
    ∃ start, Machine.ofUnit (nameless.unit 0) nameless.encode.toArray .unset = .ok (some start) ∧
      let s := (⟨start, [start.checkpoint]⟩ : Session).after [.rows 3, .reset, .restore 0]
      s.machine.failure = some (.malformedDefineFile 31) ∧ ∀ further pc,
        (s.after further).machine.failure = some (.malformedDefineFile 31) ∧
        ((s.after further).perform (.seekPc pc)).1 = .row (.error (.malformedDefineFile 31)) ∧
        ((s.after further).perform (.rows 2)).1 =
          .items [some (.error (.malformedDefineFile 31)), none] := by
  obtain ⟨start, hopen, hfailure⟩ : ∃ start,
      Machine.ofUnit (nameless.unit 0) nameless.encode.toArray .unset = .ok (some start) ∧
      ((⟨start, [start.checkpoint]⟩ : Session).after
        [.rows 3, .reset, .restore 0]).machine.failure = some (.malformedDefineFile 31) :=
    Machine.exists_of_opened (by decide +kernel)
  refine ⟨start, hopen, hfailure, fun further pc => ?_⟩
  obtain ⟨hkept, -, hdrives, hrows⟩ :=
    (first_failure_final hopen [start.checkpoint] [.rows 3, .reset, .restore 0]).2.2.2 _ hfailure
      further
  exact ⟨hkept, hdrives (.seekPc pc) rfl, hrows 1⟩

end Session
end DebugLine
