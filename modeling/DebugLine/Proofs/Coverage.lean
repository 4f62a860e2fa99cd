import DebugLine.Proofs.Lookup
import DebugLine.Proofs.Replay

/-!
# What a lookup finds covers the address

A row covers the addresses from its own to before that of the next row of its sequence. What a
lookup finds covers the address, whatever the order of the rows, and the machine is left where a
fresh one stands that has just given that row.
-/

namespace DebugLine

namespace Row

variable {rows : List Row} {pc : UInt64} {i k s : Nat} {row next next' : Row}

/-- The row with number `i` does not end a sequence, and `pc` lies in its addresses, which reach to
before those of the next row. -/
structure Covering (rows : List Row) (pc : UInt64) (i : Nat) (row next : Row) : Prop where
  row_eq : rows[i]? = some row
  next_eq : rows[i + 1]? = some next
  endSequence_eq : row.endSequence = false
  le : row.address ≤ pc
  lt : pc < next.address

theorem turn_unique (hi : s ≤ i) (hk : s ≤ k) (hupTo : UpTo rows pc s (i + 1))
    (hupTo' : UpTo rows pc s (k + 1)) (hnext : rows[i + 1]? = some next)
    (hnext' : rows[k + 1]? = some next') (hlt : pc < next.address) (hlt' : pc < next'.address) :
    i = k := by
  rcases Nat.lt_trichotomy i k with h | h | h
  · exact absurd hlt (hupTo'.not_lt (by omega) (by omega) hnext)
  · exact h
  · exact absurd hlt' (hupTo.not_lt (by omega) (by omega) hnext')

/-- The number of the sequence that the row with number `i` belongs to. -/
def sequenceNumber (rows : List Row) (i : Nat) : Nat := (rows.take i).countP (·.endSequence)

theorem sequenceNumber_succ (h : rows[i]? = some row) (hend : row.endSequence = false) :
    sequenceNumber rows (i + 1) = sequenceNumber rows i := by
  simp [sequenceNumber, List.take_add_one, h, hend]

end Row

namespace Machine

open Row (UpTo searchStart)
open Session (ofMachine)

variable {start m : Machine} {pc : UInt64} {i j : Nat} {row held next : Row}
  {o : EStateM.Result LineError Machine (Option Row)}

namespace Sought

theorem of_some (h : Sought start pc j (.ok (some row) m)) :
    ∃ i next, Row.Covering start.table pc i row next ∧ Behind start m (i + 1) ∧
      searchStart start.table pc j ≤ i ∧
      UpTo start.table pc (searchStart start.table pc j) (i + 1) := by
  generalize ho : EStateM.Result.ok (some row) m = o at h
  cases h with
  | before => cases ho
  | failed => cases ho
  | scanned first_eq le scan =>
    cases scan with
    | ended => cases ho
    | failed => cases ho
    | @turned i held next m' hle upTo held_eq next_eq lt behind =>
      rw [EStateM.Result.ok.injEq] at ho
      obtain ⟨hfound, rfl⟩ := ho
      by_cases hend : held.endSequence = true
      · rw [if_pos hend] at hfound
        cases hfound
      · rw [if_neg hend, Option.some.injEq] at hfound
        subst hfound
        have hrow := upTo i row hle (Nat.lt_succ_self i) held_eq
        exact ⟨i, next, ⟨held_eq, next_eq, by simpa using hend, hrow, lt⟩, behind, hle, upTo⟩

theorem exists_ok (h : Sought start pc j o) (hrows : start.ErrorFree) :
    ∃ found m', o = .ok found m' := by
  cases h with
  | before => exact ⟨_, _, rfl⟩
  | failed mem => exact absurd mem (hrows _)
  | scanned first_eq le scan =>
    cases scan with
    | turned => exact ⟨_, _, rfl⟩
    | ended => exact ⟨_, _, rfl⟩
    | failed mem => exact absurd mem (hrows _)

theorem of_turn (h : Sought start pc j o) (hrows : start.ErrorFree)
    (hi : searchStart start.table pc j ≤ i)
    (hupTo : UpTo start.table pc (searchStart start.table pc j) (i + 1))
    (hheld : start.table[i]? = some held) (hnext : start.table[i + 1]? = some next)
    (hlt : pc < next.address) :
    ∃ m', o = .ok (if held.endSequence then none else some held) m' ∧ Behind start m' (i + 1) := by
  cases h with
  | failed mem => exact absurd mem (hrows _)
  | before searchStart_eq lt behind =>
    have hlen := (List.getElem?_eq_some_iff.mp hheld).1
    have hfirst := List.getElem?_eq_getElem (l := start.table) (i := 0) (by omega)
    rw [searchStart_eq] at hupTo
    exact absurd (lt _ hfirst) (hupTo.not_lt le_rfl (Nat.succ_pos i) hfirst)
  | scanned first_eq le scan =>
    cases scan with
    | failed mem => exact absurd mem (hrows _)
    | ended upTo atEnd =>
      have hlen := (List.getElem?_eq_some_iff.mp hnext).1
      exact absurd hlt (upTo.not_lt (by omega) hlen hnext)
    | turned hle upTo held_eq next_eq lt behind =>
      obtain rfl := Row.turn_unique hi hle hupTo upTo hnext next_eq hlt lt
      cases hheld.symm.trans held_eq
      exact ⟨_, rfl, behind⟩

theorem of_upTo (h : Sought start pc j o) (hrows : start.ErrorFree)
    (hlen : searchStart start.table pc j < start.table.length)
    (hupTo : UpTo start.table pc (searchStart start.table pc j) start.table.length) :
    ∃ m', o = .ok none m' ∧ m'.atEnd = true := by
  cases h with
  | failed mem => exact absurd mem (hrows _)
  | before searchStart_eq lt behind =>
    rw [searchStart_eq] at hlen hupTo
    have hfirst := List.getElem?_eq_getElem hlen
    exact absurd (lt _ hfirst) (hupTo.not_lt le_rfl hlen hfirst)
  | scanned first_eq le scan =>
    cases scan with
    | failed mem => exact absurd mem (hrows _)
    | ended upTo atEnd => exact ⟨_, rfl, atEnd⟩
    | turned hle upTo held_eq next_eq lt behind =>
      have hlast := (List.getElem?_eq_some_iff.mp next_eq).1
      exact absurd lt (hupTo.not_lt (by omega) hlast next_eq)

theorem of_lt (h : Sought start pc j o) (hrows : start.ErrorFree)
    (hlt : ∀ row ∈ start.table, pc < row.address) :
    ∃ m', o = .ok none m' ∧ Behind start m' 0 := by
  cases h with
  | failed mem => exact absurd mem (hrows _)
  | before searchStart_eq lt behind => exact ⟨_, rfl, behind⟩
  | scanned first_eq le scan =>
    exact absurd le (UInt64.not_le.mpr (hlt _ (List.mem_of_getElem? first_eq)))

end Sought

/-- Wherever operations have left the machine, a lookup ends in one of the known ways. -/
theorem exists_sought (hstart : Fresh start) (operations : List Operation)
    (hsound : ((ofMachine start).after operations).machine.failure = none) :
    ∃ j ≤ start.table.length, Awaiting start ((ofMachine start).after operations).machine j ∧
      ∀ pc, Sought start pc j (seekPc pc ((ofMachine start).after operations).machine) := by
  have halike := ((Session.Alike.ofFresh hstart).run hstart operations).2
  obtain ⟨n, reach, -, hon⟩ := halike.onTrack hsound
  obtain ⟨j, hj, hawaiting⟩ := hon.standing.exists_awaiting
  exact ⟨j, hj, hawaiting, seekPc_sought hstart hawaiting⟩

theorem failure_after_eq_none (hstart : Fresh start) (hrows : start.ErrorFree)
    (operations : List Operation) :
    ((ofMachine start).after operations).machine.failure = none := by
  by_contra hfailed
  have halike := ((Session.Alike.ofFresh hstart).run hstart operations).2
  cases halike with
  | stopped eq failed known => exact failed (known.symm.trans (hstart.afterSteps_sound hrows _))
  | running machines =>
    cases machines with
    | standing left => exact hfailed left.failure_eq
    | stopped eq failed known => exact failed (known.symm.trans (hstart.afterSteps_sound hrows _))

/-- Whatever the order of the rows, a row that is found covers the address, and the machine stands
where a fresh one does that has just given it. -/
theorem seekPc_covers {unit : CompileUnit} {bytes : Array UInt8} {settings : Settings}
    {m' : Machine} (hopen : ofUnit unit bytes settings = .ok (some start))
    (operations : List Operation) (pc : UInt64)
    (hsound : ((ofMachine start).after operations).machine.failure = none)
    (hfound : seekPc pc ((ofMachine start).after operations).machine = .ok (some row) m') :
    ∃ i next t, Row.Covering start.table pc i row next ∧
      Row.sequenceNumber start.table (i + 1) = Row.sequenceNumber start.table i ∧
      m'.shown = (start.afterRows (i + 1)).shown ∧ nextRow m' = .ok (some next) t ∧
      m'.rowFile? row = (start.afterRows (i + 1)).rowFile? row := by
  have hstart := fresh_of_ofUnit hopen
  obtain ⟨j, -, -, hsought⟩ := exists_sought hstart operations hsound
  have hpc := hsought pc
  rw [hfound] at hpc
  obtain ⟨i, next, hcovering, hbehind, -, -⟩ := hpc.of_some
  obtain ⟨t, ht, -⟩ := hbehind.awaiting.nextRow_of_getElem? hcovering.next_eq
  have hshown := hbehind.shown_eq_shown
  have hfile := congrArg (fun m : Machine => m.rowFile? row) hshown
  exact ⟨i, next, t, hcovering,
    Row.sequenceNumber_succ hcovering.row_eq hcovering.endSequence_eq,
    hshown, ht, hfile⟩

/-- A program whose addresses go down and up again, which defines a file between two rows, and whose
last instruction is cut off. -/
def disordered : Assembly :=
  [.setAddress 0x30, .copy, .setAddress 0x10, .copy, .defineFile "b" 0 0 0, .setFile 2,
    .advancePc 8, .copy, .raw [2, 0x80]].foldl Assembly.emit
      { Assembly.empty with files := [("a", 0)] }

theorem seekPc_covers_disordered :
    ∃ start m', ofUnit (disordered.unit 0) disordered.encode.toArray .unset = .ok (some start) ∧
      ((ofMachine start).after [.nextRow, .step]).machine.failure = none ∧
      seekPc 0x12 ((ofMachine start).after [.nextRow, .step]).machine =
        .ok (some { Row.initial true with address := 0x10 }) m' ∧
      ∃ i next t, Row.Covering start.table 0x12 i { Row.initial true with address := 0x10 } next ∧
        Row.sequenceNumber start.table (i + 1) = Row.sequenceNumber start.table i ∧
        m'.shown = (start.afterRows (i + 1)).shown ∧ nextRow m' = .ok (some next) t ∧
        m'.rowFile? { Row.initial true with address := 0x10 } =
          (start.afterRows (i + 1)).rowFile? { Row.initial true with address := 0x10 } := by
  obtain ⟨start, hopen, hsound, hfound⟩ : ∃ start,
      ofUnit (disordered.unit 0) disordered.encode.toArray .unset = .ok (some start) ∧
      ((ofMachine start).after [.nextRow, .step]).machine.failure = none ∧
      (seekPc 0x12 ((ofMachine start).after [.nextRow, .step]).machine).answer =
        .ok (some { Row.initial true with address := 0x10 }) :=
    exists_of_opened (by decide +kernel)
  obtain ⟨m', hfound⟩ := EStateM.Result.exists_of_answer_ok hfound
  exact ⟨start, m', hopen, hsound, hfound, seekPc_covers hopen _ _ hsound hfound⟩

end Machine
end DebugLine
