import DebugLine.Proofs.Table

/-!
# How a lookup by address ends

A lookup starts at the next row, or at the first row of the table where the next one lies behind the
address. From there it passes the rows at or before the address up to the first one behind it, which
it takes back. What it answers depends on the table and on the row that it starts at, and not on the
bytes in between.
-/

namespace DebugLine

namespace Row

variable {rows : List Row} {pc : UInt64} {i j k l : Nat} {row held : Row}

/-- The rows with a number from `i` to before `k` lie at `pc` or before. -/
def UpTo (rows : List Row) (pc : UInt64) (i k : Nat) : Prop :=
  ∀ l row, i ≤ l → l < k → rows[l]? = some row → row.address ≤ pc

theorem UpTo.not_lt (h : UpTo rows pc i k) (hi : i ≤ l) (hk : l < k) (hrow : rows[l]? = some row) :
    ¬pc < row.address :=
  UInt64.not_lt.mpr (h l row hi hk hrow)

theorem upTo_one (hheld : rows[i]? = some held) (hle : held.address ≤ pc) :
    UpTo rows pc i (i + 1) := by
  intro l row hi hl hrow
  obtain rfl : l = i := by omega
  cases hheld.symm.trans hrow
  exact hle

theorem UpTo.append (h : UpTo rows pc i j) (h' : UpTo rows pc j k) : UpTo rows pc i k := by
  intro l row hi hk hrow
  rcases Nat.lt_or_ge l j with hl | hl
  · exact h l row hi hl hrow
  · exact h' l row hl hk hrow

/-- The number of the row that a lookup starts at, where the next row has the number `j`. -/
def searchStart (rows : List Row) (pc : UInt64) (j : Nat) : Nat :=
  if rows[j]?.any fun row => row.address ≤ pc then j else 0

theorem searchStart_of_le (hheld : rows[j]? = some held) (hle : held.address ≤ pc) :
    searchStart rows pc j = j := by
  simp [searchStart, hheld, hle]

theorem searchStart_of_lt (h : ∀ row, rows[j]? = some row → pc < row.address) :
    searchStart rows pc j = 0 := by
  unfold searchStart
  apply if_neg
  rw [Option.any_eq_true]
  rintro ⟨row, hget, hle⟩
  exact UInt64.not_le.mpr (h row hget) (of_decide_eq_true hle)

end Row

namespace Machine

open Row (UpTo searchStart)

variable {start m : Machine} {pc : UInt64} {i j : Nat} {held : Row}

/-- How a scan ends that holds the row with number `i`. -/
inductive Scanned (start : Machine) (pc : UInt64) (i : Nat) :
    EStateM.Result LineError Machine (Option Row) → Prop
  /-- The row with number `k` is the last before one behind `pc`. -/
  | turned {k : Nat} {held next : Row} {m : Machine} (le : i ≤ k)
      (upTo : UpTo start.table pc i (k + 1)) (held_eq : start.table[k]? = some held)
      (next_eq : start.table[k + 1]? = some next) (lt : pc < next.address)
      (behind : Behind start m (k + 1)) :
      Scanned start pc i (.ok (if held.endSequence then none else some held) m)
  | ended {m : Machine} (upTo : UpTo start.table pc i start.table.length) (atEnd : m.atEnd = true) :
      Scanned start pc i (.ok none m)
  | failed {e : LineError} {m : Machine} (mem : .error e ∈ start.rows.1) :
      Scanned start pc i (.error e m)

/-- What is passed before the scan goes on may be counted in. -/
theorem Scanned.append {o : EStateM.Result LineError Machine (Option Row)}
    (h : UpTo start.table pc i j) (hij : i ≤ j) (hscan : Scanned start pc j o) :
    Scanned start pc i o := by
  cases hscan with
  | turned le upTo held_eq next_eq lt behind =>
    exact .turned (hij.trans le) (h.append upTo) held_eq next_eq lt behind
  | ended upTo atEnd => exact .ended (h.append upTo) atEnd
  | failed mem => exact .failed mem

theorem scanWithin_scanned (hstart : Fresh start) {most : Nat} (hmost : m.cursor.remaining < most)
    (h : Behind start m (i + 1)) (hheld : start.table[i]? = some held) (hle : held.address ≤ pc) :
    Scanned start pc i (scanWithin pc most held m) := by
  have hone := Row.upTo_one hheld hle
  induction most generalizing m i held with
  | zero => omega
  | succ most ih =>
    rw [scanWithin_succ]
    cases hrow : nextRow m with
    | error e t =>
      rw [bind_of_error hrow]
      exact .failed (h.awaiting.of_nextRow_error hrow)
    | ok found t =>
      rw [bind_of_ok hrow]
      cases found with
      | none =>
        obtain ⟨hlen, hend⟩ := h.awaiting.of_nextRow_none hrow
        refine .ended (fun l row hi hl => hone l row hi ?_) hend
        omega
      | some next =>
        obtain ⟨hnext, hbehind⟩ := h.awaiting.of_nextRow_ok hrow
        dsimp only
        by_cases hpc : pc < next.address
        · rw [if_pos hpc]
          exact .turned le_rfl hone hheld hnext hpc (h.restored hstart hrow)
        · rw [if_neg hpc]
          have hnextLe : next.address ≤ pc := UInt64.not_lt.mp hpc
          have hlt := remaining_nextRow_lt hrow
          exact (ih (by omega) hbehind hnext hnextLe (Row.upTo_one hnext hnextLe)).append hone
            (Nat.le_succ i)

/-- How looking at the next row ends, which has the number `j`. -/
inductive Peeked (start : Machine) (pc : UInt64) (j : Nat) :
    EStateM.Result LineError Machine (Option Row) → Prop
  | held {held : Row} {m : Machine} (held_eq : start.table[j]? = some held)
      (le : held.address ≤ pc) (behind : Behind start m (j + 1)) :
      Peeked start pc j (.ok (some held) m)
  | none {m : Machine} (lt : ∀ row, start.table[j]? = some row → pc < row.address)
      (standing : ∃ n reach, Standing start m n reach) : Peeked start pc j (.ok none m)
  | failed {e : LineError} {m : Machine} (mem : .error e ∈ start.rows.1) :
      Peeked start pc j (.error e m)

theorem nextRowUpTo_of_le {t : Machine} {row : Row} (h : nextRow m = .ok (some row) t)
    (hle : row.address ≤ pc) : nextRowUpTo pc m = .ok (some row) t := by
  unfold nextRowUpTo
  rw [bind_of_ok h, Option.filter_some_pos (by simpa using hle)]
  rfl

theorem nextRowUpTo_of_lt {t : Machine} {found : Option Row} (h : nextRow m = .ok found t)
    (hlt : ∀ row, found = some row → pc < row.address) : nextRowUpTo pc m = .ok none t := by
  have hfilter : found.filter (fun row => row.address ≤ pc) = none := by
    rw [Option.filter_eq_none_iff]
    exact fun row hrow => by simpa using hlt row hrow
  unfold nextRowUpTo
  rw [bind_of_ok h, hfilter]
  rfl

theorem nextRowUpTo_of_error {t : Machine} {e : LineError} (h : nextRow m = .error e t) :
    nextRowUpTo pc m = .error e t :=
  bind_of_error h

/-- The next row lies at `pc` or before, or it does not. -/
theorem found_le_or_lt (pc : UInt64) (found : Option Row) :
    (∃ row, found = some row ∧ row.address ≤ pc) ∨ ∀ row, found = some row → pc < row.address := by
  by_cases h : ∃ row, found = some row ∧ row.address ≤ pc
  · exact .inl h
  · exact .inr fun row hrow => UInt64.not_le.mp fun hle => h ⟨row, hrow, hle⟩

theorem nextRowUpTo_peeked (h : Awaiting start m j) (pc : UInt64) :
    Peeked start pc j (nextRowUpTo pc m) := by
  cases hrow : nextRow m with
  | error e t =>
    rw [nextRowUpTo_of_error hrow]
    exact .failed (h.of_nextRow_error hrow)
  | ok found t =>
    obtain ⟨n, reach, hstanding⟩ := h.standing
    obtain ⟨n', reach', -, ht⟩ := hstanding.nextRow_ok hrow
    rcases found_le_or_lt pc found with ⟨row, rfl, hle⟩ | hlt
    · obtain ⟨hget, hbehind⟩ := h.of_nextRow_ok hrow
      rw [nextRowUpTo_of_le hrow hle]
      exact .held hget hle hbehind
    · rw [nextRowUpTo_of_lt hrow hlt]
      refine .none (fun row hget => ?_) ⟨n', reach', ht⟩
      cases found with
      | none =>
        obtain ⟨hlen, -⟩ := h.of_nextRow_none hrow
        rw [List.getElem?_eq_none hlen] at hget
        cases hget
      | some first =>
        obtain ⟨hfirst, -⟩ := h.of_nextRow_ok hrow
        cases hfirst.symm.trans hget
        exact hlt _ rfl

/-- How a lookup ends, where the next row has the number `j`. -/
inductive Sought (start : Machine) (pc : UInt64) (j : Nat) :
    EStateM.Result LineError Machine (Option Row) → Prop
  | scanned {held : Row} {o : EStateM.Result LineError Machine (Option Row)}
      (held_eq : start.table[searchStart start.table pc j]? = some held)
      (le : held.address ≤ pc)
      (scan : Scanned start pc (searchStart start.table pc j) o) : Sought start pc j o
  | before {m : Machine} (searchStart_eq : searchStart start.table pc j = 0)
      (lt : ∀ row, start.table[0]? = some row → pc < row.address) (behind : Behind start m 0) :
      Sought start pc j (.ok none m)
  | failed {e : LineError} {m : Machine} (mem : .error e ∈ start.rows.1) :
      Sought start pc j (.error e m)

theorem scanFrom_sought (hstart : Fresh start) (h : Behind start m (i + 1))
    (hheld : start.table[i]? = some held) (hle : held.address ≤ pc)
    (hfrom : searchStart start.table pc j = i) : Sought start pc j (scanFrom pc held m) := by
  subst hfrom
  exact .scanned hheld hle (scanWithin_scanned hstart (Nat.lt_succ_self _) h hheld hle)

theorem seekPc_sought (hstart : Fresh start) (h : Awaiting start m j) (pc : UInt64) :
    Sought start pc j (seekPc pc m) := by
  have hpeek := nextRowUpTo_peeked h pc
  unfold seekPc
  generalize hnext : nextRowUpTo pc m = o at hpeek
  cases hpeek with
  | failed mem =>
    rw [bind_of_error hnext]
    exact .failed mem
  | held held_eq le behind =>
    rw [bind_of_ok hnext]
    exact scanFrom_sought hstart behind held_eq le (Row.searchStart_of_le held_eq le)
  | @none t lt standing =>
    rw [bind_of_ok hnext]
    obtain ⟨n, reach, hstanding⟩ := standing
    have hfrom := Row.searchStart_of_lt lt
    have hagain := nextRowUpTo_peeked (hstanding.behind_rewound hstart).awaiting pc
    change Sought start pc j ((nextRowUpTo pc >>= fun found => _) t.rewound)
    generalize hfirst : nextRowUpTo pc t.rewound = o at hagain
    cases hagain with
    | failed mem =>
      rw [bind_of_error hfirst]
      exact .failed mem
    | held held_eq le behind =>
      rw [bind_of_ok hfirst]
      exact scanFrom_sought hstart behind held_eq le hfrom
    | none lt standing =>
      rw [bind_of_ok hfirst]
      obtain ⟨n, reach, hstanding⟩ := standing
      exact .before hfrom lt (hstanding.behind_rewound hstart)

end Machine
end DebugLine
