import DebugLine.Proofs.Coverage

/-!
# Lookups on tables in address order

Where the addresses never go down over the whole table, the last row at an address or before it is
what a lookup comes to, from wherever the machine stands.
-/

namespace DebugLine

namespace Row

variable {rows : List Row} {pc : UInt64} {i k : Nat} {row held next : Row}

theorem address_le (hordered : rows.Pairwise fun a b => a.address ≤ b.address) (hik : i ≤ k)
    (hrow : rows[i]? = some row) (hnext : rows[k]? = some next) : row.address ≤ next.address := by
  obtain ⟨hi, rfl⟩ := List.getElem?_eq_some_iff.mp hrow
  obtain ⟨hk, rfl⟩ := List.getElem?_eq_some_iff.mp hnext
  rcases Nat.lt_or_eq_of_le hik with hlt | rfl
  · exact List.pairwise_iff_getElem.mp hordered i k hi hk hlt
  · exact UInt64.le_refl _

/-- `held` is the last row at `pc` or before, and has the number `i`. -/
structure LastUpTo (rows : List Row) (pc : UInt64) (i : Nat) (held : Row) : Prop where
  held_eq : rows[i]? = some held
  le : held.address ≤ pc
  lt : ∀ k row, i < k → rows[k]? = some row → pc < row.address

theorem LastUpTo.upTo (hordered : rows.Pairwise fun a b => a.address ≤ b.address)
    (h : LastUpTo rows pc i held) (s : Nat) : UpTo rows pc s (i + 1) := by
  intro l row _ hl hrow
  exact UInt64.le_trans (address_le hordered (Nat.le_of_lt_succ hl) hrow h.held_eq) h.le

theorem LastUpTo.searchStart_le (h : LastUpTo rows pc i held) (j : Nat) :
    searchStart rows pc j ≤ i := by
  unfold searchStart
  split_ifs with hj
  · by_contra hlt
    obtain ⟨row, hrow, hle⟩ := (Option.any_eq_true _ _).mp hj
    exact absurd (of_decide_eq_true hle) (UInt64.not_le.mpr (h.lt j row (by omega) hrow))
  · exact Nat.zero_le i

end Row

namespace Machine

open Row (searchStart)
open Session (ofMachine)

variable {start : Machine} {rows : List Row}

/-- On a table in address order a lookup finds the last row at the address or before, wherever the
machine stands. -/
theorem seekPc_of_ordered {unit : CompileUnit} {bytes : Array UInt8} {settings : Settings}
    (hopen : ofUnit unit bytes settings = .ok (some start)) (hrows : start.rows.1 = rows.map .ok)
    (hordered : rows.Pairwise fun a b => a.address ≤ b.address) (operations : List Operation)
    (pc : UInt64) :
    let m := ((ofMachine start).after operations).machine
    ((∀ row ∈ rows, pc < row.address) →
      ∃ m', seekPc pc m = .ok none m' ∧ m'.shown = start.shown) ∧
    ∀ i held, Row.LastUpTo rows pc i held →
      (i + 1 = rows.length → ∃ m', seekPc pc m = .ok none m' ∧ m'.atEnd = true) ∧
      ∀ next, rows[i + 1]? = some next →
        ∃ m' t, seekPc pc m = .ok (if held.endSequence then none else some held) m' ∧
          m'.shown = (start.afterRows (i + 1)).shown ∧ nextRow m' = .ok (some next) t := by
  intro m
  have hstart := fresh_of_ofUnit hopen
  have herrors := errorFree_of_rows hrows
  obtain rfl := table_of_rows hrows
  obtain ⟨j, -, -, hsought⟩ :=
    exists_sought hstart operations (failure_after_eq_none hstart herrors operations)
  refine ⟨fun hlt => ?_, fun i held hlast => ⟨fun hlen => ?_, fun next hnext => ?_⟩⟩
  · obtain ⟨m', ho, hbehind⟩ := (hsought pc).of_lt herrors hlt
    exact ⟨m', ho, hbehind.shown_eq.trans (hstart.afterSteps_shown 0).symm⟩
  · have hupTo := hlast.upTo hordered (searchStart start.table pc j)
    rw [hlen] at hupTo
    refine (hsought pc).of_upTo herrors ?_ hupTo
    exact hlen ▸ Nat.lt_succ_of_le (hlast.searchStart_le j)
  · obtain ⟨m', ho, hbehind⟩ := (hsought pc).of_turn herrors (hlast.searchStart_le j)
      (hlast.upTo hordered _) hlast.held_eq hnext
      (hlast.lt (i + 1) next (Nat.lt_succ_self i) hnext)
    obtain ⟨t, ht, -⟩ := hbehind.awaiting.nextRow_of_getElem? hnext
    exact ⟨m', t, ho, hbehind.shown_eq_shown, ht⟩

/-- A program in address order with two rows at one address, an empty sequence and a sequence that
is not ended. -/
def rising : Assembly :=
  [.setAddress 0x10, .copy, .copy, .advancePc 4, .endSequence, .setAddress 0x14, .endSequence,
    .setAddress 0x20, .copy, .advancePc 2, .copy].foldl Assembly.emit Assembly.empty

def risingRows : List Row :=
  [(0x10, false), (0x10, false), (0x14, true), (0x14, true), (0x20, false), (0x22, false)].map
    fun (address, endSequence) => { Row.initial true with address, endSequence }

theorem seekPc_of_ordered_rising :
    ∃ start, ofUnit (rising.unit 0) rising.encode.toArray .unset = .ok (some start) ∧
      start.rows.1 = risingRows.map .ok ∧
      (risingRows.Pairwise fun a b => a.address ≤ b.address) ∧
      Row.LastUpTo risingRows 0x13 1 { Row.initial true with address := 0x10 } ∧
      ∃ m' t, seekPc 0x13 ((ofMachine start).after [.rows 9, .seekPc 0x15, .step]).machine =
          .ok (some { Row.initial true with address := 0x10 }) m' ∧
        m'.shown = (start.afterRows 2).shown ∧
        nextRow m' =
          .ok (some { Row.initial true with address := 0x14, endSequence := true }) t := by
  obtain ⟨start, hopen, hrows⟩ : ∃ start,
      ofUnit (rising.unit 0) rising.encode.toArray .unset = .ok (some start) ∧
      start.rows.1 = risingRows.map .ok := exists_of_opened (by decide +kernel)
  have hordered : risingRows.Pairwise fun a b => a.address ≤ b.address := by decide
  have hbehind : ∀ row ∈ risingRows.drop 2, (0x13 : UInt64) < row.address := by decide
  have hlast : Row.LastUpTo risingRows 0x13 1 { Row.initial true with address := 0x10 } := by
    refine ⟨by decide, by decide, fun k row hk hrow => hbehind row ?_⟩
    rw [show k = 2 + (k - 2) by omega, ← List.getElem?_drop] at hrow
    exact List.mem_of_getElem? hrow
  have hfound := seekPc_of_ordered hopen hrows hordered [.rows 9, .seekPc 0x15, .step] 0x13
  exact ⟨start, hopen, hrows, hordered, hlast, (hfound.2 1 _ hlast).2 _ (by decide)⟩

end Machine
end DebugLine
