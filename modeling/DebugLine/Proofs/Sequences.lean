import DebugLine.Proofs.AddressOrder

/-!
# Lookups on sequences in any order

Addresses go up within a sequence, but a later sequence may have lower ones. A lookup then finds the
covering row only if no row behind the address comes first, so it depends on where it starts.
-/

namespace DebugLine

namespace Row

variable {rows : List Row} {sequences : List (List Row)} {pc : UInt64} {i k : Nat} {row next : Row}

/-- Rows in address order, of which the last one and no other ends the sequence. -/
structure IsSequence (rows : List Row) : Prop where
  ordered : rows.Pairwise fun a b => a.address ≤ b.address
  closed : ∃ body last, rows = body ++ [last] ∧ last.endSequence = true ∧
    ∀ row ∈ body, row.endSequence = false

/-- The addresses of a sequence reach from that of its first row to before that of its last. -/
def Spans (rows : List Row) (pc : UInt64) : Prop :=
  ∃ first last, rows.head? = some first ∧ rows.getLast? = some last ∧
    first.address ≤ pc ∧ pc < last.address

/-- A table of sequences, of which no two have an address in common. -/
structure Sequenced (rows : List Row) (sequences : List (List Row)) : Prop where
  rows_eq : rows = sequences.flatten
  isSequence : ∀ s ∈ sequences, IsSequence s
  disjoint : sequences.Pairwise fun s t => ∀ pc, Spans s pc → ¬Spans t pc

namespace Covering

theorem spans (h : Covering rows pc i row next) (hrows : IsSequence rows) : Spans rows pc := by
  obtain ⟨hi, -⟩ := List.getElem?_eq_some_iff.mp h.next_eq
  have hfirst := List.getElem?_eq_getElem (l := rows) (i := 0) (by omega)
  have hlast := List.getElem?_eq_getElem (l := rows) (i := rows.length - 1) (by omega)
  refine ⟨_, _, List.head?_eq_getElem?.trans hfirst, List.getLast?_eq_getElem?.trans hlast, ?_, ?_⟩
  · exact UInt64.le_trans (address_le hrows.ordered (Nat.zero_le i) hfirst h.row_eq) h.le
  · exact UInt64.lt_of_lt_of_le h.lt
      (address_le hrows.ordered (by omega : i + 1 ≤ rows.length - 1) h.next_eq hlast)

theorem unique_of_ordered {row' next' : Row} (h : Covering rows pc i row next)
    (h' : Covering rows pc k row' next')
    (hordered : rows.Pairwise fun a b => a.address ≤ b.address) : i = k := by
  rcases Nat.lt_trichotomy i k with hik | hik | hik
  · have hle := address_le hordered hik h.next_eq h'.row_eq
    exact absurd (UInt64.le_trans hle h'.le) (UInt64.not_le.mpr h.lt)
  · exact hik
  · have hle := address_le hordered hik h'.next_eq h.row_eq
    exact absurd (UInt64.le_trans hle h.le) (UInt64.not_le.mpr h'.lt)

theorem of_append {first rest : List Row} (h : Covering (first ++ rest) pc i row next)
    (hfirst : IsSequence first) :
    Covering first pc i row next ∨
      first.length ≤ i ∧ Covering rest pc (i - first.length) row next := by
  obtain ⟨hrow, hnext, hend, hle, hlt⟩ := h
  rcases Nat.lt_or_ge i first.length with hi | hi
  · rw [List.getElem?_append_left hi] at hrow
    rcases Nat.lt_or_ge (i + 1) first.length with hi' | hi'
    · rw [List.getElem?_append_left hi'] at hnext
      exact .inl ⟨hrow, hnext, hend, hle, hlt⟩
    · obtain ⟨body, last, rfl, hlast, -⟩ := hfirst.closed
      have hbody : i = body.length := by
        rw [List.length_append, List.length_singleton] at hi hi'
        omega
      rw [hbody, List.getElem?_concat_length, Option.some.injEq] at hrow
      rw [hrow, hend] at hlast
      cases hlast
  · rw [List.getElem?_append_right hi] at hrow
    rw [List.getElem?_append_right (by omega), Nat.sub_add_comm hi] at hnext
    exact .inr ⟨hi, hrow, hnext, hend, hle, hlt⟩

theorem exists_spans (h : Covering sequences.flatten pc i row next)
    (hsequences : ∀ s ∈ sequences, IsSequence s) : ∃ s ∈ sequences, Spans s pc := by
  induction sequences generalizing i with
  | nil => cases h.row_eq
  | cons first rest ih =>
    have hfirst := hsequences first List.mem_cons_self
    rcases h.of_append hfirst with h | ⟨-, h⟩
    · exact ⟨first, List.mem_cons_self, h.spans hfirst⟩
    · obtain ⟨s, hs, hspans⟩ := ih h fun s hs => hsequences s (List.mem_cons_of_mem _ hs)
      exact ⟨s, List.mem_cons_of_mem _ hs, hspans⟩

theorem unique {row' next' : Row} (h : Covering rows pc i row next)
    (h' : Covering rows pc k row' next') (hrows : Sequenced rows sequences) : i = k := by
  obtain ⟨rfl, hsequences, hdisjoint⟩ := hrows
  induction sequences generalizing i k with
  | nil => cases h.row_eq
  | cons first rest ih =>
    have hfirst := hsequences first List.mem_cons_self
    have hrest : ∀ s ∈ rest, IsSequence s := fun s hs => hsequences s (List.mem_cons_of_mem _ hs)
    obtain ⟨hapart, hdisjoint⟩ := List.pairwise_cons.mp hdisjoint
    have hcross : ∀ {i k : Nat} {row next row' next' : Row}, Covering first pc i row next →
        ¬Covering rest.flatten pc k row' next' := by
      intro i k row next row' next' h h'
      obtain ⟨s, hs, hspans⟩ := h'.exists_spans hrest
      exact hapart s hs pc (h.spans hfirst) hspans
    rcases h.of_append hfirst with h | ⟨hi, h⟩ <;> rcases h'.of_append hfirst with h' | ⟨hk, h'⟩
    · exact h.unique_of_ordered h' hfirst.ordered
    · exact absurd h' (hcross h)
    · exact absurd h (hcross h')
    · have heq := ih hrest hdisjoint h h'
      omega

end Covering

end Row

namespace Machine

open Row (UpTo searchStart)
open Session (ofMachine)

variable {start : Machine} {rows : List Row} {sequences : List (List Row)}

/-- On sequences in any order a lookup finds the covering row exactly where no row behind the
address comes before it. -/
theorem seekPc_of_sequences {unit : CompileUnit} {bytes : Array UInt8} {settings : Settings}
    (hopen : ofUnit unit bytes settings = .ok (some start)) (hrows : start.rows.1 = rows.map .ok)
    (hsequences : Row.Sequenced rows sequences) (operations : List Operation) :
    let m := ((ofMachine start).after operations).machine
    ∃ j ≤ rows.length, m.table = rows.drop j ∧ ∀ pc, ∃ found m', seekPc pc m = .ok found m' ∧
      ((∀ s ∈ sequences, ¬Row.Spans s pc) → found = none) ∧
      ∀ i row next, Row.Covering rows pc i row next →
        (found = some row ↔
          searchStart rows pc j ≤ i ∧ UpTo rows pc (searchStart rows pc j) i) ∧
        (found ≠ some row → found = none) := by
  intro m
  have hstart := fresh_of_ofUnit hopen
  have herrors := errorFree_of_rows hrows
  obtain rfl := table_of_rows hrows
  obtain ⟨j, hj, hawaiting, hsought⟩ :=
    exists_sought hstart operations (failure_after_eq_none hstart herrors operations)
  refine ⟨j, hj, hawaiting.table_eq, fun pc => ?_⟩
  have hpc := hsought pc
  obtain ⟨found, m', ho⟩ := hpc.exists_ok herrors
  rw [ho] at hpc
  have hfound : ∀ other, found = some other → ∃ i next, Row.Covering start.table pc i other next ∧
      searchStart start.table pc j ≤ i ∧ UpTo start.table pc (searchStart start.table pc j) i := by
    rintro other rfl
    obtain ⟨i, next, hcovering, -, hle, hupTo⟩ := hpc.of_some
    exact ⟨i, next, hcovering, hle, fun l row hl hi => hupTo l row hl (by omega)⟩
  refine ⟨found, m', ho, fun hspans => ?_, fun i row next hcovering => ?_⟩
  · rw [Option.eq_none_iff_forall_ne_some]
    intro other hother
    obtain ⟨i, next, hcovering, -⟩ := hfound other hother
    obtain ⟨s, hs, hspan⟩ := (hsequences.rows_eq ▸ hcovering).exists_spans hsequences.isSequence
    exact hspans s hs hspan
  · have hsame : ∀ other, found = some other → other = row ∧
        searchStart start.table pc j ≤ i ∧
        UpTo start.table pc (searchStart start.table pc j) i := by
      intro other hother
      obtain ⟨k, next', hcovering', hle, hupTo⟩ := hfound other hother
      obtain rfl := hcovering.unique hcovering' hsequences
      exact ⟨Option.some.inj (hcovering'.row_eq.symm.trans hcovering.row_eq), hle, hupTo⟩
    refine ⟨⟨fun h => (hsame row h).2, fun ⟨hle, hupTo⟩ => ?_⟩, fun hne => ?_⟩
    · obtain ⟨_, hturn, -⟩ := hpc.of_turn herrors hle
        (hupTo.append (Row.upTo_one hcovering.row_eq hcovering.le)) hcovering.row_eq
        hcovering.next_eq hcovering.lt
      rw [EStateM.Result.ok.injEq, hcovering.endSequence_eq] at hturn
      exact hturn.1
    · rw [Option.eq_none_iff_forall_ne_some]
      rintro other hother
      exact hne ((hsame other hother).1 ▸ hother)

/-- Two sequences, of which the first has the higher addresses. -/
def falling : Assembly :=
  [.setAddress 0x20, .copy, .advancePc 4, .endSequence, .setAddress 0x10, .copy, .advancePc 4,
    .endSequence].foldl Assembly.emit Assembly.empty

def fallingSequences : List (List Row) :=
  [[(0x20, false), (0x24, true)], [(0x10, false), (0x14, true)]].map fun rows =>
    rows.map fun (address, endSequence) => { Row.initial true with address, endSequence }

theorem sequenced_falling : Row.Sequenced fallingSequences.flatten fallingSequences where
  rows_eq := rfl
  isSequence := by
    intro s hs
    rcases List.mem_pair.mp hs with rfl | rfl
    · exact ⟨by decide, _ :: [], _, rfl, rfl, by decide⟩
    · exact ⟨by decide, _ :: [], _, rfl, rfl, by decide⟩
  disjoint := by
    apply List.pairwise_pair.mpr
    intro pc hhigh hlow
    obtain ⟨first, _, hfirst, -, hle, -⟩ := hhigh
    obtain ⟨_, last, -, hlast, -, hlt⟩ := hlow
    cases hfirst
    cases hlast
    exact absurd (UInt64.lt_of_le_of_lt hle hlt) (by decide)

/-- A row is not found from the start, though it covers the address. -/
theorem seekPc_misses_falling :
    ∃ start m' row next, ofUnit (falling.unit 0) falling.encode.toArray .unset = .ok (some start) ∧
      start.rows.1 = fallingSequences.flatten.map .ok ∧
      Row.Sequenced fallingSequences.flatten fallingSequences ∧
      Row.Covering fallingSequences.flatten 0x11 2 row next ∧
      seekPc 0x11 ((ofMachine start).after []).machine = .ok none m' := by
  obtain ⟨start, hopen, hrows, hfound⟩ : ∃ start,
      ofUnit (falling.unit 0) falling.encode.toArray .unset = .ok (some start) ∧
      start.rows.1 = fallingSequences.flatten.map .ok ∧
      (seekPc 0x11 ((ofMachine start).after []).machine).answer = .ok none :=
    exists_of_opened (by decide +kernel)
  obtain ⟨m', hfound⟩ := EStateM.Result.exists_of_answer_ok hfound
  exact ⟨start, m', _, _, hopen, hrows, sequenced_falling,
    ⟨rfl, rfl, rfl, by decide, by decide⟩, hfound⟩

/-- Behind the first sequence the same row is found. -/
theorem seekPc_of_sequences_falling :
    ∃ start, ofUnit (falling.unit 0) falling.encode.toArray .unset = .ok (some start) ∧
      start.rows.1 = fallingSequences.flatten.map .ok ∧
      Row.Sequenced fallingSequences.flatten fallingSequences ∧
      ∃ m', seekPc 0x11 ((ofMachine start).after [.nextRow, .nextRow]).machine =
        .ok (some { Row.initial true with address := 0x10 }) m' := by
  obtain ⟨start, hopen, hrows, htable⟩ : ∃ start,
      ofUnit (falling.unit 0) falling.encode.toArray .unset = .ok (some start) ∧
      start.rows.1 = fallingSequences.flatten.map .ok ∧
      ((ofMachine start).after [.nextRow, .nextRow]).machine.table =
        fallingSequences.flatten.drop 2 := exists_of_opened (by decide +kernel)
  obtain ⟨j, hj, hrest, hlookup⟩ :=
    seekPc_of_sequences hopen hrows sequenced_falling [.nextRow, .nextRow]
  obtain ⟨found, m', hfound, -, hcovered⟩ := hlookup 0x11
  obtain rfl : j = 2 := by
    have hlen := congrArg List.length (hrest.symm.trans htable)
    simp only [List.length_drop] at hlen
    have hfour : fallingSequences.flatten.length = 4 := rfl
    omega
  have hsome := (hcovered 2 _ _ ⟨rfl, rfl, rfl, by decide, by decide⟩).1.mpr
    ⟨by decide, fun l row hl hlt => absurd hl (Nat.not_le.mpr hlt)⟩
  exact ⟨start, hopen, hrows, sequenced_falling, m', hsome ▸ hfound⟩

end Machine
end DebugLine
