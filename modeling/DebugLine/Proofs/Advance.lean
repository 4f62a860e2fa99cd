import DebugLine.Proofs.Replacement
import Mathlib.Data.UInt

/-!
# Moving on is additive

The operations behind the address carry over into instructions, as digits do. So what the registers
come to depends on the sum of the operations alone, as long as the count of operations stays within
a word. Where instructions hold single operations nothing carries over, and words may wrap.
-/

namespace DebugLine

namespace Row

variable {p : LineParameters} {r : Row}

/-- The registers `operations` further on. All but the address and the operation stay. -/
def movedOn (p : LineParameters) (operations : Nat) (r : Row) : Row :=
  { r with
    address := r.address + UInt64.ofNat (p.minimumInstructionLength.toNat *
      ((r.opIndex.toNat + operations) / p.maximumOperations.toNat))
    opIndex := UInt64.ofNat ((r.opIndex.toNat + operations) % p.maximumOperations.toNat) }

/-- There is room to count so many operations further, or nothing to count them in. -/
def Counts (p : LineParameters) (operations : Nat) (r : Row) : Prop :=
  p.maximumOperations = 1 ∨ r.opIndex.toNat + operations < UInt64.size

theorem Counts.mono {n k : Nat} (h : r.Counts p n) (hk : k ≤ n) : r.Counts p k := by
  rcases h with hsingle | hroom
  · exact .inl hsingle
  · exact .inr ((Nat.add_le_add_left hk _).trans_lt hroom)

theorem advance_of_single (hsingle : p.maximumOperations = 1) (operations : UInt64) (r : Row) :
    r.advance p operations =
      { r with
        address := r.address + p.minimumInstructionLength.toUInt64 * (r.opIndex + operations)
        opIndex := 0 } := by
  have hquotient (n : UInt64) : n / (1 : UInt8).toUInt64 = n :=
    UInt64.toNat_inj.mp (Nat.div_one _)
  have hremainder (n : UInt64) : n % (1 : UInt8).toUInt64 = 0 :=
    UInt64.toNat_inj.mp (Nat.mod_one _)
  simp only [advance, hsingle, hquotient, hremainder]

theorem advance_eq_movedOn {operations : UInt64} (h : r.Counts p operations.toNat) :
    r.advance p operations = r.movedOn p operations.toNat := by
  rcases h with hsingle | hroom
  · simp [advance_of_single hsingle, movedOn, hsingle, Nat.mod_one, UInt64.ofNat_mul,
      UInt64.ofNat_add]
  · have hmost : p.maximumOperations.toNat < UInt64.size :=
      p.maximumOperations.toNat_lt.trans (by decide)
    simp only [movedOn, UInt64.ofNat_mul, UInt64.ofNat_div hroom hmost,
      UInt64.ofNat_mod hroom hmost, UInt64.ofNat_add, UInt64.ofNat_toNat, UInt64.ofNat_uInt8ToNat]
    rfl

theorem Counts.remainder_lt {n : Nat} (h : r.Counts p n) :
    (r.opIndex.toNat + n) % p.maximumOperations.toNat < UInt64.size := by
  rcases h with hsingle | hroom
  · rw [hsingle]
    exact (Nat.mod_lt _ (by decide)).trans (by decide)
  · exact (Nat.mod_le _ _).trans_lt hroom

/-- What is left over of the first operations carries over into the second. -/
theorem div_add_div_mod (first second size : Nat) :
    first / size + (first % size + second) / size = (first + second) / size := by
  rcases Nat.eq_zero_or_pos size with rfl | hsize
  · simp
  · calc first / size + (first % size + second) / size
      _ = (size * (first / size) + (first % size + second)) / size :=
        (Nat.mul_add_div hsize _ _).symm
      _ = (first + second) / size := by rw [← Nat.add_assoc, Nat.div_add_mod]

theorem movedOn_movedOn {a : Nat} (h : r.Counts p a) (b : Nat) :
    (r.movedOn p a).movedOn p b = r.movedOn p (a + b) := by
  have hindex : (r.movedOn p a).opIndex.toNat =
      (r.opIndex.toNat + a) % p.maximumOperations.toNat :=
    UInt64.toNat_ofNat_of_lt' h.remainder_lt
  calc (r.movedOn p a).movedOn p b
    _ = { r with
          address := r.address +
            UInt64.ofNat (p.minimumInstructionLength.toNat *
              ((r.opIndex.toNat + a) / p.maximumOperations.toNat)) +
            UInt64.ofNat (p.minimumInstructionLength.toNat *
              (((r.opIndex.toNat + a) % p.maximumOperations.toNat + b) /
                p.maximumOperations.toNat))
          opIndex := UInt64.ofNat
            (((r.opIndex.toNat + a) % p.maximumOperations.toNat + b) %
              p.maximumOperations.toNat) } := by
      rw [movedOn, hindex]
      rfl
    _ = r.movedOn p (a + b) := by
      rw [UInt64.add_assoc, ← UInt64.ofNat_add, ← Nat.mul_add, div_add_div_mod, Nat.mod_add_mod,
        Nat.add_assoc]
      rfl

theorem advance_zero (h : r.opIndex.toNat < p.maximumOperations.toNat) : r.advance p 0 = r := by
  have hroom : r.opIndex.toNat + (0 : UInt64).toNat < UInt64.size := r.opIndex.toNat_lt
  rw [advance_eq_movedOn (.inr hroom), movedOn]
  simp [Nat.div_eq_of_lt h, Nat.mod_eq_of_lt h]

theorem advance_advance {a b : UInt64} (h : r.Counts p (a.toNat + b.toNat)) :
    (r.advance p a).advance p b = r.advance p (a + b) := by
  rcases h with hsingle | hroom
  · simp [advance_of_single hsingle, UInt64.mul_add, UInt64.add_assoc]
  · have hsum : (a + b).toNat = a.toNat + b.toNat := by
      rw [UInt64.toNat_add, Nat.mod_eq_of_lt (by simp only [UInt64.size] at hroom; omega)]
    have hfirst : r.Counts p a.toNat := .inr (by omega)
    have hindex : (r.movedOn p a.toNat).opIndex.toNat ≤ r.opIndex.toNat + a.toNat :=
      (UInt64.toNat_ofNat_of_lt' hfirst.remainder_lt).trans_le (Nat.mod_le _ _)
    have hsecond : (r.movedOn p a.toNat).Counts p b.toNat := .inr (by omega)
    calc (r.advance p a).advance p b
      _ = (r.movedOn p a.toNat).movedOn p b.toNat := by
        rw [advance_eq_movedOn hfirst, advance_eq_movedOn hsecond]
      _ = r.movedOn p (a.toNat + b.toNat) := movedOn_movedOn hfirst _
      _ = r.advance p (a + b) := by
        rw [advance_eq_movedOn (.inr (by omega)), hsum]

theorem toNat_sum_le (counts : List UInt64) :
    counts.sum.toNat ≤ (counts.map UInt64.toNat).sum := by
  induction counts with
  | nil => exact le_rfl
  | cons first counts ih =>
    rw [List.sum_cons, List.map_cons, List.sum_cons, UInt64.toNat_add]
    exact (Nat.mod_le _ _).trans (Nat.add_le_add_left ih _)

theorem executeAll_advances {counts : List UInt64} (hne : counts ≠ [])
    (h : r.Counts p (counts.map UInt64.toNat).sum) :
    executeAll p (counts.map .advancePc) r = (r.advance p counts.sum, []) := by
  induction counts using List.reverseRecOn with
  | nil => exact absurd rfl hne
  | append_singleton counts last ih =>
    rw [List.map_append, List.sum_append, List.map_singleton, List.sum_singleton] at h
    rw [List.map_append, executeAll_append, List.sum_append, List.sum_singleton]
    cases counts with
    | nil => simp [executeAll, execute]
    | cons first counts =>
      have hsum : r.Counts p ((first :: counts).sum.toNat + last.toNat) :=
        h.mono (Nat.add_le_add_right (toNat_sum_le _) _)
      rw [ih (List.cons_ne_nil _ _) (h.mono (Nat.le_add_right _ _)), ← advance_advance hsum]
      rfl

/-- Both lists of advances are counted, and they come to the same sum. -/
structure SameSum (p : LineParameters) (r : Row) (counts counts' : List UInt64) : Prop where
  ne_nil : counts ≠ []
  ne_nil' : counts' ≠ []
  counted : r.Counts p (counts.map UInt64.toNat).sum
  counted' : r.Counts p (counts'.map UInt64.toNat).sum
  sum_eq : counts'.sum = counts.sum

theorem SameSum.executeAll_eq {counts counts' : List UInt64} (h : SameSum p r counts counts') :
    executeAll p (counts'.map .advancePc) r = executeAll p (counts.map .advancePc) r := by
  rw [executeAll_advances h.ne_nil h.counted, executeAll_advances h.ne_nil' h.counted', h.sum_eq]

/-- Moving on by nothing changes nothing, and moving on twice is moving on once by the sum. Where it
goes is told by division, whatever wraps in the address. So no row tells how a program splits the
sum of the advances that it makes one after another. -/
theorem advance_additive :
    (∀ (p : LineParameters) (r : Row), r.opIndex.toNat < p.maximumOperations.toNat →
      r.advance p 0 = r) ∧
    (∀ (p : LineParameters) (r : Row) (operations : UInt64), r.Counts p operations.toNat →
      r.advance p operations = r.movedOn p operations.toNat) ∧
    (∀ (p : LineParameters) (r : Row) (a b : UInt64), r.Counts p (a.toNat + b.toNat) →
      (r.advance p a).advance p b = r.advance p (a + b)) ∧
    (∀ (p : LineParameters) (r : Row) (before after : List Instruction)
      (counts counts' : List UInt64), SameSum p (executeAll p before r).1 counts counts' →
      executeAll p (before ++ counts'.map .advancePc ++ after) r =
        executeAll p (before ++ counts.map .advancePc ++ after) r) ∧
    ∀ (unit : CompileUnit) (settings : Settings) (x : Replacement unit settings)
      (counts counts' : List UInt64), SameSum x.parameters x.registers counts counts' →
      x.oldInstructions = counts.map .advancePc → x.newInstructions = counts'.map .advancePc →
      x.GivesAlike := by
  refine ⟨fun p r => advance_zero, fun p r operations => advance_eq_movedOn,
    fun p r a b => advance_advance, fun p r before after counts counts' hsame => ?_,
    fun unit settings x counts counts' hsame hold hnew => ?_⟩
  · exact executeAll_of_replaced hsame.executeAll_eq after
  · apply x.givesAlike
    rw [hold, hnew]
    exact hsame.executeAll_eq

/-- Bundles of three operations of four bytes each, and a program whose stretch moves on twice. -/
theorem advance_additive_bundled :
    let p : LineParameters := ⟨4, 3, true, -3, 12, 14⟩
    let r : Row := { Row.initial true with opIndex := 2 }
    r.opIndex.toNat < p.maximumOperations.toNat ∧ r.advance p 0 = r ∧
      r.Counts p (5 + 6) ∧ r.advance p 11 = r.movedOn p 11 ∧
      r.movedOn p 11 = { r with address := 16, opIndex := 1 } ∧
      (r.advance p 5).advance p 6 = r.advance p 11 ∧
      SameSum p { r with column := 3 } [5, 6] [11] ∧
      executeAll p [.setColumn 3, .advancePc 11, .copy] r =
        executeAll p [.setColumn 3, .advancePc 5, .advancePc 6, .copy] r ∧
      ∃ x : Replacement Replacement.spacedUnit .unset,
        x.old = [2, 5, 2, 6] ∧ x.oldInstructions = [.advancePc 5, .advancePc 6] ∧
        x.new = [2, 11] ∧ x.newInstructions = [.advancePc 11] ∧
        SameSum x.parameters x.registers [5, 6] [11] ∧ x.GivesAlike := by
  intro p r
  obtain ⟨hzero, hmoved, hadds, hregrouped, hreplaced⟩ := advance_additive
  have hlt : r.opIndex.toNat < p.maximumOperations.toNat := by decide
  have hroom : r.Counts p (5 + 6) := .inr (by decide)
  have hsame : SameSum p { r with column := 3 } [5, 6] [11] :=
    ⟨nofun, nofun, hroom, hroom, rfl⟩
  have hold (t : FileTable) :
      (UnitLayout.spaced.coding Replacement.spacedUnit).SpellsAll t
        ([2, 5] ++ ([2, 6] ++ [])) [(.advancePc 5, []), (.advancePc 6, [])] :=
    .cons (.known .advancePc (by decide) ⟨.last rfl nofun, rfl⟩)
      (.cons (.known .advancePc (by decide) ⟨.last rfl nofun, rfl⟩) .nil)
  have hnew (t : FileTable) :
      (UnitLayout.spaced.coding Replacement.spacedUnit).SpellsAll t
        ([2, 11] ++ []) [(.advancePc 11, [])] :=
    .cons (.known .advancePc (by decide) ⟨.last rfl nofun, rfl⟩) .nil
  let x := Replacement.betweenRows _ _ [.advancePc 5, .advancePc 6] [.advancePc 11] (by decide)
    (by decide) hold hnew
  have hsame' : SameSum x.parameters x.registers [5, 6] [11] :=
    ⟨nofun, nofun, .inl rfl, .inl rfl, rfl⟩
  exact ⟨hlt, hzero p r hlt, hroom, hmoved p r 11 hroom, by decide, hadds p r 5 6 hroom,
    hsame, hregrouped p r [.setColumn 3] [.copy] [5, 6] [11] hsame,
    x, rfl, rfl, rfl, rfl, hsame', hreplaced _ _ x [5, 6] [11] hsame' rfl rfl⟩

end Row
end DebugLine
