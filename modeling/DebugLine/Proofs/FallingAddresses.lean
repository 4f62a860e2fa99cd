import DebugLine.Proofs.Coverage
import DebugLine.Proofs.Listing
import DebugLine.Proofs.RowMeaning

/-!
# Where addresses go down

Within a sequence the address goes up, except where it is set to a lower one or leaves the words of
64 bits. So between a row and a row of its sequence at a lower address there is an instruction that
does either.
-/

namespace DebugLine

/-- The address that `operations` more lead to, if nothing wrapped. -/
def Row.exactAddress (p : LineParameters) (operations : Nat) (r : Row) : Nat :=
  r.address.toNat + p.minimumInstructionLength.toNat *
    ((r.opIndex.toNat + operations) / p.maximumOperations.toNat)

/-- Whether the instruction sets the address to a lower one, or moves it on out of 64 bits. -/
def Instruction.turnsBack (p : LineParameters) (r : Row) : Instruction → Bool
  | setAddress address => address < r.address
  | advancePc operations => UInt64.size ≤ r.exactAddress p operations.toNat
  | special opcode =>
    UInt64.size ≤ r.exactAddress p ((opcode.toNat - p.opcodeBase.toNat) / p.lineRange.toNat)
  | constAddPc =>
    UInt64.size ≤ r.exactAddress p ((255 - p.opcodeBase.toNat) / p.lineRange.toNat)
  | fixedAddPc delta => UInt64.size ≤ r.address.toNat + delta.toNat
  | _ => false

namespace Row

variable {p : LineParameters} {r row : Row} {i : Instruction} {l : List Instruction} {k count : Nat}

/-- An instruction that is executed behind `count` rows turns the address back. -/
def TurnsBackAfter (p : LineParameters) (l : List Instruction) (r : Row) (count : Nat) : Prop :=
  ∃ n : Fin l.length, (executeAll p (l.take n) r).2.length = count ∧
    l[n].turnsBack p (executeAll p (l.take n) r).1 = true

instance : Decidable (TurnsBackAfter p l r count) :=
  inferInstanceAs (Decidable (∃ _ : Fin l.length, _ ∧ _))

theorem TurnsBackAfter.of_append (passed : List Instruction) {rest : List Instruction}
    (h : i.turnsBack p (executeAll p passed r).1 = true) :
    TurnsBackAfter p (passed ++ i :: rest) r (executeAll p passed r).2.length := by
  refine ⟨⟨passed.length, by simp⟩, ?_⟩
  simpa using h

theorem TurnsBackAfter.append (passed : List Instruction) {rest : List Instruction}
    (h : TurnsBackAfter p rest (executeAll p passed r).1 count) :
    TurnsBackAfter p (passed ++ rest) r ((executeAll p passed r).2.length + count) := by
  obtain ⟨n, hcount, hturns⟩ := h
  refine ⟨⟨passed.length + n, by simp⟩, ?_⟩
  simpa [executeAll_append, hcount, List.take_length_add_append] using hturns

theorem le_add_of_lt {a b : UInt64} (h : a.toNat + b.toNat < UInt64.size) : a ≤ a + b := by
  rw [UInt64.le_iff_toNat_le, UInt64.toNat_add, Nat.mod_eq_of_lt h]
  exact Nat.le_add_right _ _

/-- An advance that stays within 64 bits does not go down. The count of operations may wrap all the
same, which only makes the advance shorter. -/
theorem address_le_advance {operations : UInt64}
    (h : r.exactAddress p operations.toNat < UInt64.size) :
    r.address ≤ (r.advance p operations).address := by
  have hindex : (r.opIndex + operations).toNat ≤ r.opIndex.toNat + operations.toNat := by
    rw [UInt64.toNat_add]
    exact Nat.mod_le _ _
  apply le_add_of_lt
  calc r.address.toNat + (p.minimumInstructionLength.toUInt64 *
        ((r.opIndex + operations) / p.maximumOperations.toUInt64)).toNat
    _ ≤ r.address.toNat + p.minimumInstructionLength.toNat *
        ((r.opIndex + operations).toNat / p.maximumOperations.toNat) := by
      rw [UInt64.toNat_mul, UInt64.toNat_div, UInt8.toNat_toUInt64, UInt8.toNat_toUInt64]
      exact Nat.add_le_add_left (Nat.mod_le _ _) _
    _ ≤ r.exactAddress p operations.toNat :=
      Nat.add_le_add_left (Nat.mul_le_mul_left _ (Nat.div_le_div_right hindex)) _
    _ < UInt64.size := h

theorem address_le_execute (h : i.turnsBack p r = false) (hi : i ≠ .endSequence) :
    r.address ≤ (execute p i r).1.address := by
  cases i with
  | endSequence => exact absurd rfl hi
  | setAddress address => exact UInt64.not_lt.mp (of_decide_eq_false h)
  | advancePc operations => exact address_le_advance (Nat.not_le.mp (of_decide_eq_false h))
  | special opcode =>
    have hexact := Nat.not_le.mp (of_decide_eq_false h)
    rw [← toNat_specialAdvance] at hexact
    exact address_le_advance hexact
  | constAddPc =>
    have hexact : r.exactAddress p ((UInt8.toNat 255 - p.opcodeBase.toNat) / p.lineRange.toNat) <
        UInt64.size := Nat.not_le.mp (of_decide_eq_false h)
    rw [← toNat_specialAdvance, ← constAddPcAdvance_eq_specialAdvance] at hexact
    exact address_le_advance hexact
  | fixedAddPc delta => exact le_add_of_lt (Nat.not_le.mp (of_decide_eq_false h))
  | _ => exact UInt64.le_refl _

theorem address_of_emitted (hrow : (execute p i r).2 = some row) (hlast : row.endSequence = false) :
    (execute p i r).1.address = row.address := by
  cases i <;> cases hrow <;> first | rfl | cases hlast

theorem address_le_emitted (h : i.turnsBack p r = false) (hrow : (execute p i r).2 = some row) :
    r.address ≤ row.address := by
  cases i with
  | endSequence =>
    cases hrow
    exact UInt64.le_refl _
  | special opcode =>
    cases hrow
    exact address_le_execute h nofun
  | copy =>
    cases hrow
    exact UInt64.le_refl _
  | _ => cases hrow

theorem exists_emitted (hrow : (executeAll p l r).2[k]? = some row) :
    ∃ passed i rest, l = passed ++ i :: rest ∧ (executeAll p passed r).2.length = k ∧
      (execute p i (executeAll p passed r).1).2 = some row := by
  induction l generalizing r k with
  | nil => cases hrow
  | cons i l ih =>
    have hsplit : (executeAll p (i :: l) r).2 =
        (execute p i r).2.toList ++ (executeAll p l (execute p i r).1).2 := rfl
    rw [hsplit, List.getElem?_append] at hrow
    split_ifs at hrow with hk
    · have hemitted : (execute p i r).2 = some row :=
        Option.mem_toList.mp (List.mem_of_getElem? hrow)
      rw [hemitted, Option.toList_some, List.length_singleton] at hk
      exact ⟨[], i, l, rfl, (Nat.lt_one_iff.mp hk).symm, hemitted⟩
    · obtain ⟨passed, j, rest, rfl, hcount, hj⟩ := ih hrow
      refine ⟨i :: passed, j, rest, rfl, ?_, hj⟩
      rw [executeAll, List.length_append, hcount]
      omega

theorem turnsBackAfter_zero (hrow : (executeAll p l r).2[0]? = some row)
    (hlt : row.address < r.address) : TurnsBackAfter p l r 0 := by
  induction l generalizing r with
  | nil => cases hrow
  | cons i l ih =>
    cases hturns : i.turnsBack p r with
    | true => exact TurnsBackAfter.of_append [] hturns
    | false =>
      cases hemitted : (execute p i r).2 with
      | some first =>
        have hfirst : first = row := by simpa [executeAll, hemitted] using hrow
        rw [hfirst] at hemitted
        exact absurd (address_le_emitted hturns hemitted) (UInt64.not_le.mpr hlt)
      | none =>
        have hi : i ≠ .endSequence := by
          rintro rfl
          cases hemitted
        have hle := address_le_execute hturns hi
        have hrest : (executeAll p l (execute p i r).1).2[0]? = some row := by
          simpa [executeAll, hemitted] using hrow
        have hlater := TurnsBackAfter.append [i] (ih hrest (UInt64.lt_of_lt_of_le hlt hle))
        simpa [executeAll, hemitted] using hlater

theorem turnsBackAfter_of_falls {next : Row} (hrow : (executeAll p l r).2[k]? = some row)
    (hnext : (executeAll p l r).2[k + 1]? = some next) (hlast : row.endSequence = false)
    (hlt : next.address < row.address) : TurnsBackAfter p l r (k + 1) := by
  obtain ⟨passed, i, rest, rfl, hcount, hemitted⟩ := exists_emitted hrow
  have hfront : executeAll p (passed ++ [i]) r =
      ((execute p i (executeAll p passed r).1).1, (executeAll p passed r).2 ++ [row]) := by
    simp [executeAll_append, executeAll, hemitted]
  have hlength : (executeAll p (passed ++ [i]) r).2.length = k + 1 := by simp [hfront, hcount]
  rw [List.append_cons, executeAll_append, List.getElem?_append_right hlength.le, hlength,
    Nat.sub_self] at hnext
  -- The row is still in the registers when the instructions behind it are executed.
  rw [← address_of_emitted hemitted hlast] at hlt
  have hbehind : TurnsBackAfter p rest (executeAll p (passed ++ [i]) r).1 0 :=
    turnsBackAfter_zero hnext (by rw [hfront]; exact hlt)
  have hwhole := hbehind.append (passed ++ [i])
  rwa [← List.append_cons, hlength] at hwhole

theorem address_le_of_not_turnsBack {n : Nat} (hnk : n ≤ k)
    (hturns : ∀ count, n < count → count ≤ k → ¬TurnsBackAfter p l r count)
    (hsequence : ∀ j, n ≤ j → j < k → ∀ held, (executeAll p l r).2[j]? = some held →
      held.endSequence = false) {next : Row} (hrow : (executeAll p l r).2[n]? = some row)
    (hnext : (executeAll p l r).2[k]? = some next) : row.address ≤ next.address := by
  induction k, hnk using Nat.le_induction generalizing next with
  | base =>
    cases hrow.symm.trans hnext
    exact UInt64.le_refl _
  | succ k hnk ih =>
    have hk : k < (executeAll p l r).2.length :=
      (Nat.lt_succ_self k).trans (List.getElem?_eq_some_iff.mp hnext).1
    have hheld := List.getElem?_eq_getElem hk
    have hle := ih (fun count hn hcount => hturns count hn (Nat.le_succ_of_le hcount))
      (fun j hn hj => hsequence j hn (Nat.lt_succ_of_lt hj)) hheld
    by_contra hlt
    have hfalls := UInt64.lt_of_lt_of_le (UInt64.not_le.mp hlt) hle
    exact hturns (k + 1) (Nat.lt_succ_of_le hnk) le_rfl (turnsBackAfter_of_falls hheld hnext
      (hsequence k hnk (Nat.lt_succ_self k) _ hheld) hfalls)

end Row

namespace Machine

variable {m : Machine} {k : Nat} {row : Row}

theorem getElem?_executeAll (hm : m.failure = none) (hrow : m.rows.1[k]? = some (.ok row)) :
    (Row.executeAll m.header.toLineParameters m.instructions m.registers).2[k]? = some row := by
  rw [rows_eq_listed hm, listedItems, List.getElem?_append] at hrow
  split_ifs at hrow with hk
  · simpa using hrow
  · have hfailure := List.mem_of_getElem? hrow
    simp at hfailure

end Machine

open Row (executeAll TurnsBackAfter)

/-- The address goes down between two rows of a sequence only if an instruction between them sets
it to a lower one or moves it on out of 64 bits. Without such instructions the rows are in order. -/
theorem addresses_fall_by_turning_back :
    (∀ (p : LineParameters) (l : List Instruction) (r : Row) (k : Nat) (row next : Row),
      (executeAll p l r).2[k]? = some row → (executeAll p l r).2[k + 1]? = some next →
      row.endSequence = false → next.address < row.address → TurnsBackAfter p l r (k + 1)) ∧
    (∀ (p : LineParameters) (l : List Instruction) (r : Row) (n k : Nat) (row next : Row), n ≤ k →
      (∀ count, n < count → count ≤ k → ¬TurnsBackAfter p l r count) →
      (∀ j, n ≤ j → j < k → ∀ held, (executeAll p l r).2[j]? = some held →
        held.endSequence = false) →
      (executeAll p l r).2[n]? = some row → (executeAll p l r).2[k]? = some next →
      row.address ≤ next.address) ∧
    ∀ (unit : CompileUnit) (bytes : Array UInt8) (settings : Settings) (start : Machine),
      Machine.ofUnit unit bytes settings = .ok (some start) →
      ∀ (k : Nat) (row next : Row), start.rows.1[k]? = some (.ok row) →
        start.rows.1[k + 1]? = some (.ok next) → row.endSequence = false →
        next.address < row.address → TurnsBackAfter start.header.toLineParameters
          start.instructions (Row.initial start.header.defaultIsStmt) (k + 1) := by
  refine ⟨fun p l r k row next => Row.turnsBackAfter_of_falls,
    fun p l r n k row next hnk hturns hsequence =>
      Row.address_le_of_not_turnsBack hnk hturns hsequence,
    fun unit bytes settings start hopen k row next hrow hnext => ?_⟩
  have hstart := Machine.fresh_of_ofUnit hopen
  rw [hstart.registers_eq]
  exact Row.turnsBackAfter_of_falls (Machine.getElem?_executeAll hstart.sound hrow)
    (Machine.getElem?_executeAll hstart.sound hnext)

/-- The address is set to a lower one behind the first row, and moves up behind the second. -/
theorem addresses_fall_by_turning_back_disordered :
    let p : LineParameters := ⟨1, 1, true, -5, 14, 13⟩
    let l : List Instruction := [.setAddress 0x30, .copy, .setAddress 0x10, .copy, .defineFile 2,
      .setFile 2, .advancePc 8, .copy]
    let high := { Row.initial true with address := 0x30 }
    let low := { Row.initial true with address := 0x10 }
    let last := { Row.initial true with address := 0x18, fileIndex := 2 }
    (executeAll p l (Row.initial true)).2 = [high, low, last] ∧
      TurnsBackAfter p l (Row.initial true) 1 ∧
      ¬TurnsBackAfter p l (Row.initial true) 2 ∧ low.address ≤ last.address ∧
      ∃ start, Machine.ofUnit (Machine.disordered.unit 0) Machine.disordered.encode.toArray
          .unset = .ok (some start) ∧
        start.rows.1.take 2 = [.ok high, .ok low] ∧ start.instructions = l ∧
        TurnsBackAfter start.header.toLineParameters start.instructions
          (Row.initial start.header.defaultIsStmt) 1 := by
  intro p l high low last
  obtain ⟨hfalls, hordered, hopened⟩ := addresses_fall_by_turning_back
  have hrows : (executeAll p l (Row.initial true)).2 = [high, low, last] := by decide
  have hstill : ¬TurnsBackAfter p l (Row.initial true) 2 := by decide
  have hturned : TurnsBackAfter p l (Row.initial true) 1 :=
    hfalls p l _ 0 high low (by rw [hrows]; rfl) (by rw [hrows]; rfl) rfl (by decide)
  have hrising : low.address ≤ last.address := by
    refine hordered p l (Row.initial true) 1 2 low last (by decide) (fun count hn hk => ?_)
      (fun j hn hk held hheld => ?_) (by rw [hrows]; rfl) (by rw [hrows]; rfl)
    · obtain rfl : count = 2 := by omega
      exact hstill
    · obtain rfl : j = 1 := by omega
      rw [hrows] at hheld
      cases hheld
      rfl
  obtain ⟨start, hopen, htaken, hinstructions⟩ : ∃ start,
      Machine.ofUnit (Machine.disordered.unit 0) Machine.disordered.encode.toArray .unset =
        .ok (some start) ∧
      start.rows.1.take 2 = [.ok high, .ok low] ∧ start.instructions = l :=
    Machine.exists_of_opened (by decide +kernel)
  have hhigh : start.rows.1[0]? = some (.ok high) := by
    rw [← List.getElem?_take_of_lt (show 0 < 2 by decide), htaken]
    rfl
  have hlow : start.rows.1[0 + 1]? = some (.ok low) := by
    rw [← List.getElem?_take_of_lt (show 0 + 1 < 2 by decide), htaken]
    rfl
  exact ⟨hrows, hturned, hstill, hrising, start, hopen, htaken, hinstructions,
    hopened _ _ _ start hopen 0 high low hhigh hlow rfl (by decide)⟩

end DebugLine
