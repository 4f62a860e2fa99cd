import DebugLine.Leb128
import DebugLine.Proofs.Reading

/-!
# Numbers of seven-bit groups

A scanner accepts exactly the runs of at most ten groups that fit in 64 bits, of which there are
several for each number. Writing a number gives one of them, so it is read back as it was.
-/

namespace DebugLine.Leb128

/-- The groups of one number, of which there may be `room`: all but the last continue, and the last
of that many is one that `top` allows. -/
inductive IsNumeral (top : UInt8 → Bool) : (room : Nat) → List UInt8 → Prop
  | last {room : Nat} {b : UInt8} (stops : continues b = false) (fits : room = 0 → top b = true) :
    IsNumeral top (room + 1) [b]
  | more {room : Nat} {b : UInt8} {bs : List UInt8} (goesOn : continues b = true)
      (rest : IsNumeral top (room + 1) bs) : IsNumeral top (room + 2) (b :: bs)

/-- The groups of an unsigned number of 64 bits. -/
def IsUnsigned (bytes : List UInt8) : Prop := IsNumeral unsignedTop maxGroups bytes

/-- The word that these groups stand for. -/
def unsignedWord (bytes : List UInt8) : UInt64 := UInt64.ofNat (unsignedValue bytes)

/-- No group that may stand last of all continues. -/
def Ends (top : UInt8 → Bool) : Prop := ∀ b, top b = true → continues b = false

/-- Only zero and one other group may stand last of all. -/
theorem ends_of_stops {top : UInt8} (h : continues top = false) :
    Ends fun b => b == 0 || b == top := by
  intro b hb
  simp only [Bool.or_eq_true, beq_iff_eq] at hb
  rcases hb with rfl | rfl
  · rfl
  · exact h

theorem unsignedTop_ends : Ends unsignedTop := ends_of_stops rfl

theorem signedTop_ends : Ends signedTop := ends_of_stops rfl

theorem payload_lt (b : UInt8) : payload b < 128 := Nat.mod_lt _ (by decide)

variable {top : UInt8 → Bool} {bytes ahead rest : List UInt8} {room width : Nat}

theorem IsNumeral.length_le (h : IsNumeral top room bytes) : bytes.length ≤ room := by
  induction h with
  | last => simp
  | more _ _ ih => exact Nat.succ_le_succ ih

theorem IsNumeral.length_pos (h : IsNumeral top room bytes) : 0 < bytes.length := by
  cases h <;> simp

theorem IsNumeral.groups_append (h : IsNumeral top room bytes) (rest : List UInt8) :
    groups top room (bytes ++ rest) = .done bytes bytes.length := by
  induction h with
  | @last room b stops fits =>
    simpa [groups, stops] using fits
  | @more room b bs goesOn _ ih => simp [groups, goesOn, ih, Scan.map, Scan.shift]

theorem IsNumeral.of_groups (htop : Ends top)
    (h : groups top (room + 1) ahead = .done bytes width) :
    IsNumeral top (room + 1) bytes ∧ width = bytes.length ∧ ∃ rest, ahead = bytes ++ rest := by
  induction ahead generalizing room bytes width with
  | nil => simp [groups] at h
  | cons b bs ih =>
    unfold groups at h
    split_ifs at h with hover hmore
    · cases room with
      | zero =>
        have hb : top b = true := by simpa using hover
        rw [htop b hb] at hmore
        cases hmore
      | succ room =>
        cases hrest : groups top (room + 1) bs with
        | stopped fault w => simp [hrest, Scan.map, Scan.shift] at h
        | done later w =>
          simp only [Nat.add_sub_cancel, hrest, Scan.map, Scan.shift, Scan.done.injEq] at h
          obtain ⟨hnumeral, hwidth, tail, hbs⟩ := ih hrest
          obtain ⟨rfl, rfl⟩ := h
          exact ⟨.more hmore hnumeral, by rw [hwidth, List.length_cons], tail, by rw [hbs]; rfl⟩
    · obtain ⟨rfl, rfl⟩ := Scan.done.inj h
      exact ⟨.last (by simpa using hmore) (by rintro rfl; simpa using hover), rfl, bs, rfl⟩

/-- A scanner for groups accepts exactly the runs of groups that form one number. -/
theorem groups_eq_done_iff (htop : Ends top) (hroom : 0 < room) :
    groups top room ahead = .done bytes width ↔
      IsNumeral top room bytes ∧ width = bytes.length ∧ ∃ rest, ahead = bytes ++ rest := by
  obtain ⟨room, rfl⟩ := Nat.exists_eq_add_one_of_ne_zero hroom.ne'
  constructor
  · exact IsNumeral.of_groups htop
  · rintro ⟨hnumeral, rfl, rest, rfl⟩
    exact hnumeral.groups_append rest

theorem payload_ofNat {n : Nat} (h : n < 256) : payload (UInt8.ofNat n) = n % 128 := by
  rw [payload, UInt8.toNat_ofNat_of_lt' h]

theorem continues_ofNat {n : Nat} (h : n < 256) :
    continues (UInt8.ofNat n) = decide (128 ≤ n) := by
  rw [continues, UInt8.toNat_ofNat_of_lt' h]

theorem isNumeral_unsignedGroups {n : Nat} (hn : n < 128 ^ room * 2) :
    IsNumeral unsignedTop (room + 1) (unsignedGroups (room + 1) n) := by
  induction room generalizing n with
  | zero =>
    rw [unsignedGroups, if_pos (by omega)]
    refine .last (by rw [continues_ofNat (by omega)]; simp; omega) fun _ => ?_
    have hn' : n = 0 ∨ n = 1 := by omega
    rcases hn' with rfl | rfl <;> rfl
  | succ room ih =>
    rw [unsignedGroups]
    split_ifs with h
    · exact .last (by rw [continues_ofNat (by omega)]; simp; omega) nofun
    · refine .more (by rw [continues_ofNat (by omega)]; simp) (ih ?_)
      rw [Nat.pow_succ] at hn
      omega

theorem unsignedValue_unsignedGroups {n : Nat} (hn : n < 128 ^ room) :
    unsignedValue (unsignedGroups room n) = n := by
  induction room generalizing n with
  | zero =>
    obtain rfl : n = 0 := by simpa using hn
    rfl
  | succ room ih =>
    rw [unsignedGroups]
    split_ifs with h
    · rw [unsignedValue, unsignedValue, payload_ofNat (by omega)]
      omega
    · rw [Nat.pow_succ] at hn
      rw [unsignedValue, payload_ofNat (by omega), ih (by omega)]
      omega

theorem isUnsigned_encodeUnsigned (n : UInt64) : IsUnsigned (encodeUnsigned n) :=
  isNumeral_unsignedGroups n.toNat_lt

@[simp] theorem unsignedWord_encodeUnsigned (n : UInt64) : unsignedWord (encodeUnsigned n) = n := by
  rw [unsignedWord, encodeUnsigned, unsignedValue_unsignedGroups (n.toNat_lt.trans (by decide)),
    UInt64.ofNat_toNat]

theorem isNumeral_signedGroups {n : Int} (hlow : -(128 ^ room : Nat) ≤ n)
    (hhigh : n < (128 ^ room : Nat)) :
    IsNumeral signedTop (room + 1) (signedGroups (room + 1) n) := by
  induction room generalizing n with
  | zero =>
    have hn : n = -1 ∨ n = 0 := by simp at hlow hhigh; omega
    rcases hn with rfl | rfl <;> exact .last rfl fun _ => rfl
  | succ room ih =>
    rw [Nat.pow_succ] at hlow hhigh
    rw [signedGroups]
    split_ifs with h
    · exact .last (by rw [continues_ofNat (by omega)]; simp; omega) nofun
    · exact .more (by rw [continues_ofNat (by omega)]; simp) (ih (by omega) (by omega))

theorem signedGroups_ne_nil (room : Nat) (n : Int) : signedGroups (room + 1) n ≠ [] := by
  rw [signedGroups]
  split_ifs <;> simp

/-- The sign stands in the last group, so a group in front of it counts as in any number. -/
theorem signedValue_cons {b : UInt8} (h : bytes ≠ []) :
    signedValue (b :: bytes) = payload b + 128 * signedValue bytes := by
  have hnegative : isNegative (b :: bytes) = isNegative bytes := by
    simp [isNegative, List.getLast?_cons, List.getLast?_eq_some_getLast h]
  rw [signedValue, signedValue, hnegative]
  split_ifs
  · simp only [unsignedValue, List.length_cons, Int.pow_eq, pow_succ]
    push_cast
    ring
  · simp [unsignedValue]

theorem signedValue_signedGroups {n : Int} (hlow : -(128 ^ room : Nat) ≤ n)
    (hhigh : n < (128 ^ room : Nat)) : signedValue (signedGroups (room + 1) n) = n := by
  induction room generalizing n with
  | zero =>
    have hn : n = -1 ∨ n = 0 := by simp at hlow hhigh; omega
    rcases hn with rfl | rfl <;> rfl
  | succ room ih =>
    rw [Nat.pow_succ] at hlow hhigh
    rw [signedGroups]
    split_ifs with h
    · have hpayload : payload (UInt8.ofNat (n % 128).toNat) = (n % 128).toNat := by
        rw [payload_ofNat (by omega)]
        omega
      simp only [signedValue, isNegative, List.getLast?_singleton, hpayload, unsignedValue,
        decide_eq_true_eq, List.length_singleton, Int.pow_eq, pow_one]
      split_ifs <;> omega
    · rw [signedValue_cons (signedGroups_ne_nil room _), ih (by omega) (by omega),
        payload_ofNat (by omega)]
      omega

theorem isNumeral_encodeSigned (n : Int64) : IsNumeral signedTop maxGroups (encodeSigned n) :=
  isNumeral_signedGroups n.le_toInt n.toInt_lt

@[simp] theorem signedValue_encodeSigned (n : Int64) : signedValue (encodeSigned n) = n.toInt :=
  signedValue_signedGroups n.le_toInt n.toInt_lt

end DebugLine.Leb128
