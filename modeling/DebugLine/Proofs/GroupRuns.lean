import DebugLine.Proofs.Numerals

/-!
# Runs of groups

The first byte that does not continue ends a run of groups, so at one place there starts no more
than one run. A number is a run that fits its room. Where bytes start with no number, either groups
that continue fill the room up to a last one that is not allowed there, or the bytes end while they
still continue. What a number stands for is the sum of its groups at their places.
-/

namespace DebugLine.Leb128

/-- All bytes but the last continue. -/
inductive IsRun : List UInt8 → Prop
  | last {b : UInt8} (stops : continues b = false) : IsRun [b]
  | more {b : UInt8} {bs : List UInt8} (goesOn : continues b = true) (rest : IsRun bs) :
      IsRun (b :: bs)

/-- None of these bytes ends a run. -/
def AllContinue (bytes : List UInt8) : Prop := ∀ b ∈ bytes, continues b = true

variable {top : UInt8 → Bool} {bytes others ahead front rest rest' : List UInt8} {b : UInt8}
  {room width : Nat}

@[simp] theorem allContinue_nil : AllContinue [] := by
  intro b hb
  cases hb

@[simp] theorem allContinue_cons :
    AllContinue (b :: bytes) ↔ continues b = true ∧ AllContinue bytes := by
  simp [AllContinue]

theorem IsRun.unique (h : IsRun bytes) (h' : IsRun others)
    (hsame : bytes ++ rest = others ++ rest') : bytes = others := by
  induction h generalizing others with
  | @last b stops =>
    cases h' with
    | last => simpa using (List.cons.inj hsame).1
    | more goesOn =>
      obtain ⟨rfl, -⟩ := List.cons.inj hsame
      simp [stops] at goesOn
  | @more b bs goesOn _ ih =>
    cases h' with
    | last stops =>
      obtain ⟨rfl, -⟩ := List.cons.inj hsame
      simp [goesOn] at stops
    | more _ rest =>
      obtain ⟨rfl, hrest⟩ := List.cons.inj hsame
      simp [ih rest hrest]

/-- Bytes start with a given number of runs in no more than one way. -/
theorem runs_unique {runs runs' : List (List UInt8)} (hruns : ∀ run ∈ runs, IsRun run)
    (hruns' : ∀ run ∈ runs', IsRun run) (hlength : runs.length = runs'.length)
    (hsame : runs.flatten ++ rest = runs'.flatten ++ rest') : runs = runs' := by
  induction runs generalizing runs' with
  | nil => exact (List.eq_nil_of_length_eq_zero hlength.symm).symm
  | cons run runs ih =>
    cases runs' with
    | nil => cases hlength
    | cons run' runs' =>
      simp only [List.forall_mem_cons] at hruns hruns'
      simp only [List.flatten_cons, List.append_assoc] at hsame
      obtain rfl := hruns.1.unique hruns'.1 hsame
      have hlater := List.append_cancel_left hsame
      rw [ih hruns.2 hruns'.2 (Nat.succ.inj hlength) hlater]

theorem isRun_cons_iff :
    IsRun (b :: bytes) ↔
      continues b = false ∧ bytes = [] ∨ continues b = true ∧ IsRun bytes := by
  constructor
  · intro h
    cases h with
    | last stops => exact .inl ⟨stops, rfl⟩
    | more goesOn rest => exact .inr ⟨goesOn, rest⟩
  · rintro (⟨stops, rfl⟩ | ⟨goesOn, rest⟩)
    · exact .last stops
    · exact .more goesOn rest

theorem not_isRun_nil : ¬IsRun [] := by
  intro h
  cases h

theorem isRun_append_singleton_iff {last : UInt8} :
    IsRun (front ++ [last]) ↔ AllContinue front ∧ continues last = false := by
  induction front with
  | nil => simp [isRun_cons_iff, not_isRun_nil]
  | cons b front ih => simp [isRun_cons_iff, ih, and_assoc]

theorem IsRun.exists_last (h : IsRun bytes) : ∃ front last, bytes = front ++ [last] := by
  rcases List.eq_nil_or_concat' bytes with rfl | hlast
  · exact absurd h not_isRun_nil
  · exact hlast

theorem IsNumeral.isRun (h : IsNumeral top room bytes) : IsRun bytes := by
  induction h with
  | last stops => exact .last stops
  | more goesOn _ ih => exact .more goesOn ih

theorem isNumeral_cons_iff :
    IsNumeral top (room + 1) (b :: bytes) ↔
      continues b = false ∧ bytes = [] ∧ (room = 0 → top b = true) ∨
        continues b = true ∧ 0 < room ∧ IsNumeral top room bytes := by
  constructor
  · intro h
    cases h with
    | last stops fits => exact .inl ⟨stops, rfl, fits⟩
    | more goesOn rest => exact .inr ⟨goesOn, Nat.succ_pos _, rest⟩
  · rintro (⟨stops, rfl, fits⟩ | ⟨goesOn, hroom, rest⟩)
    · exact .last stops fits
    · obtain ⟨room, rfl⟩ := Nat.exists_eq_add_one_of_ne_zero hroom.ne'
      exact .more goesOn rest

/-- A number is a run that fits, with an allowed group in the last place that there is room for. -/
theorem isNumeral_append_singleton_iff {last : UInt8} :
    IsNumeral top (room + 1) (front ++ [last]) ↔
      IsRun (front ++ [last]) ∧ front.length ≤ room ∧ (front.length = room → top last = true) := by
  induction front generalizing room with
  | nil =>
    have hnone : ¬IsNumeral top room [] := by
      intro h
      cases h
    simp [isNumeral_cons_iff, isRun_cons_iff, hnone, not_isRun_nil, @eq_comm Nat room]
  | cons b front ih =>
    cases room with
    | zero => simp [isNumeral_cons_iff]
    | succ room => simp [isNumeral_cons_iff, isRun_cons_iff, ih, and_assoc]

/-- Bytes start with a number, or too much stands in front of the last place of one, or they end
too soon. -/
theorem exists_isNumeral_or (htop : Ends top) (room : Nat) (ahead : List UInt8) :
    (∃ bytes rest, ahead = bytes ++ rest ∧ IsNumeral top (room + 1) bytes) ∨
      (∃ front b rest, ahead = front ++ b :: rest ∧ front.length = room ∧ AllContinue front ∧
        top b = false) ∨
      ahead.length ≤ room ∧ AllContinue ahead := by
  induction ahead generalizing room with
  | nil => simp
  | cons b bs ih =>
    cases hmore : continues b with
    | false =>
      by_cases hlast : room = 0 ∧ top b = false
      · exact .inr (.inl ⟨[], b, bs, rfl, hlast.1.symm, allContinue_nil, hlast.2⟩)
      · exact .inl ⟨[b], bs, rfl, .last hmore (by simpa using hlast)⟩
    | true =>
      cases room with
      | zero =>
        have hb : top b = false := by
          by_contra hb
          have hstops := htop b (by simpa using hb)
          simp [hmore] at hstops
        exact .inr (.inl ⟨[], b, bs, rfl, rfl, allContinue_nil, hb⟩)
      | succ room =>
        rcases ih room with ⟨bytes, rest, rfl, hnumeral⟩ | ⟨front, c, rest, rfl, rfl, hfront, hc⟩ |
          ⟨hlength, hbs⟩
        · exact .inl ⟨b :: bytes, rest, rfl, .more hmore hnumeral⟩
        · exact .inr (.inl ⟨b :: front, c, rest, rfl, rfl, by simp [hmore, hfront], hc⟩)
        · exact .inr (.inr ⟨by simpa using hlength, by simp [hmore, hbs]⟩)

theorem groups_of_overflow (hfront : AllContinue front) (hb : top b = false) :
    groups top (front.length + 1) (front ++ b :: rest) =
      .stopped .overflow (front.length + 1) := by
  induction front with
  | nil => simp [groups, hb]
  | cons c front ih =>
    simp only [allContinue_cons] at hfront
    simp [groups, hfront.1, ih hfront.2, Scan.map, Scan.shift]

theorem groups_of_allContinue (hahead : AllContinue ahead) (hroom : ahead.length ≤ room) :
    groups top (room + 1) ahead = .stopped (.short 1 0) ahead.length := by
  induction ahead generalizing room with
  | nil => simp [groups]
  | cons b bs ih =>
    simp only [allContinue_cons] at hahead
    rw [List.length_cons] at hroom
    obtain ⟨room, rfl⟩ := Nat.exists_eq_add_one_of_ne_zero (show room ≠ 0 by omega)
    simp [groups, hahead.1, ih hahead.2 (show bs.length ≤ room by omega), Scan.map, Scan.shift]

theorem of_groups_short (htop : Ends top) {needed available : Nat}
    (h : groups top (room + 1) ahead = .stopped (.short needed available) width) :
    needed = 1 ∧ available = 0 ∧ width = ahead.length ∧ ahead.length ≤ room := by
  rcases exists_isNumeral_or htop room ahead with ⟨bytes, rest, rfl, hnumeral⟩ |
    ⟨front, b, rest, rfl, rfl, hfront, hb⟩ | ⟨hlength, hahead⟩
  · simp [hnumeral.groups_append] at h
  · simp [groups_of_overflow hfront hb] at h
  · rw [groups_of_allContinue hahead hlength] at h
    simp only [Scan.stopped.injEq, Fault.short.injEq] at h
    exact ⟨h.1.1.symm, h.1.2.symm, h.2.symm, hlength⟩

theorem unsignedValue_eq_sum (bytes : List UInt8) :
    unsignedValue bytes = ∑ i : Fin bytes.length, payload bytes[i] * 128 ^ (i : Nat) := by
  induction bytes with
  | nil => simp [unsignedValue]
  | cons b bs ih =>
    have hlater : 128 * unsignedValue bs =
        ∑ i : Fin bs.length, payload bs[i] * 128 ^ ((i : Nat) + 1) := by
      rw [ih, Finset.mul_sum]
      apply Finset.sum_congr rfl
      intro i _
      ring
    simp [unsignedValue, hlater, Fin.sum_univ_succ]

theorem IsNumeral.unsignedValue_lt (h : IsNumeral unsignedTop (room + 1) bytes) :
    unsignedValue bytes < 128 ^ room * 2 := by
  induction bytes generalizing room with
  | nil => cases h
  | cons b bs ih =>
    have hb := payload_lt b
    cases h with
    | last _ fits =>
      simp only [unsignedValue]
      by_cases hroom : room = 0
      · have hone := fits hroom
        simp only [unsignedTop, Bool.or_eq_true, beq_iff_eq] at hone
        rcases hone with rfl | rfl <;> simp [hroom, payload]
      · have hpow : 128 ^ 1 ≤ 128 ^ room := Nat.pow_le_pow_right (by decide) (by omega)
        omega
    | @more room _ _ _ rest =>
      have hrest := ih rest
      rw [unsignedValue, Nat.pow_succ]
      omega

theorem IsNumeral.signedValue_mem (h : IsNumeral signedTop (room + 1) bytes) :
    -(128 ^ room : Nat) ≤ signedValue bytes ∧ signedValue bytes < (128 ^ room : Nat) := by
  induction bytes generalizing room with
  | nil => cases h
  | cons b bs ih =>
    have hb := payload_lt b
    cases h with
    | last _ fits =>
      by_cases hroom : room = 0
      · have hends := fits hroom
        simp only [signedTop, Bool.or_eq_true, beq_iff_eq] at hends
        subst hroom
        rcases hends with rfl | rfl <;> decide
      · have hpow : 128 ^ 1 ≤ 128 ^ room := Nat.pow_le_pow_right (by decide) (by omega)
        simp only [signedValue, isNegative, List.getLast?_singleton, unsignedValue,
          List.length_singleton, Int.pow_eq, decide_eq_true_eq]
        split_ifs <;> omega
    | @more room _ _ _ rest =>
      have hrest := ih rest
      have hne : bs ≠ [] := List.ne_nil_of_length_pos rest.length_pos
      rw [signedValue_cons hne, Nat.pow_succ]
      omega

theorem IsUnsigned.toNat_unsignedWord (h : IsUnsigned bytes) :
    (unsignedWord bytes).toNat = unsignedValue bytes := by
  have hlt : unsignedValue bytes < UInt64.size := h.unsignedValue_lt
  rw [unsignedWord, UInt64.toNat_ofNat_of_lt' hlt]

theorem IsNumeral.toInt_ofInt_signedValue (h : IsNumeral signedTop maxGroups bytes) :
    (Int64.ofInt (signedValue bytes)).toInt = signedValue bytes := by
  have hrange := h.signedValue_mem
  exact Int64.toInt_ofInt_of_le hrange.1 hrange.2

end DebugLine.Leb128
