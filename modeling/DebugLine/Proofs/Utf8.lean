import DebugLine.Text.Utf8
import Mathlib.Tactic

/-!
# Text that is written and read back

Written text consists of whole characters, so reading it replaces nothing. No byte of a character
is zero unless the character is, and bytes that are there never read as no text at all.
-/

namespace DebugLine.Utf8

theorem decodeFrom_start {b : UInt8} {p : Pending} (h : lead b = .start p) (rest : List UInt8) :
    decodeFrom none (b :: rest) = decodeFrom (some p) rest := by
  simp only [decodeFrom, h]

theorem toNat_ofNat_of_lt_256 {n : Nat} (h : n < 256) : (UInt8.ofNat n).toNat = n :=
  UInt8.toNat_ofNat_of_lt' h

/-- The started character goes on with six further bits. -/
structure Pending.Takes (p : Pending) (n : Nat) : Prop where
  lt : n < 64
  low_le : p.low.toNat ≤ n + 128
  le_high : n + 128 ≤ p.high.toNat

theorem Pending.Takes.accepts {p : Pending} {n : Nat} (h : p.Takes n) :
    p.accepts (UInt8.ofNat (n + 128)) = true := by
  have hlt := h.lt
  have hb : (UInt8.ofNat (n + 128)).toNat = n + 128 := toNat_ofNat_of_lt_256 (by omega)
  simp only [Pending.accepts, Bool.and_eq_true, decide_eq_true_eq, UInt8.le_iff_toNat_le, hb]
  exact ⟨h.low_le, h.le_high⟩

theorem Pending.Takes.codeWith_eq {p : Pending} {n : Nat} (h : p.Takes n) :
    p.codeWith (UInt8.ofNat (n + 128)) = 64 * p.code + n := by
  have hlt := h.lt
  rw [Pending.codeWith, toNat_ofNat_of_lt_256 (by omega)]
  omega

theorem decodeFrom_last {p : Pending} {n : Nat} (h : p.Takes n) (hp : p.following = 0)
    (rest : List UInt8) :
    decodeFrom (some p) (UInt8.ofNat (n + 128) :: rest) =
      some (Char.ofNat (64 * p.code + n)) :: decodeFrom none rest := by
  simp only [decodeFrom, h.accepts, if_true, hp, h.codeWith_eq]

/-- A byte behind which a started character still goes on. -/
theorem decodeFrom_more {p : Pending} {n following : Nat} (h : p.Takes n)
    (hp : p.following = following + 1) (rest : List UInt8) :
    decodeFrom (some p) (UInt8.ofNat (n + 128) :: rest) =
      decodeFrom (some ⟨0x80, 0xBF, following, 64 * p.code + n⟩) rest := by
  simp only [decodeFrom, h.accepts, if_true, hp, h.codeWith_eq]

theorem takes_any {n : Nat} (h : n < 64) (following code : Nat) :
    Pending.Takes ⟨0x80, 0xBF, following, code⟩ n where
  lt := h
  low_le := Nat.le_add_left _ _
  le_high := Nat.add_le_add_right (Nat.le_of_lt_succ h) 128

theorem lead_two {v : Nat} (hlow : 0x80 ≤ v) (hhigh : v < 0x800) :
    lead (UInt8.ofNat (v / 64 % 32 + 192)) = .start ⟨0x80, 0xBF, 0, v / 64⟩ := by
  have hn : v / 64 % 32 + 192 = v / 64 + 192 := by omega
  rw [hn, lead, toNat_ofNat_of_lt_256 (by omega), if_neg (by omega), if_neg (by omega),
    if_pos (by omega), Nat.add_sub_cancel]

theorem lead_three {v : Nat} (hlow : 0x800 ≤ v) (hhigh : v < 0x10000)
    (hvalid : v < 0xD800 ∨ 0xDFFF < v) :
    ∃ low high, lead (UInt8.ofNat (v / 4096 % 16 + 224)) = .start ⟨low, high, 1, v / 4096⟩ ∧
      Pending.Takes ⟨low, high, 1, v / 4096⟩ (v / 64 % 64) := by
  have hn : v / 4096 % 16 + 224 = v / 4096 + 224 := by omega
  rw [hn, lead, toNat_ofNat_of_lt_256 (by omega), if_neg (by omega), if_neg (by omega),
    if_neg (by omega)]
  by_cases h0 : v / 4096 = 0
  · rw [if_pos (by omega), h0]
    exact ⟨_, _, rfl, by omega, by simp; omega, by simp; omega⟩
  · by_cases hD : v / 4096 = 0xD
    · rw [if_neg (by omega), if_pos (by omega), hD]
      exact ⟨_, _, rfl, by omega, by simp, by simp; omega⟩
    · rw [if_neg (by omega), if_neg (by omega), if_pos (by omega), Nat.add_sub_cancel]
      exact ⟨_, _, rfl, takes_any (Nat.mod_lt _ (by decide)) _ _⟩

theorem lead_four {v : Nat} (hlow : 0x10000 ≤ v) (hhigh : v < 0x110000) :
    ∃ low high, lead (UInt8.ofNat (v / 262144 % 8 + 240)) = .start ⟨low, high, 2, v / 262144⟩ ∧
      Pending.Takes ⟨low, high, 2, v / 262144⟩ (v / 4096 % 64) := by
  have hn : v / 262144 % 8 + 240 = v / 262144 + 240 := by omega
  rw [hn, lead, toNat_ofNat_of_lt_256 (by omega), if_neg (by omega), if_neg (by omega),
    if_neg (by omega), if_neg (by omega), if_neg (by omega), if_neg (by omega)]
  by_cases h0 : v / 262144 = 0
  · rw [if_pos (by omega), h0]
    exact ⟨_, _, rfl, by omega, by simp; omega, by simp; omega⟩
  · by_cases h4 : v / 262144 = 4
    · rw [if_neg (by omega), if_neg (by omega), if_pos (by omega), h4]
      exact ⟨_, _, rfl, by omega, by simp, by simp; omega⟩
    · rw [if_neg (by omega), if_pos (by omega), Nat.add_sub_cancel]
      exact ⟨_, _, rfl, takes_any (Nat.mod_lt _ (by decide)) _ _⟩

theorem decodeFrom_utf8EncodeChar (c : Char) (rest : List UInt8) :
    decodeFrom none (String.utf8EncodeChar c ++ rest) = some c :: decodeFrom none rest := by
  have hvalid : c.val.toNat < 0xD800 ∨ 0xDFFF < c.val.toNat ∧ c.val.toNat < 0x110000 := c.valid
  have hc : Char.ofNat c.val.toNat = c := Char.ofNat_toNat c
  have hmod (n : Nat) : n % 64 < 64 := Nat.mod_lt n (by decide)
  unfold String.utf8EncodeChar
  generalize c.val.toNat = v at hvalid hc
  dsimp only
  split_ifs with h1 h2 h3
  · have hlead : lead (UInt8.ofNat v) = .whole c := by
      rw [lead, toNat_ofNat_of_lt_256 (by omega), if_pos (by omega), hc]
    simp only [List.singleton_append, decodeFrom, hlead]
  · simp only [List.cons_append, List.nil_append]
    rw [decodeFrom_start (lead_two (by omega) (by omega)), decodeFrom_last (takes_any (hmod v) _ _)
      rfl, Nat.div_add_mod, hc]
  · obtain ⟨low, high, hlead, htakes⟩ := @lead_three v (by omega) (by omega) (by omega)
    simp only [List.cons_append, List.nil_append]
    rw [decodeFrom_start hlead, decodeFrom_more htakes rfl, decodeFrom_last (takes_any (hmod v) _ _)
      rfl]
    dsimp only
    have hv : 64 * (64 * (v / 4096) + v / 64 % 64) + v % 64 = v := by omega
    rw [hv, hc]
  · obtain ⟨low, high, hlead, htakes⟩ := @lead_four v (by omega) (by omega)
    simp only [List.cons_append, List.nil_append]
    rw [decodeFrom_start hlead, decodeFrom_more htakes rfl,
      decodeFrom_more (takes_any (hmod _) _ _) rfl, decodeFrom_last (takes_any (hmod v) _ _) rfl]
    dsimp only
    have hv : 64 * (64 * (64 * (v / 262144) + v / 4096 % 64) + v / 64 % 64) + v % 64 = v := by omega
    rw [hv, hc]

theorem decode_flatMap (cs : List Char) :
    decode (cs.flatMap String.utf8EncodeChar) = cs.map some := by
  induction cs with
  | nil => rfl
  | cons c cs ih =>
    rw [List.flatMap_cons, decode, decodeFrom_utf8EncodeChar, List.map_cons]
    exact congrArg _ ih

theorem toUTF8_toList (s : String) :
    s.toUTF8.data.toList = s.toList.flatMap String.utf8EncodeChar := by
  have h : s.toUTF8 = s.toList.utf8Encode := by
    rw [← String.toByteArray_ofList, String.ofList_toList, String.toUTF8]
  rw [h, List.utf8Encode, List.toList_data_toByteArray]

/-- Written text is read back as it was. -/
theorem decodeLossy_toUTF8 (s : String) : decodeLossy s.toUTF8.data.toList = s := by
  rw [decodeLossy, toUTF8_toList, decode_flatMap, List.map_map]
  simp [Function.comp_def]

theorem zero_ne_ofNat {n : Nat} (h0 : 0 < n) (h : n < 256) : (0 : UInt8) ≠ UInt8.ofNat n := by
  intro heq
  rw [← UInt8.toNat_inj, UInt8.toNat_ofNat_of_lt' h] at heq
  exact h0.ne heq

theorem zero_notMem_utf8EncodeChar {c : Char} (h : c ≠ '\x00') :
    0 ∉ String.utf8EncodeChar c := by
  have hc : c.val.toNat ≠ 0 := fun h0 => h (Char.ext (UInt32.toNat_inj.mp h0))
  unfold String.utf8EncodeChar
  generalize c.val.toNat = v at hc
  dsimp only
  split_ifs <;> simp only [List.mem_cons, List.not_mem_nil, or_false, not_or]
  · exact zero_ne_ofNat (by omega) (by omega)
  · exact ⟨zero_ne_ofNat (by omega) (by omega), zero_ne_ofNat (by omega) (by omega)⟩
  · exact ⟨zero_ne_ofNat (by omega) (by omega), zero_ne_ofNat (by omega) (by omega),
      zero_ne_ofNat (by omega) (by omega)⟩
  · exact ⟨zero_ne_ofNat (by omega) (by omega), zero_ne_ofNat (by omega) (by omega),
      zero_ne_ofNat (by omega) (by omega), zero_ne_ofNat (by omega) (by omega)⟩

theorem zero_notMem_toUTF8 {s : String} (h : '\x00' ∉ s.toList) :
    0 ∉ s.toUTF8.data.toList := by
  rw [toUTF8_toList, List.mem_flatMap]
  rintro ⟨c, hc, hzero⟩
  exact zero_notMem_utf8EncodeChar (ne_of_mem_of_not_mem hc h) hzero

theorem decodeFrom_ne_nil (pending : Option Pending) (bytes : List UInt8)
    (h : pending ≠ none ∨ bytes ≠ []) : decodeFrom pending bytes ≠ [] := by
  induction bytes generalizing pending with
  | nil =>
    cases pending with
    | none => simp at h
    | some p => simp [decodeFrom]
  | cons b bs ih =>
    cases pending with
    | none =>
      cases hlead : lead b with
      | start p => simpa [decodeFrom, hlead] using ih (some p) (.inl (Option.some_ne_none p))
      | whole c => simp [decodeFrom, hlead]
      | stray => simp [decodeFrom, hlead]
    | some p =>
      by_cases haccepts : p.accepts b = true
      · cases hfollowing : p.following with
        | zero => simp [decodeFrom, haccepts, hfollowing]
        | succ n =>
          simpa [decodeFrom, haccepts, hfollowing] using
            ih (some ⟨0x80, 0xBF, n, p.codeWith b⟩) (.inl (Option.some_ne_none _))
      · cases hlead : lead b <;> simp [decodeFrom, haccepts, hlead]

/-- Only no bytes read as no text. -/
@[simp] theorem decodeLossy_eq_empty_iff {bytes : List UInt8} :
    decodeLossy bytes = "" ↔ bytes = [] := by
  constructor
  · intro h
    by_contra hne
    have hdecode := decodeFrom_ne_nil none bytes (.inr hne)
    have hlist := congrArg String.toList h
    rw [decodeLossy, String.toList_ofList] at hlist
    exact hdecode (List.map_eq_nil_iff.mp hlist)
  · rintro rfl
    rfl

end DebugLine.Utf8
