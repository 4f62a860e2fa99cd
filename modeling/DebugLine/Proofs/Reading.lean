import DebugLine.Cursor
import DebugLine.Proofs.Effects

/-!
# Reads move on inside the window

Scanners never pass more bytes than they are shown. So a read leaves the section, the limit and the
layout of numbers alone, moves the cursor on and not past the limit, and records the failure that
it ends in.
-/

namespace DebugLine

variable {α β : Type}

namespace Scan

/-- The number of bytes that a scanner passed. -/
def width : Scan α → Nat
  | done _ width => width
  | stopped _ width => width

@[simp] theorem width_map (f : α → β) (s : Scan α) : (s.map f).width = s.width := by
  cases s <;> rfl

@[simp] theorem width_shift (s : Scan α) : s.shift.width = s.width + 1 := by
  cases s <;> rfl

/-- The scanner passes only bytes that it is shown. -/
def Fits (scanner : List UInt8 → Scan α) : Prop := ∀ ahead, (scanner ahead).width ≤ ahead.length

theorem exactly_fits (n : Nat) : Fits (exactly n) := by
  intro ahead
  unfold exactly
  split_ifs with h
  · exact Nat.zero_le _
  · exact Nat.le_of_not_lt h

theorem zeroEnded_fits : Fits zeroEnded := by
  intro ahead
  unfold zeroEnded
  dsimp only
  split_ifs with h
  · exact h
  · exact Nat.zero_le _

end Scan

theorem Leb128.groups_width_le (top : UInt8 → Bool) (room : Nat) (ahead : List UInt8) :
    (groups top room ahead).width ≤ ahead.length := by
  induction ahead generalizing room with
  | nil => exact Nat.zero_le _
  | cons b bs ih =>
    unfold groups
    split_ifs
    · exact Nat.succ_le_succ (Nat.zero_le _)
    · simpa using ih (room - 1)
    · exact Nat.succ_le_succ (Nat.zero_le _)

namespace Cursor

/-- `c'` has moved on from `c` inside what `c` may read. -/
structure Onward (c c' : Cursor) : Prop where
  bytes_eq : c'.bytes = c.bytes
  limit_eq : c'.limit = c.limit
  byteOrder_eq : c'.byteOrder = c.byteOrder
  addressSize_eq : c'.addressSize = c.addressSize
  offset_le : c.offset ≤ c'.offset
  offset_le_limit : c.offset ≤ c.limit → c'.offset ≤ c'.limit

instance : IsPreorder Cursor Onward where
  refl _ := ⟨rfl, rfl, rfl, rfl, le_rfl, id⟩
  trans _ _ _ h h' :=
    ⟨h'.bytes_eq.trans h.bytes_eq, h'.limit_eq.trans h.limit_eq,
      h'.byteOrder_eq.trans h.byteOrder_eq, h'.addressSize_eq.trans h.addressSize_eq,
      h.offset_le.trans h'.offset_le, fun hc => h'.offset_le_limit (h.offset_le_limit hc)⟩

/-- A read that moves on inside the window and records its failure. -/
abbrev Disciplined (x : Read α) : Prop := Regular Onward failure (fun c => c) x

theorem length_ahead_le (c : Cursor) (reach : Nat) (hc : c.offset ≤ c.limit) :
    c.offset + (c.ahead reach).length ≤ c.limit := by
  simp only [ahead, Array.length_toList, Array.size_extract]
  omega

theorem scan_eq_ok {scanner : List UInt8 → Scan α} {reach : Nat} {c c' : Cursor} {value : α}
    (h : scan reach scanner c = .ok value c') :
    c.failure = none ∧ ∃ width, scanner (c.ahead reach) = .done value width ∧
      c' = { c with offset := c.offset + width } := by
  unfold scan at h
  cases hc : c.failure with
  | some e => simp [hc] at h
  | none =>
    cases hs : scanner (c.ahead reach) with
    | stopped fault width => simp [hc, hs] at h
    | done v width =>
      simp only [hc, hs, EStateM.Result.ok.injEq] at h
      exact ⟨rfl, width, by rw [h.1], h.2.symm⟩

theorem scan_disciplined {scanner : List UInt8 → Scan α} (h : Scan.Fits scanner) (reach : Nat) :
    Disciplined (scan reach scanner) where
  moves c := by
    have hfit := h (c.ahead reach)
    have hlen := c.length_ahead_le reach
    unfold scan
    cases c.failure with
    | some e => exact refl_of Onward c
    | none =>
      cases hs : scanner (c.ahead reach) <;>
      · rw [hs, Scan.width] at hfit
        exact ⟨rfl, rfl, rfl, rfl, Nat.le_add_right _ _, fun hc =>
          (Nat.add_le_add_left hfit _).trans (hlen hc)⟩
  records :=
    { ok := by
        intro c value c' hok
        obtain ⟨-, width, -, rfl⟩ := scan_eq_ok hok
        rfl
      error := by
        intro c e c' herr
        unfold scan at herr
        cases hc : c.failure with
        | some first =>
          simp only [hc, EStateM.Result.error.injEq] at herr
          rw [← herr.2, hc, herr.1]
        | none =>
          cases hs : scanner (c.ahead reach) with
          | done value width => simp [hc, hs] at herr
          | stopped fault width =>
            simp only [hc, hs, EStateM.Result.error.injEq] at herr
            rw [← herr.2, herr.1] }
  ignores := .id _

theorem check_disciplined : Disciplined check where
  moves c := by
    unfold check
    cases c.failure <;> exact refl_of Onward c
  records :=
    { ok := by
        intro c _ c' hok
        unfold check at hok
        cases hc : c.failure <;> simp_all
      error := by
        intro c e c' herr
        unfold check at herr
        cases hc : c.failure <;> simp_all }
  ignores := .id _

theorem fail_disciplined (e : LineError) : Disciplined (fail e : Read α) where
  moves c := by
    unfold fail
    cases c.failure <;> exact ⟨rfl, rfl, rfl, rfl, le_rfl, id⟩
  records :=
    { ok := by
        intro c value c' hok
        unfold fail at hok
        cases hc : c.failure <;> simp [hc] at hok
      error := by
        intro c first c' herr
        unfold fail at herr
        cases hc : c.failure <;> simp only [hc, EStateM.Result.error.injEq] at herr
        · rw [← herr.2, herr.1]
        · rw [← herr.2, hc, herr.1] }
  ignores := .id _

theorem require_disciplined (p : Prop) [Decidable p] (e : LineError) :
    Disciplined (require p e) := by
  unfold require
  split_ifs
  · exact .pure ()
  · exact fail_disciplined e

/-- Looking at the cursor moves nothing. -/
theorem get_bind_disciplined {f : Cursor → Read α} (h : ∀ c, Disciplined (f c)) :
    Disciplined (get >>= f) :=
  .get_bind (fun _ => rfl) h

theorem position_disciplined : Disciplined position :=
  get_bind_disciplined fun c => .pure c.offset

theorem take_disciplined (n : Nat) : Disciplined (take n) :=
  scan_disciplined (Scan.exactly_fits n) n

theorem skip_disciplined (n : Nat) : Disciplined (skip n) :=
  (take_disciplined n).bind fun _ => .pure ()

theorem number_disciplined (width : Nat) : Disciplined (number width) :=
  (take_disciplined width).bind fun bytes =>
    get_bind_disciplined fun c => .pure (c.byteOrder.value bytes)

theorem uint8_disciplined : Disciplined uint8 :=
  (number_disciplined 1).bind fun n => .pure (UInt8.ofNat n)

theorem uint16_disciplined : Disciplined uint16 :=
  (number_disciplined 2).bind fun n => .pure (UInt16.ofNat n)

theorem uint32_disciplined : Disciplined uint32 :=
  (number_disciplined 4).bind fun n => .pure (UInt32.ofNat n)

theorem uleb128_disciplined : Disciplined uleb128 :=
  scan_disciplined (fun ahead => by
    simpa [Leb128.scanUnsigned] using Leb128.groups_width_le _ _ ahead) _

theorem sleb128_disciplined : Disciplined sleb128 :=
  scan_disciplined (fun ahead => by
    simpa [Leb128.scanSigned] using Leb128.groups_width_le _ _ ahead) _

theorem text_disciplined : Disciplined text :=
  get_bind_disciplined fun c =>
    (scan_disciplined Scan.zeroEnded_fits c.remaining).bind fun bytes =>
      .pure (Utf8.decodeLossy bytes)

theorem address_disciplined : Disciplined address := by
  apply get_bind_disciplined
  intro c
  dsimp only
  split_ifs
  · exact (number_disciplined _).bind fun n => .pure (UInt64.ofNat n)
  · exact fail_disciplined _

theorem times_disciplined {item : Read α} (h : Disciplined item) (n : Nat) :
    Disciplined (times item n) := by
  induction n with
  | zero => exact .pure []
  | succ n ih => exact h.bind fun x => ih.bind fun xs => .pure (x :: xs)

/-- A byte that was read has been passed. -/
theorem uint8_eq_ok {c c' : Cursor} {b : UInt8} (h : uint8 c = .ok b c') :
    c.failure = none ∧ c' = { c with offset := c.offset + 1 } := by
  obtain ⟨n, u, hn, hb⟩ := bind_eq_ok.mp h
  obtain ⟨bytes, t, ht, hu⟩ := bind_eq_ok.mp hn
  obtain ⟨hfail, width, hs, rfl⟩ := scan_eq_ok ht
  cases hu
  cases hb
  unfold Scan.exactly at hs
  split_ifs at hs
  cases hs
  exact ⟨hfail, rfl⟩

end Cursor
end DebugLine
