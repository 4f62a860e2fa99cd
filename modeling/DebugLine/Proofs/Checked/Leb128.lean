import DebugLine.Proofs.Checked.Cursor
import Mathlib.Data.Nat.Bitwise

/-!
# Checked LEB128 numbers

A number is put together group by group: each is moved up to its place, and the place of the next
one is seven bits further on. At bit 63 only a group may come that does not go on, so no shift is
ever too wide.
-/

namespace DebugLine.Checked

/-- Adds groups of seven bits to `result` from bit `shift` on, at most `room` of them. A group at
bit 63 is zero or `top`. Gives the number, the bit behind its last group, and that group. -/
def groups (top : UInt8) (start : Nat) : (room : Nat) → (result : UInt64) → (shift : Nat) →
    Checked Cursor (UInt64 × Nat × UInt8)
  | 0, _, _ => liftM (none : Option _)
  | room + 1, result, shift => do
    let byte ← uint8
    if shift = 63 ∧ byte ≠ 0 ∧ byte ≠ top then
      fail (.leb128Overflow start)
    else
      let bits ← Word.shiftLeft (byte &&& 0x7F).toUInt64 shift
      let next ← Word.add 32 shift 7
      if byte &&& 0x80 = 0 then
        return (result ||| bits, next, byte)
      else
        groups top start room (result ||| bits) next

def uleb128 : Checked Cursor UInt64 := do
  let (result, _, _) ← groups 0x01 (← get).offset Leb128.maxGroups 0 0
  return result

/-- The bits behind the last group are copies of its bit 6. -/
def sleb128 : Checked Cursor Int64 := do
  let (result, shift, byte) ← groups 0x7F (← get).offset Leb128.maxGroups 0 0
  if shift < 64 ∧ byte &&& 0x40 ≠ 0 then
    return (result ||| (← Word.shiftLeft (~~~0) shift)).toInt64
  else
    return result.toInt64

variable {c : Cursor}

theorem or_shiftLeft {r shift : Nat} (hr : r < 2 ^ shift) (hshift : shift < 64) (v : UInt64) :
    UInt64.ofNat r ||| v <<< UInt64.ofNat shift = UInt64.ofNat (r + 2 ^ shift * v.toNat) := by
  rw [← UInt64.toNat_inj, UInt64.toNat_or, UInt64.toNat_shiftLeft, UInt64.toNat_ofNat',
    UInt64.toNat_ofNat', UInt64.toNat_ofNat', ← Nat.or_mod_two_pow, Nat.or_comm]
  have hamount : shift % 2 ^ 64 % 64 = shift := by omega
  rw [hamount, ← Nat.shiftLeft_add_eq_or_of_lt hr, Nat.shiftLeft_eq, Nat.mul_comm, Nat.add_comm]

theorem payload_eq (b : UInt8) : (b &&& 0x7F).toUInt64.toNat = Leb128.payload b := by
  rw [UInt8.toNat_toUInt64, UInt8.toNat_and]
  exact Nat.and_two_pow_sub_one_eq_mod b.toNat 7

theorem and_bit_eq_zero_iff {b bit : UInt8} {i : Nat} (hbit : bit.toNat = 2 ^ i) :
    b &&& bit = 0 ↔ b.toNat / 2 ^ i % 2 = 0 := by
  rw [← UInt8.toNat_inj, UInt8.toNat_and, hbit, Nat.and_two_pow, Nat.testBit_eq_decide_div_mod_eq]
  have htwo := Nat.mod_two_eq_zero_or_one (b.toNat / 2 ^ i)
  rcases htwo with h | h <;> simp [h]

theorem and_continuation_eq_zero_iff (b : UInt8) :
    b &&& 0x80 = 0 ↔ Leb128.continues b = false := by
  have hlt := b.toNat_lt
  rw [@and_bit_eq_zero_iff b 0x80 7 rfl, Leb128.continues, decide_eq_false_iff_not]
  omega

theorem and_sign_ne_zero_iff (b : UInt8) : b &&& 0x40 ≠ 0 ↔ 64 ≤ Leb128.payload b := by
  rw [ne_eq, @and_bit_eq_zero_iff b 0x40 6 rfl, Leb128.payload]
  omega

/-- What the groups found by a scanner make of `r`, where the first goes to bit `shift`, and of the
cursor. `last` is the group in front of them. -/
def groupsOutcome (start shift r : Nat) (last : UInt8) (c : Cursor) :
    Scan (List UInt8) → Except LineError (UInt64 × Nat × UInt8) × Cursor
  | .done bytes width =>
    (.ok (UInt64.ofNat (r + 2 ^ shift * Leb128.unsignedValue bytes), shift + 7 * bytes.length,
      bytes.getLastD last), c.passed width)
  | .stopped fault width =>
    let e := fault.toError start (c.offset + width - start)
    (.error e, { c.passed width with failure := some e })

/-- A group in front moves the others up by seven bits. -/
theorem groupsOutcome_shift (start shift r : Nat) (last b : UInt8) (c : Cursor)
    (rest : Scan (List UInt8)) :
    groupsOutcome start shift r last c (rest.map (b :: ·)).shift =
      groupsOutcome start (shift + 7) (r + 2 ^ shift * Leb128.payload b) b (c.passed 1) rest := by
  cases rest with
  | done bytes width =>
    have hvalue : r + 2 ^ shift * Leb128.unsignedValue (b :: bytes) =
        r + 2 ^ shift * Leb128.payload b + 2 ^ (shift + 7) * Leb128.unsignedValue bytes := by
      rw [Leb128.unsignedValue, Nat.pow_add]
      ring
    have hplace : shift + 7 * (b :: bytes).length = shift + 7 + 7 * bytes.length := by
      rw [List.length_cons]
      omega
    simp only [Scan.map, Scan.shift, groupsOutcome, hvalue, hplace, List.getLastD_cons,
      Cursor.passed_passed, Nat.add_comm width 1]
  | stopped fault width =>
    have hwidth : c.offset + (width + 1) = c.offset + 1 + width := by omega
    simp only [Scan.map, Scan.shift, groupsOutcome, Cursor.passed_passed, Cursor.offset_passed,
      Nat.add_comm 1 width, hwidth]

theorem run_uint8_of_cons (hc : c.InBounds) (hsound : c.failure = none) {b : UInt8}
    {rest : List UInt8} (hwindow : c.window = b :: rest) :
    uint8.run.run c = some (.ok b, c.passed 1) := by
  have hok : Cursor.uint8 c = .ok b (c.passed 1) :=
    (Cursor.uint8_accepts hsound b (c.passed 1)).mpr ⟨[b], rest, hwindow, rfl, rfl⟩
  exact (mirrors_uint8.agrees c hc).run_of_ok hok

theorem run_uint8_of_spent (hsound : c.failure = none) (hspent : c.remaining = 0) :
    uint8.run.run c = some (.error (.unexpectedEnd c.offset 1 0),
      { c with failure := some (.unexpectedEnd c.offset 1 0) }) := by
  have hfail := (agrees_fail (α := List UInt8) (.unexpectedEnd c.offset 1 0) c).run_eq
  rw [Cursor.fail, hsound] at hfail
  apply run_bind_of_error
  unfold take
  rw [run_bind_of_ok (run_check_of_sound hsound)]
  apply Checked.run_bind_of_ok (a := c) (u := c) rfl |>.trans
  rw [hspent, if_pos Nat.zero_lt_one]
  exact hfail

theorem run_groups_of_spent {top : UInt8} {start shift room r : Nat} (hsound : c.failure = none)
    (hstart : start ≤ c.offset) (hspent : c.remaining = 0) (last : UInt8) :
    (groups top start (room + 1) (UInt64.ofNat r) shift).run.run c =
      some (groupsOutcome start shift r last c
        (Leb128.groups (fun b => b == 0 || b == top) (room + 1) (c.ahead (room + 1)))) := by
  have hwindow : c.window = [] := by
    have hlength := c.length_window_le
    rw [hspent] at hlength
    exact List.eq_nil_of_length_eq_zero (Nat.le_zero.mp hlength)
  have hahead : c.ahead (room + 1) = [] := by
    rw [Cursor.ahead_eq_take_window, hwindow, List.take_nil]
  have hoffset : start + (c.offset - start) = c.offset := by omega
  unfold groups
  rw [run_bind_of_error (run_uint8_of_spent hsound hspent), hahead]
  simp only [Leb128.groups, groupsOutcome, Fault.toError, Nat.add_zero, hoffset, Cursor.passed_zero]

theorem run_groups_succ {top : UInt8} {start shift room r : Nat} (hroom : shift + 7 * room = 63)
    (hr : r < 2 ^ shift) (hc : c.InMemory) (hsound : c.failure = none) (hstart : start ≤ c.offset)
    (last : UInt8)
    (hrest : (c.passed 1).InMemory → ∀ b, Leb128.continues b = true →
      (room = 0 → b = 0 ∨ b = top) →
      (groups top start room (UInt64.ofNat (r + 2 ^ shift * Leb128.payload b)) (shift + 7)).run.run
          (c.passed 1) =
        some (groupsOutcome start (shift + 7) (r + 2 ^ shift * Leb128.payload b) b (c.passed 1)
          (Leb128.groups (fun b => b == 0 || b == top) room ((c.passed 1).ahead room)))) :
    (groups top start (room + 1) (UInt64.ofNat r) shift).run.run c =
      some (groupsOutcome start shift r last c
        (Leb128.groups (fun b => b == 0 || b == top) (room + 1) (c.ahead (room + 1)))) := by
  cases hwindow : c.window with
  | nil =>
    have hspent : c.remaining = 0 := by
      rw [← Cursor.length_window hc.limit_le, hwindow, List.length_nil]
    exact run_groups_of_spent hsound hstart hspent last
  | cons b rest =>
    have hinside := hc.inBounds (by simp [hwindow])
    unfold groups
    have hahead : c.ahead (room + 1) = b :: (c.passed 1).ahead room := by
      simp [Cursor.ahead_eq_take_window, hwindow]
    have htop : (decide (room + 1 = 1) && !(b == 0 || b == top)) =
        decide (shift = 63 ∧ b ≠ 0 ∧ b ≠ top) := by
      have hlast : room = 0 ↔ shift = 63 := by omega
      rw [Bool.eq_iff_iff]
      simp [hlast]
    rw [run_bind_of_ok (run_uint8_of_cons hinside hsound hwindow), hahead, Leb128.groups, htop]
    by_cases hover : shift = 63 ∧ b ≠ 0 ∧ b ≠ top
    · rw [if_pos hover, if_pos (decide_eq_true hover)]
      refine (agrees_fail _ (c.passed 1)).trans ?_
      unfold Cursor.fail
      rw [Cursor.failure_passed, hsound]
      rfl
    · have hlt : shift < 64 := by omega
      rw [if_neg hover, if_neg (by simpa using hover), run_done_bind (Word.shiftLeft_of_lt hlt),
        run_done_bind (Word.add_of_lt (by omega)), or_shiftLeft hr hlt, payload_eq]
      cases hmore : Leb128.continues b with
      | false =>
        rw [if_pos ((and_continuation_eq_zero_iff b).mpr hmore), if_neg (by simp)]
        simp only [groupsOutcome, Leb128.unsignedValue, Nat.mul_zero, Nat.add_zero,
          List.length_singleton, List.getLastD_cons, List.getLastD_nil, Nat.mul_one]
        rfl
      | true =>
        have hstop : ¬b &&& 0x80 = 0 := by
          rw [and_continuation_eq_zero_iff, hmore]
          exact Bool.noConfusion
        rw [if_neg hstop, if_pos rfl, groupsOutcome_shift, hrest (hc.passed 1) b hmore]
        · rfl
        · intro hzero
          by_contra hne
          exact hover ⟨by omega, not_or.mp hne⟩

/-- The loop finds the groups that the scanner finds. -/
theorem run_groups {top : UInt8} (htop : Leb128.continues top = false)
    {start shift room r : Nat} (hroom : shift + 7 * room = 63) (hr : r < 2 ^ shift)
    (hc : c.InMemory) (hsound : c.failure = none) (hstart : start ≤ c.offset) (last : UInt8) :
    (groups top start (room + 1) (UInt64.ofNat r) shift).run.run c =
      some (groupsOutcome start shift r last c
        (Leb128.groups (fun b => b == 0 || b == top) (room + 1) (c.ahead (room + 1)))) := by
  induction room generalizing c r shift last with
  | zero =>
    refine run_groups_succ hroom hr hc hsound hstart last fun _ b hmore hlast => ?_
    rcases hlast rfl with rfl | rfl
    · cases hmore
    · exact absurd (htop.symm.trans hmore) Bool.false_ne_true
  | succ room ih =>
    refine run_groups_succ hroom hr hc hsound hstart last fun hnext b hmore _ => ?_
    have hpayload := Leb128.payload_lt b
    have hr' : r + 2 ^ shift * Leb128.payload b < 2 ^ (shift + 7) := by
      rw [Nat.pow_add]
      nlinarith
    exact ih (by omega) hr' hnext hsound (hstart.trans (Nat.le_add_right c.offset 1)) b

theorem run_groups_of_failure {top : UInt8} {start room shift : Nat} {result : UInt64}
    {e : LineError} (hfail : c.failure = some e) :
    (groups top start (room + 1) result shift).run.run c = some (.error e, c) :=
  run_bind_of_error (run_bind_of_error (run_bind_of_error (run_check_of_failure hfail)))

theorem agrees_groups {α : Type} {top : UInt8} (htop : Leb128.continues top = false)
    {finish : UInt64 × Nat × UInt8 → Checked Cursor α} {ofGroups : List UInt8 → α}
    (hc : c.InMemory)
    (hfinish : ∀ bytes c', Leb128.IsNumeral (fun b => b == 0 || b == top) Leb128.maxGroups bytes →
      (finish (UInt64.ofNat (Leb128.unsignedValue bytes), 7 * bytes.length,
        bytes.getLastD 0)).run.run c' = some (.ok (ofGroups bytes), c')) :
    Agrees (fun c => c) (groups top c.offset Leb128.maxGroups 0 0 >>= finish)
      (Cursor.scan Leb128.maxGroups fun ahead =>
        (Leb128.groups (fun b => b == 0 || b == top) Leb128.maxGroups ahead).map ofGroups) c := by
  unfold Agrees
  cases hfail : c.failure with
  | some e =>
    rw [Cursor.scan_of_failure hfail]
    exact run_bind_of_error (run_groups_of_failure hfail)
  | none =>
    have hrun := @run_groups c top htop c.offset 0 9 0 rfl (by decide) hc hfail le_rfl 0
    change (groups top c.offset Leb128.maxGroups 0 0).run.run c =
      some (groupsOutcome c.offset 0 0 0 c
        (Leb128.groups (fun b => b == 0 || b == top) Leb128.maxGroups
          (c.ahead Leb128.maxGroups))) at hrun
    rw [Cursor.scan_of_sound hfail]
    cases hgroups : Leb128.groups (fun b => b == 0 || b == top) Leb128.maxGroups
        (c.ahead Leb128.maxGroups) with
    | done bytes width =>
      obtain ⟨hnumeral, -⟩ :=
        (Leb128.groups_eq_done_iff (Leb128.ends_of_stops htop) (by decide)).mp hgroups
      rw [hgroups] at hrun
      simp only [groupsOutcome, Nat.pow_zero, Nat.one_mul, Nat.zero_add] at hrun
      rw [run_bind_of_ok hrun, hfinish bytes _ hnumeral]
      rfl
    | stopped fault width =>
      rw [hgroups] at hrun
      simp only [groupsOutcome, Nat.add_sub_cancel_left] at hrun
      exact run_bind_of_error hrun

theorem agrees_uleb128 (hc : c.InMemory) : Agrees (fun c => c) uleb128 Cursor.uleb128 c := by
  apply Agrees.get_bind_left
  exact agrees_groups rfl hc fun bytes c' _ => rfl

theorem mirrors_uleb128 : Mirrors uleb128 Cursor.uleb128 where
  disciplined := Cursor.uleb128_disciplined
  agrees _ hc := agrees_uleb128 hc.inMemory

theorem unsignedValue_lt (bytes : List UInt8) :
    Leb128.unsignedValue bytes < 2 ^ (7 * bytes.length) := by
  induction bytes with
  | nil => exact Nat.zero_lt_one
  | cons b bs ih =>
    have hpayload := Leb128.payload_lt b
    rw [Leb128.unsignedValue, List.length_cons, Nat.mul_succ, Nat.pow_add]
    omega

theorem isNegative_eq {bytes : List UInt8} (h : bytes ≠ []) :
    Leb128.isNegative bytes = decide (bytes.getLastD 0 &&& 0x40 ≠ 0) := by
  simp only [and_sign_ne_zero_iff]
  rw [Leb128.isNegative, List.getLast?_eq_some_getLast h, List.getLastD_eq_getLast?,
    List.getLast?_eq_some_getLast h]
  rfl

theorem toInt64_ofNat {n : Nat} {i : Int} (h : (n : Int) % 2 ^ 64 = i % 2 ^ 64) :
    (UInt64.ofNat n).toInt64 = Int64.ofInt i := by
  rw [← Int64.toBitVec_inj]
  apply BitVec.eq_of_toNat_eq
  simp only [Int64.toBitVec_ofInt, BitVec.toNat_ofInt, UInt64.toBitVec_toInt64,
    UInt64.toBitVec_ofNat', BitVec.toNat_ofNat]
  omega

/-- A negative number has ones in front of its bits. -/
theorem signedValue_emod_of_negative {bytes : List UInt8} (h : Leb128.isNegative bytes = true) :
    ((Leb128.unsignedValue bytes + 2 ^ (7 * bytes.length) * (~~~0 : UInt64).toNat : Nat) : Int)
      % 2 ^ 64 = Leb128.signedValue bytes % 2 ^ 64 := by
  have hpower : Int.pow 128 bytes.length = 2 ^ (7 * bytes.length) := by
    rw [pow_mul]
    rfl
  have hones : (~~~0 : UInt64).toNat = 2 ^ 64 - 1 := rfl
  rw [Leb128.signedValue, if_pos h, hpower, hones, Int.emod_eq_emod_iff_emod_sub_eq_zero]
  apply Int.emod_eq_zero_of_dvd
  refine ⟨2 ^ (7 * bytes.length), ?_⟩
  push_cast
  ring

theorem agrees_sleb128 (hc : c.InMemory) : Agrees (fun c => c) sleb128 Cursor.sleb128 c := by
  apply Agrees.get_bind_left
  refine agrees_groups rfl hc fun bytes c' hnumeral => ?_
  have hlt := unsignedValue_lt bytes
  have hlast := isNegative_eq (List.ne_nil_of_length_pos hnumeral.length_pos)
  have hlength : bytes.length ≤ 10 := hnumeral.length_le
  dsimp only
  split_ifs with hsign
  · rw [run_done_bind (Word.shiftLeft_of_lt hsign.1), or_shiftLeft hlt hsign.1,
      toInt64_ofNat (signedValue_emod_of_negative (by rw [hlast, decide_eq_true hsign.2]))]
    rfl
  · have hvalue : Leb128.signedValue bytes % 2 ^ 64 = Leb128.unsignedValue bytes % 2 ^ 64 := by
      cases hnegative : Leb128.isNegative bytes with
      | false => simp [Leb128.signedValue, hnegative]
      | true =>
        have hten : bytes.length = 10 := by
          rw [hnegative] at hlast
          have := not_and'.mp hsign (of_decide_eq_true hlast.symm)
          omega
        rw [Leb128.signedValue, if_pos hnegative, hten]
        change (_ - 1180591620717411303424) % _ = _
        omega
    rw [toInt64_ofNat hvalue.symm]
    rfl

theorem mirrors_sleb128 : Mirrors sleb128 Cursor.sleb128 where
  disciplined := Cursor.sleb128_disciplined
  agrees _ hc := agrees_sleb128 hc.inMemory

end DebugLine.Checked
