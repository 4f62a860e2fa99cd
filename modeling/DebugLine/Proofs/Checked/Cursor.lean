import DebugLine.Proofs.Acceptance
import DebugLine.Proofs.Checked.Words

/-!
# Checked reads

A read works out where it ends, takes a slice of the section and picks bytes out of it. Inside the
section all of this has a result, since a read looks first whether enough bytes are left.
-/

namespace DebugLine

variable {α β : Type}

/-- The number in the first `width` of these bytes. -/
def Word.number (order : ByteOrder) (width : Nat) (bytes : List UInt8) : Option Nat :=
  if width ≤ bytes.length then some (order.value (bytes.take width)) else none

namespace Checked

def check : Checked Cursor Unit := do
  match (← get).failure with
  | some e => throw e
  | none => return ()

/-- Fails with the kept failure, or else with `e`, which is then kept. -/
def fail (e : LineError) : Checked Cursor α := do
  match (← get).failure with
  | some first => throw first
  | none =>
    modify fun c => { c with failure := some e }
    throw e

def take (n : Nat) : Checked Cursor (List UInt8) := do
  check
  let c ← get
  if c.remaining < n then
    fail (.unexpectedEnd c.offset n c.remaining)
  else
    let stop ← Word.add 64 c.offset n
    let bytes ← Word.slice c.bytes c.offset stop
    let offset ← Word.add 64 c.offset n
    set { c with offset }
    return bytes.toList

def skip (n : Nat) : Checked Cursor Unit := do
  let _ ← take n

def number (width : Nat) : Checked Cursor Nat := do
  let bytes ← take width
  Word.number (← get).byteOrder width bytes

def uint8 : Checked Cursor UInt8 := do
  let bytes ← take 1
  bytes[0]?

def uint16 : Checked Cursor UInt16 := do return UInt16.ofNat (← number 2)

def uint32 : Checked Cursor UInt32 := do return UInt32.ofNat (← number 4)

def uint64 : Checked Cursor UInt64 := do return UInt64.ofNat (← number 8)

def text : Checked Cursor String := do
  check
  let c ← get
  let available := ((Word.slice c.bytes c.offset c.limit).map Array.toList).getD []
  match available.findIdx? (· == 0) with
  | none =>
    let needed ← Word.add 64 available.length 1
    fail (.unexpectedEnd c.offset needed available.length)
  | some length =>
    let bytes ← take (← Word.add 64 length 1)
    let name ← Word.slice bytes.toArray 0 length
    return Utf8.decodeLossy name.toList

def address : Checked Cursor UInt64 := do
  match (← get).addressSize.toNat with
  | 1 => return (← uint8).toUInt64
  | 2 => return (← uint16).toUInt64
  | 4 => return (← uint32).toUInt64
  | 8 => uint64
  | _ => fail (.unsupportedAddressSize (← get).addressSize)

/-- Runs `item` `n` times. -/
def times (item : Checked Cursor α) : (n : Nat) → Checked Cursor (List α)
  | 0 => return []
  | n + 1 => do
    let x ← item
    let xs ← times item n
    return x :: xs

end Checked

/-- The cursor stands inside its section, whose size is that of an array in memory. -/
structure Cursor.InBounds (c : Cursor) : Prop where
  offset_le : c.offset ≤ c.limit
  limit_le : c.limit ≤ c.bytes.size
  size_lt : c.bytes.size < 2 ^ 63

/-- The cursor sees no more than its section, whose size is that of an array in memory. It may stand
behind the end of what it sees. -/
structure Cursor.InMemory (c : Cursor) : Prop where
  limit_le : c.limit ≤ c.bytes.size
  size_lt : c.bytes.size < 2 ^ 63

namespace Cursor.InMemory

variable {c : Cursor}

theorem passed (h : c.InMemory) (n : Nat) : (c.passed n).InMemory := ⟨h.limit_le, h.size_lt⟩

/-- A cursor that sees a byte stands in front of the end. -/
theorem inBounds (h : c.InMemory) (hwindow : c.window ≠ []) : c.InBounds where
  offset_le := by
    have hlength := List.length_pos_of_ne_nil hwindow
    rw [length_window h.limit_le, remaining] at hlength
    omega
  limit_le := h.limit_le
  size_lt := h.size_lt

end Cursor.InMemory

namespace Cursor.InBounds

variable {c c' : Cursor}

theorem inMemory (h : c.InBounds) : c.InMemory := ⟨h.limit_le, h.size_lt⟩

theorem onward (h : c.InBounds) (hmove : c.Onward c') : c'.InBounds where
  offset_le := hmove.offset_le_limit h.offset_le
  limit_le := by
    rw [hmove.limit_eq, hmove.bytes_eq]
    exact h.limit_le
  size_lt := by
    rw [hmove.bytes_eq]
    exact h.size_lt

theorem length_ahead (h : c.InBounds) (reach : Nat) :
    (c.ahead reach).length = min reach c.remaining := by
  have hlimit := h.limit_le
  simp only [ahead, remaining, Array.length_toList, Array.size_extract]
  omega

theorem length_ahead_of_le (h : c.InBounds) {n : Nat} (hn : n ≤ c.remaining) :
    (c.ahead n).length = n := by
  rw [h.length_ahead, min_eq_left hn]

theorem take_of_le (h : c.InBounds) (hsound : c.failure = none) {n : Nat} (hn : n ≤ c.remaining) :
    Cursor.take n c = .ok (c.ahead n) (c.passed n) := by
  have hlength := h.length_ahead_of_le hn
  rw [Cursor.take, scan_of_sound hsound, Scan.exactly, if_neg (by omega),
    List.take_of_length_le hlength.le]
  rfl

theorem take_of_lt (h : c.InBounds) (hsound : c.failure = none) {n : Nat} (hn : c.remaining < n) :
    Cursor.take n c = Cursor.fail (.unexpectedEnd c.offset n c.remaining) c := by
  have hlength := h.length_ahead n
  rw [min_eq_right hn.le] at hlength
  rw [Cursor.take, scan_of_sound hsound, Scan.exactly, if_pos (by omega), hlength, Cursor.fail,
    hsound]
  rfl

theorem slice_eq (h : c.InBounds) {n : Nat} (hn : n ≤ c.remaining) :
    Word.slice c.bytes c.offset (c.offset + n) = some (c.ahead n).toArray := by
  have hoffset := h.offset_le
  have hlimit := h.limit_le
  rw [remaining] at hn
  rw [Word.slice_of_le (Nat.le_add_right _ _) (by omega), ahead, Array.toArray_toList,
    min_eq_right (by omega)]

theorem add_eq (h : c.InBounds) {n : Nat} (hn : n ≤ c.remaining) :
    Word.add 64 c.offset n = some (c.offset + n) := by
  have hlimit := h.limit_le
  have hsize := h.size_lt
  have hoffset := h.offset_le
  rw [remaining] at hn
  exact Word.add_of_lt (by omega)

end Cursor.InBounds

namespace Checked

variable {c : Cursor}

/-- `x` reads as `y` does wherever the cursor stands inside its section. -/
structure Mirrors (x : Checked Cursor α) (y : Read α) : Prop where
  disciplined : Cursor.Disciplined y
  agrees : ∀ c, c.InBounds → Agrees (fun c => c) x y c

namespace Mirrors

variable {x : Checked Cursor α} {y : Read α} {f : α → Checked Cursor β} {g : α → Read β}

theorem pure (a : α) : Mirrors (Pure.pure a) (Pure.pure a) := ⟨.pure a, fun _ _ => .pure a⟩

theorem inBounds (h : Mirrors x y) (hc : c.InBounds) {a : α} {c' : Cursor}
    (hok : y c = .ok a c') : c'.InBounds := by
  have hmove := h.disciplined.moves c
  rw [hok] at hmove
  exact hc.onward hmove

theorem bind (hx : Mirrors x y) (hf : ∀ a, Mirrors (f a) (g a)) :
    Mirrors (x >>= f) (y >>= g) where
  disciplined := hx.disciplined.bind fun a => (hf a).disciplined
  agrees c hc := (hx.agrees c hc).bind fun a c' hok => (hf a).agrees c' (hx.inBounds hc hok)

end Mirrors

theorem agrees_fail (e : LineError) (c : Cursor) :
    Agrees (fun c => c) (fail e : Checked Cursor α) (Cursor.fail e) c := by
  apply Agrees.get_bind_left
  unfold Agrees Cursor.fail
  cases hfail : c.failure <;>
  · simp only
    rfl

theorem mirrors_fail (e : LineError) : Mirrors (fail e : Checked Cursor α) (Cursor.fail e) where
  disciplined := Cursor.fail_disciplined e
  agrees c _ := agrees_fail e c

theorem run_check_of_sound (hsound : c.failure = none) :
    check.run.run c = some (.ok (), c) := by
  unfold check
  change (ExceptT.run (match c.failure with
    | some e => throw e
    | none => return () : Checked Cursor Unit)).run c = _
  rw [hsound]
  rfl

theorem run_check_of_failure {e : LineError} (hfail : c.failure = some e) :
    check.run.run c = some (.error e, c) := by
  change (ExceptT.run (match c.failure with
    | some e => throw e
    | none => return () : Checked Cursor Unit)).run c = _
  rw [hfail]
  rfl

theorem mirrors_check : Mirrors check Cursor.check where
  disciplined := Cursor.check_disciplined
  agrees c hc := by
    unfold Agrees Cursor.check
    cases hfail : c.failure with
    | none => exact run_check_of_sound hfail
    | some e => exact run_check_of_failure hfail

theorem mirrors_take (n : Nat) : Mirrors (take n) (Cursor.take n) where
  disciplined := Cursor.take_disciplined n
  agrees c hc := by
    cases hfail : c.failure with
    | some e =>
      exact .of_error (Cursor.scan_of_failure hfail)
        (run_bind_of_error (run_check_of_failure hfail))
    | none =>
      apply Agrees.bind_left (run_check_of_sound hfail)
      apply Agrees.get_bind_left
      split_ifs with hshort
      · exact ((mirrors_fail _).agrees c hc).congr (hc.take_of_lt hfail hshort)
      · have hn : n ≤ c.remaining := Nat.le_of_not_lt hshort
        apply Agrees.done_bind (hc.add_eq hn)
        apply Agrees.done_bind (hc.slice_eq hn)
        apply Agrees.done_bind (hc.add_eq hn)
        exact .of_ok (hc.take_of_le hfail hn) rfl

theorem run_take_of_le (hc : c.InBounds) (hsound : c.failure = none) {n : Nat}
    (hn : n ≤ c.remaining) : (take n).run.run c = some (.ok (c.ahead n), c.passed n) :=
  ((mirrors_take n).agrees c hc).run_of_ok (hc.take_of_le hsound hn)

theorem mirrors_skip (n : Nat) : Mirrors (skip n) (Cursor.skip n) :=
  (mirrors_take n).bind fun _ => .pure ()

theorem length_of_take {n : Nat} {c' : Cursor} {bytes : List UInt8}
    (h : Cursor.take n c = .ok bytes c') : bytes.length = n := by
  obtain ⟨-, width, hdone, -⟩ := Cursor.scan_eq_ok h
  unfold Scan.exactly at hdone
  split_ifs at hdone with hshort
  obtain ⟨rfl, -⟩ := Scan.done.inj hdone
  rw [List.length_take]
  omega

theorem mirrors_number (width : Nat) : Mirrors (number width) (Cursor.number width) where
  disciplined := Cursor.number_disciplined width
  agrees c hc := by
    apply ((mirrors_take width).agrees c hc).bind
    intro bytes c' hok
    have hlength := length_of_take hok
    have hnumber : Word.number c'.byteOrder width bytes = some (c'.byteOrder.value bytes) := by
      rw [Word.number, if_pos hlength.ge, List.take_of_length_le hlength.le]
    apply Agrees.get_bind
    unfold Agrees
    rw [hnumber]
    rfl

theorem mirrors_uint8 : Mirrors uint8 Cursor.uint8 where
  disciplined := Cursor.uint8_disciplined
  agrees c hc := by
    simp only [Cursor.uint8, Cursor.number, bind_assoc, pure_bind]
    apply ((mirrors_take 1).agrees c hc).bind
    intro bytes c' hok
    obtain ⟨b, rfl⟩ := List.length_eq_one_iff.mp (length_of_take hok)
    have hvalue : UInt8.ofNat (c'.byteOrder.value [b]) = b := by
      cases c'.byteOrder <;> simp [ByteOrder.value, ByteOrder.littleValue]
    unfold Agrees
    change some (_, c') = some (Except.ok (UInt8.ofNat (c'.byteOrder.value [b])), c')
    rw [hvalue]

theorem mirrors_uint16 : Mirrors uint16 Cursor.uint16 :=
  (mirrors_number 2).bind fun n => .pure (UInt16.ofNat n)

theorem mirrors_uint32 : Mirrors uint32 Cursor.uint32 :=
  (mirrors_number 4).bind fun n => .pure (UInt32.ofNat n)

theorem mirrors_uint64 : Mirrors uint64 Cursor.uint64 :=
  (mirrors_number 8).bind fun n => .pure (UInt64.ofNat n)

theorem number_lt {width n : Nat} {c' : Cursor} (h : Cursor.number width c = .ok n c') :
    n < Nat.pow 256 width := by
  obtain ⟨bytes, d, htake, hvalue⟩ := bind_eq_ok.mp h
  cases hvalue
  have hlt := c'.byteOrder.value_lt bytes
  rwa [length_of_take htake] at hlt

/-- A number that is read as a narrow word and made wider is the number itself. -/
theorem mirrors_widened {width : Nat} {x : Checked Cursor α} {ofNat : Nat → α} {widen : α → UInt64}
    (hx : Mirrors x (do return ofNat (← Cursor.number width)))
    (hwiden : ∀ n, n < Nat.pow 256 width → widen (ofNat n) = UInt64.ofNat n) :
    Mirrors (do return widen (← x)) (do return UInt64.ofNat (← Cursor.number width)) where
  disciplined := (Cursor.number_disciplined width).bind fun n => .pure (UInt64.ofNat n)
  agrees c hc := by
    apply ((hx.bind fun a => .pure (widen a)).agrees c hc).congr
    rw [bind_assoc]
    cases hn : Cursor.number width c with
    | error e c' => rw [bind_of_error hn, bind_of_error hn]
    | ok n c' =>
      rw [bind_of_ok hn, bind_of_ok hn, pure_bind, hwiden n (number_lt hn)]

theorem mirrors_address : Mirrors address Cursor.address where
  disciplined := Cursor.address_disciplined
  agrees c hc := by
    apply Agrees.get_bind
    dsimp only
    by_cases hsize : c.addressSize ∈ addressSizes
    · rw [if_pos hsize]
      simp only [addressSizes, List.mem_cons, List.not_mem_nil, or_false] at hsize
      rcases hsize with h | h | h | h <;> rw [h]
      · exact (mirrors_widened mirrors_uint8 fun _ hn => UInt8.toUInt64_ofNat' hn).agrees c hc
      · exact (mirrors_widened mirrors_uint16 fun _ hn => UInt16.toUInt64_ofNat' hn).agrees c hc
      · exact (mirrors_widened mirrors_uint32 fun _ hn => UInt32.toUInt64_ofNat' hn).agrees c hc
      · exact mirrors_uint64.agrees c hc
    · rw [if_neg hsize]
      simp only [addressSizes, List.mem_cons, List.not_mem_nil, or_false, not_or,
        ← UInt8.toNat_inj] at hsize
      obtain ⟨h1, h2, h4, h8⟩ := hsize
      split
      · exact absurd ‹_› h1
      · exact absurd ‹_› h2
      · exact absurd ‹_› h4
      · exact absurd ‹_› h8
      · apply Agrees.get_bind_left
        exact (mirrors_fail _).agrees c hc

theorem mirrors_times {x : Checked Cursor α} {y : Read α} (h : Mirrors x y) (n : Nat) :
    Mirrors (times x n) (Cursor.times y n) := by
  induction n with
  | zero => exact .pure []
  | succ n ih => exact h.bind fun a => ih.bind fun as => .pure (a :: as)

/-- The scanner for text finds the first zero byte. -/
theorem zeroEnded_eq (ahead : List UInt8) :
    Scan.zeroEnded ahead =
      match ahead.findIdx? (· == 0) with
      | none => .stopped (.short (ahead.length + 1) ahead.length) 0
      | some length => .done (ahead.take length) (length + 1) := by
  have htext : ahead.takeWhile (· != 0) = ahead.take (ahead.findIdx (· == 0)) := by
    simp [List.takeWhile_eq_take_findIdx_not, bne]
  unfold Scan.zeroEnded
  rw [htext]
  cases hzero : ahead.findIdx? (· == 0) with
  | none =>
    rw [List.findIdx?_eq_none_iff_findIdx_eq] at hzero
    simp [hzero]
  | some length =>
    obtain ⟨hlt, rfl⟩ := List.findIdx?_eq_some_iff_findIdx_eq.mp hzero
    simp only [List.length_take, min_eq_left hlt.le, hlt, if_true]

theorem text_of_failure {e : LineError} (hfail : c.failure = some e) :
    Cursor.text c = .error e c := by
  change (Cursor.scan c.remaining Scan.zeroEnded >>= _) c = _
  exact bind_of_error (Cursor.scan_of_failure hfail)

/-- What lies in front of the zero byte, cut out of what has been taken with it. -/
theorem slice_ahead (hc : c.InBounds) {k : Nat} (hk : k + 1 ≤ c.remaining) :
    Word.slice (c.ahead (k + 1)).toArray 0 k = some (c.window.take k).toArray := by
  have hle : k ≤ (c.ahead (k + 1)).toArray.size := by
    simp [hc.length_ahead_of_le hk]
  rw [Word.slice_of_le (Nat.zero_le k) hle, Cursor.ahead_eq_take_window]
  simp [List.take_take]

theorem agrees_text_of_sound (hc : c.InBounds) (hsound : c.failure = none) :
    Agrees (fun c => c) text Cursor.text c := by
  have havailable : ((Word.slice c.bytes c.offset c.limit).map Array.toList).getD [] =
      c.window := by
    rw [Word.slice_of_le hc.offset_le hc.limit_le]
    rfl
  have hlength := Cursor.length_window hc.limit_le
  have hremaining : c.remaining < 2 ^ 63 :=
    ((Nat.sub_le _ _).trans hc.limit_le).trans_lt hc.size_lt
  have hahead : c.ahead c.remaining = c.window := by
    rw [Cursor.ahead_eq_take_window, List.take_of_length_le hlength.le]
  have hscan := @Cursor.scan_of_sound _ c.remaining Scan.zeroEnded c hsound
  rw [hahead, zeroEnded_eq] at hscan
  apply Agrees.bind_left (run_check_of_sound hsound)
  apply Agrees.get_bind
  simp only [havailable]
  cases hzero : c.window.findIdx? (· == 0) with
  | none =>
    rw [hzero] at hscan
    apply Agrees.done_bind (Word.add_of_lt (by omega))
    apply ((mirrors_fail _).agrees c hc).congr
    rw [bind_of_error hscan, Cursor.fail, hsound]
    rfl
  | some k =>
    obtain ⟨hlt, -⟩ := List.findIdx?_eq_some_iff_findIdx_eq.mp hzero
    have hk : k + 1 ≤ c.remaining := by omega
    rw [hzero] at hscan
    apply Agrees.done_bind (Word.add_of_lt (by omega))
    unfold Agrees
    rw [bind_of_ok hscan, run_bind_of_ok (run_take_of_le hc hsound hk),
      run_done_bind (slice_ahead hc hk)]
    rfl

theorem mirrors_text : Mirrors text Cursor.text where
  disciplined := Cursor.text_disciplined
  agrees c hc := by
    cases hfail : c.failure with
    | some e =>
      exact .of_error (text_of_failure hfail) (run_bind_of_error (run_check_of_failure hfail))
    | none => exact agrees_text_of_sound hc hfail

end Checked
end DebugLine
