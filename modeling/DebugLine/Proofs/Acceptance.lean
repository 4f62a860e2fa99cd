import DebugLine.Proofs.Decoding
import DebugLine.Proofs.HeaderIsolation
import DebugLine.Proofs.Numerals
import DebugLine.Proofs.Reading
import DebugLine.Proofs.Utf8
import Mathlib.Data.List.TakeWhile

/-!
# What reads accept

A read without an error accepts exactly the windows that start with bytes of a certain form: a
number of a fixed width, the groups of a number, text with the zero byte behind it. The value comes
from these bytes, and they are what the read passes. Forms of single reads put together one after
another are the forms of longer ones.
-/

namespace DebugLine

variable {α β : Type}

namespace ByteOrder

theorem littleBytes_littleValue (bytes : List UInt8) :
    littleBytes bytes.length (littleValue bytes) = bytes := by
  induction bytes with
  | nil => rfl
  | cons b bs ih =>
    have hbyte : UInt8.ofNat (b.toNat + 256 * littleValue bs) = b := by
      rw [← UInt8.toNat_inj, UInt8.toNat_ofNat', Nat.add_mul_mod_self_left]
      exact Nat.mod_eq_of_lt b.toNat_lt
    have hrest : (b.toNat + 256 * littleValue bs) / 256 = littleValue bs := by
      have := b.toNat_lt
      omega
    rw [List.length_cons, littleValue, littleBytes, hbyte, hrest, ih]

theorem bytes_value (order : ByteOrder) (bytes : List UInt8) :
    order.bytes bytes.length (order.value bytes) = bytes := by
  cases order with
  | little => exact littleBytes_littleValue bytes
  | big =>
    have h := littleBytes_littleValue bytes.reverse
    rw [List.length_reverse] at h
    simp [ByteOrder.bytes, value, h]

theorem value_lt (order : ByteOrder) (bytes : List UInt8) :
    order.value bytes < Nat.pow 256 bytes.length := by
  have h := value_bytes order bytes.length (order.value bytes)
  rw [bytes_value] at h
  rw [h]
  exact Nat.mod_lt _ (Nat.pow_pos (by decide))

/-- A number of fixed width has one written form. -/
theorem eq_bytes_iff {order : ByteOrder} {bytes : List UInt8} {width n : Nat} :
    bytes = order.bytes width n ∧ n < Nat.pow 256 width ↔
      bytes.length = width ∧ n = order.value bytes := by
  constructor
  · rintro ⟨rfl, hlt⟩
    exact ⟨length_bytes order width n, by rw [value_bytes, Nat.mod_eq_of_lt hlt]⟩
  · rintro ⟨rfl, rfl⟩
    exact ⟨(bytes_value order bytes).symm, value_lt order bytes⟩

end ByteOrder

namespace Scan

/-- What ends in a zero byte is what lies in front of the first one. -/
theorem zeroEnded_eq_done_iff {ahead name : List UInt8} {width : Nat} :
    zeroEnded ahead = .done name width ↔
      ∃ bytes rest, ahead = bytes ++ rest ∧ (bytes = name ++ [0] ∧ 0 ∉ name) ∧
        width = bytes.length := by
  constructor
  · intro h
    unfold zeroEnded at h
    dsimp only at h
    split_ifs at h with hshort
    obtain ⟨rfl, rfl⟩ := Scan.done.inj h
    have hsplit := List.takeWhile_append_dropWhile (p := (· != (0 : UInt8))) (l := ahead)
    cases hdrop : ahead.dropWhile (· != 0) with
    | nil =>
      rw [hdrop, List.append_nil] at hsplit
      rw [hsplit] at hshort
      exact absurd hshort (lt_irrefl _)
    | cons b rest =>
      have hb : b = 0 := by
        have hhead := List.head?_dropWhile_not (· != (0 : UInt8)) ahead
        rw [hdrop] at hhead
        simpa using hhead
      subst hb
      refine ⟨ahead.takeWhile (· != 0) ++ [0], rest, ?_, ⟨rfl, fun hmem => ?_⟩, by simp⟩
      · rw [List.append_assoc, List.singleton_append, ← hdrop, hsplit]
      · simpa using List.mem_takeWhile_imp hmem
  · rintro ⟨bytes, rest, rfl, ⟨rfl, hname⟩, rfl⟩
    have htake : (name ++ [0] ++ rest).takeWhile (· != 0) = name := by
      rw [List.append_assoc, List.takeWhile_append_of_pos]
      · simp
      · intro b hb
        simpa using ne_of_mem_of_not_mem hb hname
    simp only [zeroEnded, htake]
    rw [if_pos (by simp), List.length_append, List.length_singleton]

end Scan

namespace Cursor

variable {c : Cursor}

/-- The cursor behind the next `n` bytes. -/
def passed (c : Cursor) (n : Nat) : Cursor := { c with offset := c.offset + n }

@[simp] theorem offset_passed (n : Nat) : (c.passed n).offset = c.offset + n := rfl

@[simp] theorem limit_passed (n : Nat) : (c.passed n).limit = c.limit := rfl

@[simp] theorem byteOrder_passed (n : Nat) : (c.passed n).byteOrder = c.byteOrder := rfl

@[simp] theorem addressSize_passed (n : Nat) : (c.passed n).addressSize = c.addressSize := rfl

@[simp] theorem failure_passed (n : Nat) : (c.passed n).failure = c.failure := rfl

@[simp] theorem passed_zero : c.passed 0 = c := rfl

@[simp] theorem passed_passed (n k : Nat) : (c.passed n).passed k = c.passed (n + k) := by
  simp [passed, Nat.add_assoc]

@[simp] theorem window_passed (n : Nat) : (c.passed n).window = c.window.drop n :=
  c.window_advance n

theorem length_window (h : c.limit ≤ c.bytes.size) : c.window.length = c.remaining := by
  simp only [window, remaining, Array.length_toList, Array.size_extract]
  omega

/-- From `c` the read succeeds exactly where the window starts with bytes that `spec` allows, gives
the value that `spec` pairs with them, and passes them. -/
def Accepts (spec : List UInt8 → α → Prop) (x : Read α) (c : Cursor) : Prop :=
  ∀ a c', x c = .ok a c' ↔
    ∃ bytes rest, c.window = bytes ++ rest ∧ spec bytes a ∧ c' = c.passed bytes.length

theorem Accepts.congr {spec spec' : List UInt8 → α → Prop} {x : Read α} (h : Accepts spec x c)
    (hspec : ∀ bytes a, spec' bytes a ↔ spec bytes a) : Accepts spec' x c := by
  intro a c'
  simp only [h a c', hspec]

theorem Accepts.pure (a : α) : Accepts (fun bytes b => bytes = [] ∧ b = a) (pure a : Read α) c := by
  intro b c'
  constructor
  · intro h
    cases h
    exact ⟨[], c.window, rfl, ⟨rfl, rfl⟩, rfl⟩
  · rintro ⟨_, _, -, ⟨rfl, rfl⟩, rfl⟩
    rfl

/-- The bytes of two reads lie one after the other. -/
theorem Accepts.bind {spec : List UInt8 → α → Prop} {later : List UInt8 → α → List UInt8 → β → Prop}
    {x : Read α} {f : α → Read β} (hx : Accepts spec x c)
    (hf : ∀ bytes rest a, c.window = bytes ++ rest → spec bytes a →
      Accepts (later bytes a) (f a) (c.passed bytes.length)) :
    Accepts (fun bytes b => ∃ front a back, bytes = front ++ back ∧ spec front a ∧
      later front a back b) (x >>= f) c := by
  intro b c'
  rw [bind_eq_ok]
  constructor
  · rintro ⟨a, t, ht, hb⟩
    obtain ⟨front, rest, hwindow, hfront, rfl⟩ := (hx a t).mp ht
    obtain ⟨back, tail, hrest, hback, rfl⟩ := (hf front rest a hwindow hfront b c').mp hb
    rw [window_passed, hwindow, List.drop_left] at hrest
    refine ⟨front ++ back, tail, ?_, ⟨front, a, back, rfl, hfront, hback⟩, ?_⟩
    · rw [hwindow, hrest, List.append_assoc]
    · rw [passed_passed, List.length_append]
  · rintro ⟨_, tail, hwindow, ⟨front, a, back, rfl, hfront, hback⟩, rfl⟩
    rw [List.append_assoc] at hwindow
    refine ⟨a, c.passed front.length, (hx a _).mpr ⟨front, _, hwindow, hfront, rfl⟩, ?_⟩
    refine (hf front _ a hwindow hfront b _).mpr ⟨back, tail, ?_, hback, ?_⟩
    · rw [window_passed, hwindow, List.drop_left]
    · rw [passed_passed, List.length_append]

theorem Accepts.map {spec : List UInt8 → α → Prop} {x : Read α} (hx : Accepts spec x c)
    (f : α → β) :
    Accepts (fun bytes b => ∃ a, spec bytes a ∧ b = f a) (x >>= fun a => Pure.pure (f a)) c := by
  refine (hx.bind fun _ _ a _ _ => .pure (f a)).congr fun bytes b => ?_
  constructor
  · rintro ⟨a, hspec, rfl⟩
    exact ⟨bytes, a, [], (List.append_nil _).symm, hspec, rfl, rfl⟩
  · rintro ⟨front, a, _, rfl, hspec, rfl, rfl⟩
    rw [List.append_nil]
    exact ⟨a, hspec, rfl⟩

theorem Accepts.get_bind {spec : List UInt8 → α → Prop} {f : Cursor → Read α}
    (h : Accepts spec (f c) c) : Accepts spec (MonadState.get >>= f) c := h

theorem position_accepts : Accepts (fun bytes a => bytes = [] ∧ a = c.offset) position c :=
  .get_bind (.pure c.offset)

theorem Accepts.position_bind {spec : List UInt8 → α → Prop} {f : Nat → Read α}
    (h : Accepts spec (f c.offset) c) : Accepts spec (position >>= f) c := h

theorem fail_accepts (e : LineError) : Accepts (fun _ _ => False) (fail e : Read α) c := by
  intro a c'
  unfold fail
  cases c.failure <;> simp

theorem require_accepts (p : Prop) [Decidable p] (e : LineError) :
    Accepts (fun bytes _ => bytes = [] ∧ p) (require p e) c := by
  unfold require
  split_ifs with h
  · exact (Accepts.pure ()).congr (by simp [h])
  · exact (fail_accepts e).congr (by simp [h])

theorem Accepts.require_bind {p : Prop} [Decidable p] {e : LineError}
    {spec : List UInt8 → α → Prop} {f : Unit → Read α} (hf : p → Accepts spec (f ()) c) :
    Accepts (fun bytes a => p ∧ spec bytes a) (require p e >>= f) c := by
  by_cases h : p
  · rw [require, if_pos h]
    exact (hf h).congr (by simp [h])
  · rw [require, if_neg h, fail_bind]
    exact (fail_accepts e).congr (by simp [h])

/-- From `c` the read gives `a` where the window starts with `bytes`, which it passes. -/
def Reads (x : Read α) (c : Cursor) (bytes : List UInt8) (a : α) : Prop :=
  ∀ rest, c.window = bytes ++ rest → x c = .ok a (c.passed bytes.length)

theorem Accepts.reads {spec : List UInt8 → α → Prop} {x : Read α} {bytes : List UInt8} {a : α}
    (h : Accepts spec x c) (hspec : spec bytes a) : Reads x c bytes a := fun rest hwindow =>
  (h a _).mpr ⟨bytes, rest, hwindow, hspec, rfl⟩

theorem Reads.pure (a : α) : Reads (pure a : Read α) c [] a := fun _ _ => rfl

theorem Reads.bind {x : Read α} {f : α → Read β} {front back : List UInt8} {a : α} {b : β}
    (hx : Reads x c front a) (hf : Reads (f a) (c.passed front.length) back b) :
    Reads (x >>= f) c (front ++ back) b := by
  intro rest hwindow
  rw [List.append_assoc] at hwindow
  have hrest : (c.passed front.length).window = back ++ rest := by
    simp [hwindow]
  rw [bind_of_ok (hx _ hwindow), hf rest hrest, passed_passed, List.length_append]

theorem Reads.map {x : Read α} {bytes : List UInt8} {a : α} (hx : Reads x c bytes a) (f : α → β) :
    Reads (x >>= fun a => Pure.pure (f a)) c bytes (f a) := by
  rw [← List.append_nil bytes]
  exact hx.bind (.pure (f a))

theorem Reads.require_bind {p : Prop} [Decidable p] {e : LineError} {f : Unit → Read α}
    {bytes : List UInt8} {a : α} (hp : p) (h : Reads (f ()) c bytes a) :
    Reads (require p e >>= f) c bytes a := by
  rw [require, if_pos hp]
  exact h

/-- A read in front of one that succeeds has accepted what it passed. -/
theorem of_bind {spec : List UInt8 → α → Prop} {x : Read α} {f : α → Read β} {b : β} {c' : Cursor}
    (hx : Accepts spec x c) (h : (x >>= f) c = .ok b c') :
    ∃ front a, c.window = front ++ (c.passed front.length).window ∧ spec front a ∧
      f a (c.passed front.length) = .ok b c' := by
  obtain ⟨a, t, ht, hb⟩ := bind_eq_ok.mp h
  obtain ⟨front, rest, hwindow, hspec, rfl⟩ := (hx a t).mp ht
  refine ⟨front, a, ?_, hspec, hb⟩
  simp [hwindow]

theorem of_require_bind {p : Prop} [Decidable p] {e : LineError} {f : Unit → Read α} {a : α}
    {c' : Cursor} (h : (require p e >>= f) c = .ok a c') : p ∧ f () c = .ok a c' := by
  obtain ⟨_, t, ht, ha⟩ := bind_eq_ok.mp h
  obtain ⟨_, _, -, ⟨rfl, hp⟩, rfl⟩ := (require_accepts p e _ _).mp ht
  exact ⟨hp, ha⟩

/-- A read accepts what it is known to read, if it reads nothing else. -/
theorem Accepts.of_reads {spec : List UInt8 → α → Prop} {x : Read α}
    (hreads : ∀ bytes a, spec bytes a → Reads x c bytes a)
    (honly : ∀ a c', x c = .ok a c' → ∃ bytes, c.window = bytes ++ c'.window ∧ spec bytes a) :
    Accepts spec x c := by
  intro a c'
  constructor
  · intro h
    obtain ⟨bytes, hwindow, hspec⟩ := honly a c' h
    rw [hreads bytes a hspec _ hwindow] at h
    cases h
    exact ⟨bytes, _, hwindow, hspec, rfl⟩
  · rintro ⟨bytes, rest, hwindow, hspec, rfl⟩
    exact hreads bytes a hspec rest hwindow

theorem length_window_le (c : Cursor) : c.window.length ≤ c.remaining := by
  simp only [window, remaining, Array.length_toList, Array.size_extract]
  omega

section Sound

variable (hsound : c.failure = none)
include hsound

theorem scan_accepts {spec : List UInt8 → α → Prop} {scanner : List UInt8 → Scan α} {reach : Nat}
    (h : ∀ a width, scanner (c.ahead reach) = .done a width ↔
      ∃ bytes rest, c.window = bytes ++ rest ∧ spec bytes a ∧ width = bytes.length) :
    Accepts spec (scan reach scanner) c := by
  intro a c'
  constructor
  · intro hok
    obtain ⟨-, width, hdone, rfl⟩ := scan_eq_ok hok
    obtain ⟨bytes, rest, hwindow, hspec, rfl⟩ := (h a width).mp hdone
    exact ⟨bytes, rest, hwindow, hspec, rfl⟩
  · rintro ⟨bytes, rest, hwindow, hspec, rfl⟩
    rw [scan_of_sound hsound, (h a bytes.length).mpr ⟨bytes, rest, hwindow, hspec, rfl⟩]
    rfl

theorem take_accepts (n : Nat) :
    Accepts (fun bytes a => bytes.length = n ∧ a = bytes) (take n) c := by
  refine scan_accepts hsound fun a width => ?_
  rw [ahead_eq_take_window, Scan.exactly]
  constructor
  · intro h
    split_ifs at h with hshort
    rw [List.length_take] at hshort
    obtain ⟨rfl, rfl⟩ := Scan.done.inj h
    rw [List.take_take, min_self]
    refine ⟨c.window.take n, c.window.drop n, (List.take_append_drop _ _).symm, ⟨?_, rfl⟩, ?_⟩ <;>
      rw [List.length_take] <;> omega
  · rintro ⟨bytes, rest, hwindow, ⟨rfl, rfl⟩, rfl⟩
    simp [hwindow]

theorem skip_accepts (n : Nat) : Accepts (fun bytes _ => bytes.length = n) (skip n) c := by
  refine ((take_accepts hsound n).bind fun _ _ _ _ _ => .pure ()).congr fun bytes a => ?_
  simp

theorem number_accepts (width : Nat) :
    Accepts (fun bytes n => bytes = c.byteOrder.bytes width n ∧ n < Nat.pow 256 width)
      (number width) c := by
  refine ((take_accepts hsound width).bind fun bytes rest a _ _ =>
    .get_bind (.pure (c.byteOrder.value a))).congr fun bytes n => ?_
  rw [ByteOrder.eq_bytes_iff]
  simp

/-- A number of fixed width as a value of a type that holds just these numbers. -/
theorem number_map_accepts {width : Nat} {ofNat : Nat → α} {toNat : α → Nat}
    (hlt : ∀ a, toNat a < Nat.pow 256 width) (hofNat : ∀ a, ofNat (toNat a) = a)
    (htoNat : ∀ n, n < Nat.pow 256 width → toNat (ofNat n) = n) :
    Accepts (fun bytes a => bytes = c.byteOrder.bytes width (toNat a))
      (number width >>= fun n => pure (ofNat n)) c := by
  refine ((number_accepts hsound width).map ofNat).congr fun bytes a => ?_
  constructor
  · rintro rfl
    exact ⟨toNat a, ⟨rfl, hlt a⟩, (hofNat a).symm⟩
  · rintro ⟨n, ⟨rfl, hn⟩, rfl⟩
    rw [htoNat n hn]

theorem uint8_accepts : Accepts (fun bytes b => bytes = [b]) uint8 c := by
  have hread : Accepts (fun bytes b => bytes = c.byteOrder.bytes 1 b.toNat) uint8 c :=
    number_map_accepts hsound UInt8.toNat_lt (fun _ => UInt8.ofNat_toNat)
      fun _ hn => UInt8.toNat_ofNat_of_lt' hn
  refine hread.congr fun bytes b => ?_
  cases c.byteOrder <;> simp [ByteOrder.bytes, ByteOrder.littleBytes]

theorem uint16_accepts :
    Accepts (fun bytes v => bytes = c.byteOrder.bytes 2 v.toNat) uint16 c :=
  number_map_accepts hsound UInt16.toNat_lt (fun _ => UInt16.ofNat_toNat)
    fun _ hn => UInt16.toNat_ofNat_of_lt' hn

theorem uint32_accepts :
    Accepts (fun bytes v => bytes = c.byteOrder.bytes 4 v.toNat) uint32 c :=
  number_map_accepts hsound UInt32.toNat_lt (fun _ => UInt32.ofNat_toNat)
    fun _ hn => UInt32.toNat_ofNat_of_lt' hn

theorem uint64_accepts :
    Accepts (fun bytes v => bytes = c.byteOrder.bytes 8 v.toNat) uint64 c :=
  number_map_accepts hsound UInt64.toNat_lt (fun _ => UInt64.ofNat_toNat)
    fun _ hn => UInt64.toNat_ofNat_of_lt' hn

theorem address_accepts (hsize : c.addressSize ∈ addressSizes) :
    Accepts (fun bytes a => bytes = c.byteOrder.bytes c.addressSize.toNat a.toNat ∧
      a.toNat < Nat.pow 256 c.addressSize.toNat) address c := by
  have hwide : Nat.pow 256 c.addressSize.toNat ≤ UInt64.size := by
    have hsizes : ∀ size ∈ addressSizes, Nat.pow 256 size.toNat ≤ UInt64.size := by
      decide +kernel
    exact hsizes _ hsize
  refine .get_bind ?_
  rw [if_pos hsize]
  refine ((number_accepts hsound c.addressSize.toNat).map UInt64.ofNat).congr fun bytes a => ?_
  constructor
  · rintro ⟨rfl, hlt⟩
    exact ⟨a.toNat, ⟨rfl, hlt⟩, UInt64.ofNat_toNat.symm⟩
  · rintro ⟨n, ⟨rfl, hn⟩, rfl⟩
    rw [UInt64.toNat_ofNat_of_lt' (hn.trans_le hwide)]
    exact ⟨rfl, hn⟩

/-- A scanner for one number takes no more than the groups of one number. -/
theorem groups_accepts {top : UInt8 → Bool} (htop : Leb128.Ends top) (ofGroups : List UInt8 → α) :
    Accepts (fun bytes a => Leb128.IsNumeral top Leb128.maxGroups bytes ∧ a = ofGroups bytes)
      (scan Leb128.maxGroups fun ahead =>
        (Leb128.groups top Leb128.maxGroups ahead).map ofGroups) c := by
  refine scan_accepts hsound fun a width => ?_
  rw [ahead_eq_take_window]
  constructor
  · intro h
    cases hgroups : Leb128.groups top Leb128.maxGroups (c.window.take Leb128.maxGroups) with
    | stopped fault w => simp [hgroups, Scan.map] at h
    | done bytes w =>
      rw [hgroups] at h
      obtain ⟨rfl, rfl⟩ := Scan.done.inj h
      obtain ⟨hnumeral, hwidth, rest, htake⟩ :=
        (Leb128.groups_eq_done_iff htop (by decide)).mp hgroups
      refine ⟨bytes, rest ++ c.window.drop Leb128.maxGroups, ?_, ⟨hnumeral, rfl⟩, hwidth⟩
      rw [← List.append_assoc, ← htake, List.take_append_drop]
  · rintro ⟨bytes, rest, hwindow, ⟨hnumeral, rfl⟩, rfl⟩
    rw [hwindow, List.take_append, List.take_of_length_le hnumeral.length_le,
      hnumeral.groups_append]
    rfl

theorem uleb128_accepts :
    Accepts (fun bytes a => Leb128.IsUnsigned bytes ∧ a = Leb128.unsignedWord bytes) uleb128 c :=
  groups_accepts hsound Leb128.unsignedTop_ends _

theorem sleb128_accepts :
    Accepts (fun bytes a => Leb128.IsNumeral Leb128.signedTop Leb128.maxGroups bytes ∧
      a = Int64.ofInt (Leb128.signedValue bytes)) sleb128 c :=
  groups_accepts hsound Leb128.signedTop_ends _

/-- Text is what lies in front of the first zero byte. -/
theorem text_accepts :
    Accepts (fun bytes a => ∃ name, bytes = name ++ [0] ∧ 0 ∉ name ∧ a = Utf8.decodeLossy name)
      text c := by
  have hscan : Accepts (fun bytes name => bytes = name ++ [0] ∧ 0 ∉ name)
      (scan c.remaining Scan.zeroEnded) c := by
    refine scan_accepts hsound fun name width => ?_
    rw [ahead_eq_take_window, List.take_of_length_le c.length_window_le]
    exact Scan.zeroEnded_eq_done_iff
  refine .get_bind ((hscan.map Utf8.decodeLossy).congr fun bytes a => ?_)
  simp only [and_assoc]

omit hsound in
theorem times_accepts {item : Read α} {spec : List UInt8 → α → Prop}
    (h : ∀ k, Accepts spec item (c.passed k)) (n : Nat) :
    Accepts (fun bytes items => ∃ parts, bytes = parts.flatten ∧ List.Forall₂ spec parts items ∧
      items.length = n) (times item n) c := by
  induction n generalizing c with
  | zero =>
    refine (Accepts.pure []).congr fun bytes items => ?_
    constructor
    · rintro ⟨parts, rfl, hparts, hlength⟩
      obtain rfl := List.eq_nil_of_length_eq_zero hlength
      obtain rfl := List.forall₂_nil_right_iff.mp hparts
      exact ⟨rfl, rfl⟩
    · rintro ⟨rfl, rfl⟩
      exact ⟨[], rfl, .nil, rfl⟩
  | succ n ih =>
    have hrest (k : Nat) : ∀ j, Accepts spec item ((c.passed k).passed j) := by
      intro j
      rw [passed_passed]
      exact h _
    refine ((h 0).bind fun front _ x _ _ => (ih (hrest front.length)).bind fun _ _ xs _ _ =>
      .pure (x :: xs)).congr fun bytes items => ?_
    constructor
    · rintro ⟨parts, rfl, hparts, hlength⟩
      cases hparts with
      | nil => cases hlength
      | @cons part x parts xs hpart hparts =>
        exact ⟨part, x, parts.flatten, rfl, hpart, parts.flatten, xs, [],
          (List.append_nil _).symm, ⟨parts, rfl, hparts, Nat.succ.inj hlength⟩, rfl, rfl⟩
    · rintro ⟨part, x, _, rfl, hpart, _, xs, _, rfl, ⟨parts, rfl, hparts, hlength⟩, rfl, rfl⟩
      exact ⟨part :: parts, by simp, .cons hpart hparts, congrArg Nat.succ hlength⟩

end Sound

end Cursor

namespace FileTable

variable {t : FileTable}

/-- The table with these entries appended one after another. -/
def pushAll (t : FileTable) (entries : List FileEntry) : FileTable := entries.foldl push t

@[simp] theorem pushAll_nil (t : FileTable) : t.pushAll [] = t := rfl

@[simp] theorem pushAll_cons (t : FileTable) (entry : FileEntry) (entries : List FileEntry) :
    t.pushAll (entry :: entries) = (t.push entry).pushAll entries := rfl

@[simp] theorem pushAll_append (t : FileTable) (entries more : List FileEntry) :
    t.pushAll (entries ++ more) = (t.pushAll entries).pushAll more :=
  List.foldl_append

@[simp] theorem limit_pushAll (t : FileTable) (entries : List FileEntry) :
    (t.pushAll entries).limit = t.limit := by
  induction entries generalizing t with
  | nil => rfl
  | cons entry entries ih => exact ih (t.push entry)

@[simp] theorem count_pushAll (t : FileTable) (entries : List FileEntry) :
    (t.pushAll entries).count = t.count + entries.length := by
  induction entries generalizing t with
  | nil => rfl
  | cons entry entries ih =>
    rw [pushAll_cons, ih, count_push, List.length_cons]
    omega

/-- Where nothing is hidden, appending is all that happens. -/
theorem pushAll_of_hidden_eq_nil (h : t.hidden = []) (entries : List FileEntry) :
    t.pushAll entries = { t with visible := t.visible ++ entries.toArray } := by
  induction entries generalizing t with
  | nil => simp
  | cons entry entries ih =>
    rw [pushAll_cons, ih (by rw [push, h, List.tail_nil])]
    simp [push, h]

/-- Whether `n` more entries may become visible. -/
def HasRoom (t : FileTable) (n : Nat) : Prop := ∀ limit, t.limit = some limit → t.count + n ≤ limit

theorem hasRoom_empty {limit : Option Nat} {n : Nat} :
    (empty limit).HasRoom n ↔ ∀ most, limit = some most → n ≤ most := by
  simp [HasRoom, empty, count]

theorem HasRoom.mono {n k : Nat} (h : t.HasRoom n) (hk : k ≤ n) : t.HasRoom k := by
  intro limit hlimit
  have := h limit hlimit
  omega

theorem reachedLimit?_eq_none_iff : t.reachedLimit? = none ↔ t.HasRoom 1 := by
  rw [reachedLimit?, Option.filter_eq_none_iff, HasRoom]
  refine forall₂_congr fun limit _ => ?_
  rw [decide_eq_true_eq]
  omega

theorem hasRoom_push (t : FileTable) (entry : FileEntry) (n : Nat) :
    (t.push entry).HasRoom n ↔ t.HasRoom (n + 1) := by
  simp only [HasRoom, count_push]
  refine forall₂_congr fun limit _ => ?_
  omega

end FileTable

namespace Decoder

variable {d : Decoder}

/-- The decoder behind the next `n` bytes, with these files appended. -/
def passed (d : Decoder) (n : Nat) (added : List FileEntry) : Decoder :=
  ⟨d.cursor.passed n, d.files.pushAll added⟩

@[simp] theorem cursor_passed (n : Nat) (added : List FileEntry) :
    (d.passed n added).cursor = d.cursor.passed n := rfl

@[simp] theorem files_passed (n : Nat) (added : List FileEntry) :
    (d.passed n added).files = d.files.pushAll added := rfl

@[simp] theorem passed_passed (n k : Nat) (added more : List FileEntry) :
    (d.passed n added).passed k more = d.passed (n + k) (added ++ more) := by
  simp [passed]

/-- From `d` the decoding gives `a` and appends `added` where the window starts with `bytes`, which
it passes. -/
def Reads (x : Decode α) (d : Decoder) (bytes : List UInt8) (a : α) (added : List FileEntry) :
    Prop :=
  ∀ rest, d.cursor.window = bytes ++ rest → x d = .ok a (d.passed bytes.length added)

theorem Reads.pure (a : α) : Reads (pure a : Decode α) d [] a [] := fun _ _ => rfl

/-- What two decodings read lies one after the other. -/
theorem Reads.bind {x : Decode α} {f : α → Decode β} {front back : List UInt8} {a : α} {b : β}
    {added more : List FileEntry} (hx : Reads x d front a added)
    (hf : Reads (f a) (d.passed front.length added) back b more) :
    Reads (x >>= f) d (front ++ back) b (added ++ more) := by
  intro rest hwindow
  rw [List.append_assoc] at hwindow
  have hrest : (d.passed front.length added).cursor.window = back ++ rest := by
    simp [hwindow]
  rw [bind_of_ok (hx _ hwindow), hf rest hrest, passed_passed, List.length_append]

theorem Reads.map {x : Decode α} {bytes : List UInt8} {a : α} {added : List FileEntry}
    (hx : Reads x d bytes a added) (f : α → β) :
    Reads (x >>= fun a => Pure.pure (f a)) d bytes (f a) added := by
  rw [← List.append_nil bytes, ← List.append_nil added]
  exact hx.bind (.pure (f a))

theorem reads_ofRead {x : Read α} {bytes : List UInt8} {a : α}
    (h : Cursor.Reads x d.cursor bytes a) : Reads (Decode.ofRead x) d bytes a [] :=
  fun rest hwindow => ofRead_of_ok (h rest hwindow)

theorem Reads.ofRead_bind {spec : List UInt8 → α → Prop} {x : Read α} {f : α → Decode β}
    {front back : List UInt8} {a : α} {b : β} {added : List FileEntry}
    (h : Cursor.Accepts spec x d.cursor) (hspec : spec front a)
    (hf : Reads (f a) (d.passed front.length []) back b added) :
    Reads (Decode.ofRead x >>= f) d (front ++ back) b added :=
  (reads_ofRead (h.reads hspec)).bind hf

theorem Reads.position_bind {f : Nat → Decode α} {bytes : List UInt8} {a : α}
    {added : List FileEntry} (h : Reads (f d.cursor.offset) d bytes a added) :
    Reads (Decode.ofRead Cursor.position >>= f) d bytes a added := h

theorem Reads.require_bind {p : Prop} [Decidable p] {e : LineError} {f : Unit → Decode α}
    {bytes : List UInt8} {a : α} {added : List FileEntry} (hp : p)
    (h : Reads (f ()) d bytes a added) :
    Reads (Decode.ofRead (Cursor.require p e) >>= f) d bytes a added := by
  rw [Cursor.require, if_pos hp]
  exact h

/-- A read in front of a decoding that succeeds has accepted what it passed. -/
theorem of_ofRead_bind {spec : List UInt8 → α → Prop} {x : Read α} {f : α → Decode β} {b : β}
    {d' : Decoder} (hx : Cursor.Accepts spec x d.cursor)
    (h : (Decode.ofRead x >>= f) d = .ok b d') :
    ∃ front a, d.cursor.window = front ++ (d.passed front.length []).cursor.window ∧
      spec front a ∧ f a (d.passed front.length []) = .ok b d' := by
  obtain ⟨a, t, ht, hb⟩ := bind_eq_ok.mp h
  obtain ⟨c, hc, rfl⟩ := ofRead_eq_ok ht
  obtain ⟨front, rest, hwindow, hspec, rfl⟩ := (hx a c).mp hc
  refine ⟨front, a, ?_, hspec, hb⟩
  simp [hwindow]

theorem ofRead_fail_ne_ok {e : LineError} {a : α} {d' : Decoder} :
    Decode.ofRead (Cursor.fail e) d ≠ .ok a d' := by
  intro h
  obtain ⟨c, hc, -⟩ := ofRead_eq_ok h
  obtain ⟨_, _, _, hfalse, -⟩ := (Cursor.fail_accepts _ _ _).mp hc
  exact hfalse

theorem append_of_limit {entry : FileEntry} {offset limit : Nat}
    (h : d.files.reachedLimit? = some limit) :
    append entry offset d = Decode.ofRead (Cursor.fail (.fileTableFull offset limit)) d := by
  refine (bind_of_ok (show (get : Decode Decoder) d = .ok d d from rfl)).trans ?_
  rw [h]
  rfl

theorem append_of_room {entry : FileEntry} {offset : Nat} (h : d.files.reachedLimit? = none) :
    append entry offset d = .ok () { d with files := d.files.push entry } := by
  refine (bind_of_ok (show (get : Decode Decoder) d = .ok d d from rfl)).trans ?_
  rw [h]
  rfl

theorem append_eq_ok_iff {entry : FileEntry} {offset : Nat} {u : Unit} {d' : Decoder} :
    append entry offset d = .ok u d' ↔ d.files.HasRoom 1 ∧ d' = d.passed 0 [entry] := by
  rw [← FileTable.reachedLimit?_eq_none_iff]
  cases hlimit : d.files.reachedLimit? with
  | some limit =>
    rw [append_of_limit hlimit]
    exact iff_of_false ofRead_fail_ne_ok (by simp)
  | none =>
    rw [append_of_room hlimit]
    constructor
    · intro h
      cases h
      exact ⟨rfl, rfl⟩
    · rintro ⟨-, rfl⟩
      rfl

theorem Reads.append_bind {entry : FileEntry} {offset : Nat} {f : Unit → Decode α}
    {bytes : List UInt8} {a : α} {added : List FileEntry} (hroom : d.files.HasRoom 1)
    (h : Reads (f ()) (d.passed 0 [entry]) bytes a added) :
    Reads (append entry offset >>= f) d bytes a (entry :: added) := by
  intro rest hwindow
  rw [bind_of_ok (append_eq_ok_iff.mpr ⟨hroom, rfl⟩), h rest hwindow, passed_passed, Nat.zero_add,
    List.singleton_append]

end Decoder
end DebugLine
