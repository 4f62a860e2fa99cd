import DebugLine.Proofs.Acceptance
import DebugLine.Proofs.GroupRuns

/-!
# Requests to a cursor

A cursor may be asked to read, to move, to change its limit and to keep a failure, in any order.
Neither its place nor its limit ever comes to lie past the section, and only a move takes it back. A
read that succeeds depends on the bytes that it passes and on no others, and these lie inside the
window. A read that fails stays where it is, unless it reads group by group, and where it ends
unexpectedly it wants more bytes than are left. Once a failure is kept, every read gives it and
changes nothing.
-/

namespace DebugLine.Cursor

open Leb128 (IsNumeral IsUnsigned maxGroups signedTop signedValue unsignedWord)

variable {α β : Type}

/-- The reads that a cursor offers. -/
inductive Reading where
  | uint8
  | uint16
  | uint32
  | uint64
  | uleb128
  | sleb128
  | text
  | address
  | skip (n : Nat)
  deriving Repr, DecidableEq

namespace Reading

/-- What a read gives. -/
abbrev Reply : Reading → Type
  | uint8 => UInt8
  | uint16 => UInt16
  | uint32 => UInt32
  | uint64 => UInt64
  | uleb128 => UInt64
  | sleb128 => Int64
  | text => String
  | address => UInt64
  | skip _ => Unit

def run : (r : Reading) → Read r.Reply
  | uint8 => Cursor.uint8
  | uint16 => Cursor.uint16
  | uint32 => Cursor.uint32
  | uint64 => Cursor.uint64
  | uleb128 => Cursor.uleb128
  | sleb128 => Cursor.sleb128
  | text => Cursor.text
  | address => Cursor.address
  | skip n => Cursor.skip n

/-- Groups are passed one by one. Everything else is passed at once. -/
def isGrouped : Reading → Bool
  | uleb128 | sleb128 => true
  | uint8 | uint16 | uint32 | uint64 | text | address | skip _ => false

/-- The bytes that a read takes, with what it gives for them. -/
def Takes (order : ByteOrder) (size : UInt8) : (r : Reading) → List UInt8 → r.Reply → Prop
  | uint8, bytes, b => bytes = [b]
  | uint16, bytes, v => bytes = order.bytes 2 v.toNat
  | uint32, bytes, v => bytes = order.bytes 4 v.toNat
  | uint64, bytes, v => bytes = order.bytes 8 v.toNat
  | uleb128, bytes, v => IsUnsigned bytes ∧ v = unsignedWord bytes
  | sleb128, bytes, v => IsNumeral signedTop maxGroups bytes ∧ v = Int64.ofInt (signedValue bytes)
  | text, bytes, s => ∃ name, bytes = name ++ [0] ∧ 0 ∉ name ∧ s = Utf8.decodeLossy name
  | address, bytes, v => size ∈ addressSizes ∧
    (bytes = order.bytes size.toNat v.toNat ∧ v.toNat < Nat.pow 256 size.toNat)
  | skip n, bytes, _ => bytes.length = n

variable {c : Cursor}

theorem run_accepts (r : Reading) (hsound : c.failure = none) :
    Accepts (r.Takes c.byteOrder c.addressSize) r.run c := by
  cases r with
  | uint8 => exact uint8_accepts hsound
  | uint16 => exact uint16_accepts hsound
  | uint32 => exact uint32_accepts hsound
  | uint64 => exact uint64_accepts hsound
  | uleb128 => exact uleb128_accepts hsound
  | sleb128 => exact sleb128_accepts hsound
  | text => exact text_accepts hsound
  | skip n => exact skip_accepts hsound n
  | address =>
    by_cases hsize : c.addressSize ∈ addressSizes
    · refine (address_accepts hsound hsize).congr fun bytes v => ?_
      simp [Takes, hsize]
    · refine .get_bind ?_
      rw [if_neg hsize]
      refine (fail_accepts _).congr fun bytes v => ?_
      simp [Takes, hsize]

theorem eq_skip_of_takes_nil {r : Reading} {order : ByteOrder} {size : UInt8} {a : r.Reply}
    (h : r.Takes order size [] a) : r = .skip 0 := by
  cases r with
  | uint8 => simp [Takes] at h
  | uint16 | uint32 | uint64 =>
    have hlength := congrArg List.length h
    simp at hlength
  | uleb128 => exact absurd h.1.length_pos (by simp)
  | sleb128 => exact absurd h.1.length_pos (by simp)
  | text => simp [Takes] at h
  | skip n => exact congrArg skip h.symm
  | address =>
    have hwide : size.toNat = 0 := by
      have hlength := congrArg List.length h.2.1
      simpa using hlength.symm
    have hsizes : ∀ size ∈ addressSizes, size.toNat ≠ 0 := by decide +kernel
    exact absurd hwide (hsizes size h.1)

theorem run_of_failure (r : Reading) {e : LineError} (h : c.failure = some e) :
    r.run c = .error e c := by
  have htake (n : Nat) : take n c = .error e c := scan_of_failure h
  have hnumber (width : Nat) : number width c = .error e c := bind_of_error (htake width)
  cases r with
  | uint8 => exact bind_of_error (hnumber 1)
  | uint16 => exact bind_of_error (hnumber 2)
  | uint32 => exact bind_of_error (hnumber 4)
  | uint64 => exact bind_of_error (hnumber 8)
  | uleb128 => exact scan_of_failure h
  | sleb128 => exact scan_of_failure h
  | text =>
    change (scan c.remaining Scan.zeroEnded >>= _) c = _
    exact bind_of_error (scan_of_failure h)
  | skip n => exact bind_of_error (htake n)
  | address =>
    change (if c.addressSize ∈ addressSizes then _ else fail _ : Read UInt64) c = _
    split_ifs
    · exact bind_of_error (hnumber _)
    · simp only [fail, h]

end Reading

section Failing

variable {c c' : Cursor} {e : LineError}

/-- An unexpected end behind `width` bytes from `c` on wants more bytes than are left there. -/
def RunsShort (c : Cursor) (width : Nat) (e : LineError) : Prop :=
  ∀ offset needed available, e = .unexpectedEnd offset needed available →
    offset = c.offset + width ∧ available = c.remaining - width ∧ available < needed

/-- The read fails behind `width` bytes from `c` on and keeps its failure `e`. -/
structure FailsBehind (c : Cursor) (width : Nat) (e : LineError) (c' : Cursor) : Prop where
  le : width ≤ c.remaining
  eq : c' = { c.passed width with failure := some e }
  short : c.RunsShort width e

theorem of_map_error {x : Read α} {f : α → β} (h : (x >>= fun a => pure (f a)) c = .error e c') :
    x c = .error e c' := by
  rcases bind_eq_error.mp h with hx | ⟨a, t, -, ht⟩
  · exact hx
  · cases ht

variable (hsound : c.failure = none) (hlimit : c.limit ≤ c.bytes.size)
include hsound

theorem scan_eq_error {reach : Nat} {scanner : List UInt8 → Scan α}
    (h : scan reach scanner c = .error e c') :
    ∃ fault width, scanner (c.window.take reach) = .stopped fault width ∧
      e = fault.toError c.offset width ∧ c' = { c.passed width with failure := some e } := by
  rw [scan_of_sound hsound, ahead_eq_take_window] at h
  cases hs : scanner (c.window.take reach) with
  | done value width => simp [hs] at h
  | stopped fault width =>
    simp only [hs, EStateM.Result.error.injEq] at h
    obtain ⟨rfl, rfl⟩ := h
    exact ⟨fault, width, rfl, rfl, rfl⟩

include hlimit

theorem take_fails {n : Nat} (h : take n c = .error e c') : FailsBehind c 0 e c' := by
  obtain ⟨fault, width, hs, rfl, rfl⟩ := scan_eq_error hsound h
  rw [Scan.exactly, List.length_take, length_window hlimit] at hs
  split_ifs at hs with hshort
  obtain ⟨rfl, rfl⟩ := Scan.stopped.inj hs
  refine ⟨Nat.zero_le _, rfl, ?_⟩
  rintro offset needed available hend
  cases hend
  omega

theorem number_fails {width : Nat} (h : number width c = .error e c') : FailsBehind c 0 e c' := by
  rcases bind_eq_error.mp h with htake | ⟨bytes, t, -, ht⟩
  · exact take_fails hsound hlimit htake
  · cases ht

theorem number_map_fails {width : Nat} {ofNat : Nat → α}
    (h : (number width >>= fun n => pure (ofNat n)) c = .error e c') : FailsBehind c 0 e c' :=
  number_fails hsound hlimit (of_map_error h)

theorem text_fails (h : text c = .error e c') : FailsBehind c 0 e c' := by
  change (scan c.remaining Scan.zeroEnded >>= _) c = _ at h
  obtain ⟨fault, width, hs, rfl, rfl⟩ := scan_eq_error hsound (of_map_error h)
  rw [← length_window hlimit, List.take_length] at hs
  unfold Scan.zeroEnded at hs
  dsimp only at hs
  split_ifs at hs
  obtain ⟨rfl, rfl⟩ := Scan.stopped.inj hs
  refine ⟨Nat.zero_le _, rfl, ?_⟩
  rintro offset needed available hend
  cases hend
  simp [length_window hlimit]

/-- Groups run short only where the window ends. -/
theorem groups_fails {top : UInt8 → Bool} (htop : Leb128.Ends top) {ofGroups : List UInt8 → α}
    (h : scan maxGroups (fun ahead => (Leb128.groups top maxGroups ahead).map ofGroups) c =
      .error e c') : ∃ width, FailsBehind c width e c' := by
  obtain ⟨fault, width, hs, rfl, rfl⟩ := scan_eq_error hsound h
  have hwidth := Leb128.groups_width_le top maxGroups (c.window.take maxGroups)
  cases hgroups : Leb128.groups top maxGroups (c.window.take maxGroups) with
  | done bytes k => simp [hgroups, Scan.map] at hs
  | stopped fault k =>
    simp only [hgroups, Scan.map, Scan.stopped.injEq] at hs
    obtain ⟨rfl, rfl⟩ := hs
    rw [hgroups, Scan.width, List.length_take, length_window hlimit] at hwidth
    refine ⟨k, hwidth.trans (min_le_right _ _), rfl, ?_⟩
    rintro offset needed available hend
    cases fault with
    | overflow => cases hend
    | short n left =>
      cases hend
      have hshort : Leb128.groups top (9 + 1) (c.window.take maxGroups) =
          .stopped (.short needed available) k := hgroups
      obtain ⟨rfl, rfl, rfl, hroom⟩ := Leb128.of_groups_short htop hshort
      rw [List.length_take, length_window hlimit] at hroom ⊢
      refine ⟨rfl, ?_, Nat.zero_lt_one⟩
      simp only [maxGroups] at hroom ⊢
      omega

theorem address_fails (h : address c = .error e c') : FailsBehind c 0 e c' := by
  change (if c.addressSize ∈ addressSizes then _ else fail _ : Read UInt64) c = _ at h
  split_ifs at h with hsize
  · exact number_map_fails hsound hlimit h
  · simp only [fail, hsound, EStateM.Result.error.injEq] at h
    obtain ⟨rfl, rfl⟩ := h
    refine ⟨Nat.zero_le _, rfl, ?_⟩
    rintro offset needed available hend
    cases hend

/-- A read that fails has passed some groups of a number, or else nothing. -/
theorem Reading.run_fails (r : Reading) (h : r.run c = .error e c') :
    ∃ width, FailsBehind c width e c' ∧ (r.isGrouped = false → width = 0) := by
  cases r with
  | uint8 | uint16 | uint32 | uint64 =>
    exact ⟨0, number_map_fails hsound hlimit h, fun _ => rfl⟩
  | text => exact ⟨0, text_fails hsound hlimit h, fun _ => rfl⟩
  | address => exact ⟨0, address_fails hsound hlimit h, fun _ => rfl⟩
  | skip n => exact ⟨0, take_fails hsound hlimit (of_map_error h), fun _ => rfl⟩
  | uleb128 =>
    obtain ⟨width, hfails⟩ := groups_fails hsound hlimit Leb128.unsignedTop_ends h
    exact ⟨width, hfails, by simp [isGrouped]⟩
  | sleb128 =>
    obtain ⟨width, hfails⟩ := groups_fails hsound hlimit Leb128.signedTop_ends h
    exact ⟨width, hfails, by simp [isGrouped]⟩

end Failing

/-- What may be asked of a cursor. -/
inductive Request where
  | read (r : Reading)
  | seek (offset limit : Nat)
  | limitTo (limit : Nat)
  | fail (e : LineError)
  deriving Repr, DecidableEq

/-- The cursor behind a request, whatever came of it. -/
def perform (c : Cursor) : Request → Cursor
  | .read r => (r.run c).state
  | .seek offset limit => c.seek offset limit
  | .limitTo limit => c.limitTo limit
  | .fail e => ((Cursor.fail e : Read Empty) c).state

def after (c : Cursor) (requests : List Request) : Cursor := requests.foldl perform c

/-- The place and the limit of a cursor lie in the section `bytes`. -/
structure Contained (bytes : Array UInt8) (c : Cursor) : Prop where
  bytes_eq : c.bytes = bytes
  offset_le : c.offset ≤ bytes.size
  limit_le : c.limit ≤ bytes.size

/-- `d` stands where `c` does and may read up to `reach`, where its bytes are the same. Behind that
and in front of the two cursors the sections may differ. -/
structure SharesUpTo (reach : Nat) (c d : Cursor) : Prop where
  sound : d.failure = none
  offset_eq : d.offset = c.offset
  byteOrder_eq : d.byteOrder = c.byteOrder
  addressSize_eq : d.addressSize = c.addressSize
  reach_le : reach ≤ c.offset ∨ reach ≤ d.limit
  getElem?_eq : ∀ i, c.offset ≤ i → i < reach → d.bytes[i]? = c.bytes[i]?

/-- What a read does from `c`. One that succeeds moves on inside the window, if at all, and gives
the same wherever the bytes that it passes are the same. One that fails keeps its failure. -/
structure Confined (r : Reading) (c : Cursor) : Prop where
  inside : ∀ a c', r.run c = .ok a c' →
    c' = { c with offset := c'.offset } ∧ (c'.offset ≤ c.limit ∨ r = .skip 0 ∧ c' = c)
  decided : ∀ a c' d, r.run c = .ok a c' → SharesUpTo c'.offset c d →
    r.run d = .ok a { d with offset := c'.offset }
  stays : r.isGrouped = false → ∀ e c', r.run c = .error e c' → c'.offset = c.offset
  short : c.failure = none → ∀ offset needed available c',
    r.run c = .error (.unexpectedEnd offset needed available) c' →
      offset = c'.offset ∧ available = c.limit - offset ∧ available < needed
  records : ∀ e c', r.run c = .error e c' → c'.failure = some e

/-- Every read and every failure gives `e` and changes nothing. -/
structure Frozen (e : LineError) (c : Cursor) : Prop where
  failure_eq : c.failure = some e
  run_eq : ∀ r : Reading, r.run c = .error e c
  fail_eq : ∀ other, (fail other : Read Empty) c = .error e c

variable {bytes : Array UInt8} {c d : Cursor} {e : LineError}

theorem getElem?_window {i : Nat} (h : c.offset + i < c.limit) :
    c.window[i]? = c.bytes[c.offset + i]? := by
  simp only [window, Array.getElem?_toList, Array.getElem?_extract]
  split_ifs with hinside
  · rfl
  · rw [eq_comm, Array.getElem?_eq_none_iff]
    omega

theorem SharesUpTo.isPrefix {front : List UInt8} (h : SharesUpTo (c.offset + front.length) c d)
    (hfront : front <+: c.window) : front <+: d.window := by
  rw [List.prefix_iff_getElem?] at hfront ⊢
  intro i hi
  have hc : c.offset + i < c.limit := by
    have hlength := c.length_window_le
    obtain ⟨hinside, -⟩ := List.getElem?_eq_some_iff.mp (hfront i hi)
    rw [remaining] at hlength
    omega
  have hd : d.offset + i < d.limit := by
    have hreach := h.reach_le
    have hoffset := h.offset_eq
    omega
  have hsame := h.getElem?_eq (c.offset + i) (Nat.le_add_right _ _) (by omega)
  rw [getElem?_window hd, h.offset_eq, hsame, ← getElem?_window hc]
  exact hfront i hi

theorem Reading.of_run_ok {r : Reading} {a : r.Reply} {c' : Cursor} (h : r.run c = .ok a c') :
    c.failure = none ∧ ∃ front rest, c.window = front ++ rest ∧
      r.Takes c.byteOrder c.addressSize front a ∧ c' = c.passed front.length := by
  cases hfailure : c.failure with
  | none => exact ⟨rfl, (r.run_accepts hfailure a c').mp h⟩
  | some e => simp [r.run_of_failure hfailure] at h

theorem Reading.of_run_error {r : Reading} {c' : Cursor} (hlimit : c.limit ≤ c.bytes.size)
    (h : r.run c = .error e c') : (c.failure = some e ∧ c' = c) ∨
      ∃ width, FailsBehind c width e c' ∧ (r.isGrouped = false → width = 0) := by
  cases hfailure : c.failure with
  | none => exact .inr (r.run_fails hfailure hlimit h)
  | some first =>
    rw [r.run_of_failure hfailure] at h
    cases h
    exact .inl ⟨rfl, rfl⟩

/-- Whatever comes of a read, it leaves the section and the limit alone and passes no more than
there is to read. -/
theorem Reading.exists_state (r : Reading) (hlimit : c.limit ≤ c.bytes.size) :
    ∃ width failure, width ≤ c.remaining ∧
      (r.run c).state = { c.passed width with failure := failure } := by
  cases hrun : r.run c with
  | ok a c' =>
    obtain ⟨-, front, rest, hwindow, -, rfl⟩ := Reading.of_run_ok hrun
    have hlength := length_window hlimit
    rw [hwindow, List.length_append] at hlength
    exact ⟨front.length, c.failure, by omega, rfl⟩
  | error e c' =>
    rcases Reading.of_run_error hlimit hrun with ⟨-, rfl⟩ | ⟨width, hfails, -⟩
    · exact ⟨0, c'.failure, Nat.zero_le _, rfl⟩
    · exact ⟨width, some e, hfails.le, hfails.eq⟩

theorem contained_ofBytes (offset : Nat) (order : ByteOrder) (size : UInt8) :
    Contained bytes (ofBytes bytes offset order size) :=
  ⟨rfl, min_le_right _ _, le_rfl⟩

theorem Contained.perform (h : Contained bytes c) (request : Request) :
    Contained bytes (c.perform request) := by
  obtain ⟨rfl, hoffset, hlimit⟩ := h
  cases request with
  | read r =>
    obtain ⟨width, failure, hwidth, hstate⟩ := r.exists_state hlimit
    rw [Cursor.perform, hstate]
    rw [remaining] at hwidth
    refine ⟨rfl, ?_, hlimit⟩
    change c.offset + width ≤ c.bytes.size
    omega
  | seek offset limit =>
    exact ⟨rfl, (min_le_right _ _).trans (min_le_right _ _), min_le_right _ _⟩
  | limitTo limit => exact ⟨rfl, hoffset, min_le_right _ _⟩
  | fail e =>
    unfold Cursor.perform Cursor.fail
    cases c.failure <;> exact ⟨rfl, hoffset, hlimit⟩

theorem Contained.after (h : Contained bytes c) (requests : List Request) :
    Contained bytes (c.after requests) := by
  induction requests generalizing c with
  | nil => exact h
  | cons request requests ih => exact ih (h.perform request)

theorem Contained.confined (h : Contained bytes c) (r : Reading) : Confined r c := by
  obtain ⟨rfl, -, hlimit⟩ := h
  constructor
  · intro a c' hrun
    obtain ⟨-, front, rest, hwindow, htakes, rfl⟩ := Reading.of_run_ok hrun
    refine ⟨rfl, ?_⟩
    cases front with
    | nil => exact .inr ⟨Reading.eq_skip_of_takes_nil htakes, rfl⟩
    | cons b front =>
      have hlength := length_window hlimit
      rw [hwindow, List.length_append, List.length_cons, remaining] at hlength
      left
      rw [offset_passed, List.length_cons]
      omega
  · intro a c' d hrun hshares
    obtain ⟨-, front, rest, hwindow, htakes, rfl⟩ := Reading.of_run_ok hrun
    obtain ⟨tail, htail⟩ := hshares.isPrefix ⟨rest, hwindow.symm⟩
    rw [← hshares.byteOrder_eq, ← hshares.addressSize_eq] at htakes
    rw [(r.run_accepts hshares.sound).reads htakes tail htail.symm, passed, hshares.offset_eq]
    rfl
  · intro hwhole e c' hrun
    rcases Reading.of_run_error hlimit hrun with ⟨-, rfl⟩ | ⟨width, hfails, hzero⟩
    · rfl
    · rw [hfails.eq, hzero hwhole]
      rfl
  · -- Only what fails here tells what is left here. A failure kept before was noticed elsewhere.
    intro hsound offset needed available c' hrun
    obtain ⟨width, hfails, -⟩ := r.run_fails hsound hlimit hrun
    obtain ⟨rfl, hleft, hmore⟩ := hfails.short offset needed available rfl
    rw [remaining] at hleft
    refine ⟨by rw [hfails.eq]; rfl, ?_, hmore⟩
    omega
  · intro e c' hrun
    rcases Reading.of_run_error hlimit hrun with ⟨hfailure, rfl⟩ | ⟨width, hfails, -⟩
    · exact hfailure
    · rw [hfails.eq]

theorem Contained.offset_le_perform (h : Contained bytes c) {request : Request}
    (hstays : ∀ offset limit, request ≠ .seek offset limit) :
    c.offset ≤ (c.perform request).offset := by
  obtain ⟨rfl, -, hlimit⟩ := h
  cases request with
  | read r =>
    obtain ⟨width, failure, -, hstate⟩ := r.exists_state hlimit
    rw [Cursor.perform, hstate]
    exact Nat.le_add_right _ _
  | seek offset limit => exact absurd rfl (hstays offset limit)
  | limitTo limit => exact le_rfl
  | fail e =>
    unfold Cursor.perform Cursor.fail
    cases c.failure <;> exact le_rfl

theorem frozen_of_failure (h : c.failure = some e) : Frozen e c where
  failure_eq := h
  run_eq r := r.run_of_failure h
  fail_eq other := by simp only [fail, h]

theorem Frozen.perform (h : Frozen e c) (request : Request) : Frozen e (c.perform request) := by
  cases request with
  | read r =>
    rw [Cursor.perform, h.run_eq r]
    exact h
  | seek offset limit => exact frozen_of_failure h.failure_eq
  | limitTo limit => exact frozen_of_failure h.failure_eq
  | fail other =>
    rw [Cursor.perform, h.fail_eq other]
    exact h

theorem Frozen.after (h : Frozen e c) (requests : List Request) : Frozen e (c.after requests) := by
  induction requests generalizing c with
  | nil => exact h
  | cons request requests ih => exact ih (h.perform request)

/-- After any requests to a new cursor, its place and its limit lie in the section, each read is
confined to what it passes, only a move can take the cursor back, and what has failed once fails in
the same way for good. -/
theorem requests_confined (bytes : Array UInt8) (offset : Nat) (order : ByteOrder) (size : UInt8)
    (requests : List Request) :
    let c := (ofBytes bytes offset order size).after requests
    Contained bytes c ∧ (∀ r, Confined r c) ∧
    (∀ request, (∀ offset limit, request ≠ .seek offset limit) →
      c.offset ≤ (c.perform request).offset) ∧
    (∀ e, c.failure = none → (fail e : Read Empty) c = .error e { c with failure := some e }) ∧
    ∀ e, c.failure = some e → ∀ later, Frozen e (c.after later) := by
  intro c
  have hcontained : Contained bytes c := (contained_ofBytes offset order size).after requests
  refine ⟨hcontained, fun r => hcontained.confined r, ?_, ?_, ?_⟩
  · intro request hstays
    exact hcontained.offset_le_perform hstays
  · intro e hsound
    simp only [fail, hsound]
  · intro e hfailure later
    exact (frozen_of_failure hfailure).after later

/-- The limit is put behind the cursor before text is read. The failure outlives a move to where
text could be read. -/
theorem requests_confined_behind :
    let c := (ofBytes #[0x41, 0x00, 0x80, 0x01] 0 .little 4).after
      [.read (.skip 3), .limitTo 1, .read .text]
    c.offset = 3 ∧ c.limit = 1 ∧ Frozen (.unexpectedEnd 3 1 0) (c.after [.seek 0 4]) := by
  obtain ⟨-, -, -, -, hfrozen⟩ := requests_confined #[0x41, 0x00, 0x80, 0x01] 0 .little 4
    [.read (.skip 3), .limitTo 1, .read .text]
  exact ⟨rfl, rfl, hfrozen (.unexpectedEnd 3 1 0) rfl [.seek 0 4]⟩

end DebugLine.Cursor
