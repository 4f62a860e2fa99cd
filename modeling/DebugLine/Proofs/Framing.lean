import DebugLine.Proofs.InstructionLayout
import DebugLine.Proofs.Preservation

/-!
# Extended instructions are framed by their length

An extended instruction is a frame of as many bytes as its length says. Its body, an opcode with the
operands of that opcode, is read without regard to the length. Closing the frame then compares the
two: a longer body has overrun the frame, and what a shorter one leaves is skipped if it is there.
-/

namespace DebugLine

variable {α : Type}

theorem Decoder.ofRead_of_error {x : Read α} {d : Decoder} {c : Cursor} {e : LineError}
    (h : x d.cursor = .error e c) : Decode.ofRead x d = .error e { d with cursor := c } := by
  simp only [Decode.ofRead, h]

namespace Cursor

variable {c : Cursor}

theorem fail_of_sound (hsound : c.failure = none) (e : LineError) :
    (fail e : Read α) c = .error e { c with failure := some e } := by
  simp only [fail, hsound]

theorem skip_of_lt (hsound : c.failure = none) {n : Nat} (h : c.window.length < n) :
    let e : LineError := .unexpectedEnd c.offset n c.window.length
    skip n c = .error e { c with failure := some e } := by
  have hahead : c.ahead n = c.window := by
    rw [ahead_eq_take_window, List.take_of_length_le h.le]
  have hscan : Scan.exactly n (c.ahead n) = .stopped (.short n c.window.length) 0 := by
    rw [Scan.exactly, hahead, if_pos h]
  apply bind_of_error
  rw [take, scan_of_sound hsound, hscan]
  rfl

theorem skip_of_le (hsound : c.failure = none) {n : Nat} (h : n ≤ c.window.length) :
    skip n c = .ok () (c.passed n) := by
  have hlength : (c.window.take n).length = n := List.length_take_of_le h
  have hskip : skip n c = .ok () (c.passed (c.window.take n).length) :=
    (skip_accepts hsound n).reads hlength _ (List.take_append_drop n c.window).symm
  rwa [hlength] at hskip

theorem Onward.eq_passed {c' : Cursor} (h : c.Onward c') (hfailure : c'.failure = c.failure) :
    c' = c.passed (c'.offset - c.offset) := by
  obtain ⟨bytes, offset, limit, byteOrder, addressSize, failed⟩ := c'
  obtain ⟨rfl, rfl, rfl, rfl, hle, -⟩ := h
  subst hfailure
  simp only [passed, Nat.add_sub_cancel' hle]

end Cursor

namespace Instruction

open Leb128 (IsUnsigned unsignedWord)
open Session (definingFiles)

/-- The opcode of an extended instruction at `offset`, with the instruction its operands give. -/
def readBody (h : Header) (offset : Nat) (length : UInt64) : Decode (UInt8 × Instruction) := do
  let opcode ← Cursor.uint8
  return (opcode, ← readOperands h offset length opcode)

/-- Passes the frame of an instruction whose body starts at `start` and has been read. -/
def closeFrame (offset start declared : Nat) (body : UInt8 × Instruction) : Decode Instruction := do
  let consumed := (← Cursor.position) - start
  Cursor.require (consumed ≤ declared)
    (.extendedOpcodeOverrun offset body.1 declared consumed)
  Cursor.skip (declared - consumed)
  return body.2

theorem readExtended_eq (h : Header) (offset : Nat) :
    readExtended h offset = (do
      let length ← Cursor.uleb128
      let start ← Cursor.position
      closeFrame offset start length.toNat (← readBody h offset length)) := by
  simp only [readExtended, readBody, closeFrame, bind_assoc, pure_bind]

variable {h : Header} {d d' u : Decoder} {length rest : List UInt8} {body : UInt8 × Instruction}
variable {i : Instruction} {offset start declared : Nat} {word : UInt64}

section Sound

variable (hsound : d.cursor.failure = none)
include hsound

theorem closeFrame_of_overrun (hlong : declared < d.cursor.offset - start) :
    let e : LineError :=
      .extendedOpcodeOverrun offset body.1 declared (d.cursor.offset - start)
    closeFrame offset start declared body d =
      .error e { d with cursor := { d.cursor with failure := some e } } := by
  intro e
  change (Decode.ofRead (Cursor.require (d.cursor.offset - start ≤ declared) e) >>= _) d = _
  rw [Cursor.require, if_neg (Nat.not_le.mpr hlong)]
  exact bind_of_error (Decoder.ofRead_of_error (Cursor.fail_of_sound hsound e))

theorem closeFrame_of_short (hfits : d.cursor.offset - start ≤ declared)
    (hshort : d.cursor.window.length < declared - (d.cursor.offset - start)) :
    let e : LineError := .unexpectedEnd d.cursor.offset (declared - (d.cursor.offset - start))
      d.cursor.window.length
    closeFrame offset start declared body d =
      .error e { d with cursor := { d.cursor with failure := some e } } := by
  intro e
  change (Decode.ofRead (Cursor.require (d.cursor.offset - start ≤ declared) _) >>= _) d = _
  rw [Cursor.require, if_pos hfits]
  refine (bind_of_ok (Decoder.ofRead_of_ok rfl)).trans ?_
  exact bind_of_error (Decoder.ofRead_of_error (Cursor.skip_of_lt hsound hshort))

theorem closeFrame_of_room (hfits : d.cursor.offset - start ≤ declared)
    (hroom : declared - (d.cursor.offset - start) ≤ d.cursor.window.length) :
    closeFrame offset start declared body d =
      .ok body.2 (d.passed (declared - (d.cursor.offset - start)) []) := by
  change (Decode.ofRead (Cursor.require (d.cursor.offset - start ≤ declared) _) >>= _) d = _
  rw [Cursor.require, if_pos hfits]
  refine (bind_of_ok (Decoder.ofRead_of_ok rfl)).trans ?_
  exact bind_of_ok (Decoder.ofRead_of_ok (Cursor.skip_of_le hsound hroom))

theorem decode_extended (hbase : h.opcodeBase ≠ 0)
    (hwindow : d.cursor.window = 0 :: (length ++ rest)) (hlength : IsUnsigned length) :
    let behind := d.passed (1 + length.length) []
    decode h d = (readBody h d.cursor.offset (unsignedWord length) >>=
      closeFrame d.cursor.offset behind.cursor.offset (unsignedWord length).toNat) behind := by
  intro behind
  have hbelow : ¬ h.opcodeBase ≤ 0 := by simpa using hbase
  have hzero : Cursor.uint8 d.cursor = .ok 0 (d.cursor.passed 1) :=
    (Cursor.uint8_accepts hsound).reads rfl _ hwindow
  have hafter : (d.cursor.passed 1).window = length ++ rest := by
    rw [Cursor.window_passed, hwindow, List.drop_one, List.tail_cons]
  have hword : Cursor.uleb128 (d.cursor.passed 1) =
      .ok (unsignedWord length) ((d.cursor.passed 1).passed length.length) :=
    (Cursor.uleb128_accepts (by exact hsound)).reads ⟨hlength, rfl⟩ _ hafter
  rw [Cursor.passed_passed] at hword
  change (Decode.ofRead Cursor.uint8 >>= _) d = _
  rw [bind_of_ok (Decoder.ofRead_of_ok hzero), if_neg hbelow, if_pos rfl, readExtended_eq]
  exact bind_of_ok (Decoder.ofRead_of_ok hword)

end Sound

theorem readBody_disciplined (h : Header) (offset : Nat) (length : UInt64) :
    Decoder.Disciplined (readBody h offset length) :=
  (Decoder.ofRead_disciplined Cursor.uint8_disciplined).bind fun opcode =>
    (readOperands_disciplined h offset length opcode).bind fun _ => .pure _

theorem readBody_eq_ok (hbody : readBody h offset word d = .ok body u) :
    d.cursor.failure = none ∧ u.cursor.failure = none ∧ d.cursor.offset < u.cursor.offset ∧
      u.cursor = d.cursor.passed (u.cursor.offset - d.cursor.offset) := by
  have hdisciplined := readBody_disciplined h offset word
  have hmove := hdisciplined.moves.of_ok hbody
  have hfailure := hdisciplined.records.ok hbody
  obtain ⟨opcode, t, ht, hoperands⟩ := bind_eq_ok.mp hbody
  obtain ⟨c, hc, rfl⟩ := Decoder.ofRead_eq_ok ht
  obtain ⟨hsound, rfl⟩ := Cursor.uint8_eq_ok hc
  have hlater := ((readOperands_disciplined h offset word opcode).bind
    fun i => .pure (opcode, i)).moves.of_ok hoperands
  exact ⟨hsound, hfailure.trans hsound, hlater.cursor.offset_le, hmove.cursor.eq_passed hfailure⟩

theorem failure_of_decode_ok (hok : decode h d = .ok i d') : d.cursor.failure = none := by
  obtain ⟨_, t, ht, hok⟩ := bind_eq_ok.mp hok
  cases ht
  obtain ⟨opcode, t, ht, -⟩ := bind_eq_ok.mp hok
  obtain ⟨c, hc, -⟩ := Decoder.ofRead_eq_ok ht
  exact (Cursor.uint8_eq_ok hc).1

/-- A frame is closed where its length says, and only if that is not before the end of the body. -/
theorem closeFrame_eq_ok (hsound : d.cursor.failure = none)
    (hclose : closeFrame offset start declared body d = .ok i d') :
    d.cursor.offset - start ≤ declared ∧
      d' = d.passed (declared - (d.cursor.offset - start)) [] := by
  rcases Nat.lt_or_ge declared (d.cursor.offset - start) with hlong | hfits
  · rw [closeFrame_of_overrun hsound hlong] at hclose
    cases hclose
  · rcases Nat.lt_or_ge d.cursor.window.length (declared - (d.cursor.offset - start)) with
      hshort | hroom
    · rw [closeFrame_of_short hsound hfits hshort] at hclose
      cases hclose
    · rw [closeFrame_of_room hsound hfits hroom] at hclose
      cases hclose
      exact ⟨hfits, rfl⟩

theorem closeFrame_eq_error {e : LineError} (hsound : d.cursor.failure = none)
    (hclose : closeFrame offset start declared body d = .error e d') :
    declared < d.cursor.offset - start ∨
      d.cursor.window.length < declared - (d.cursor.offset - start) := by
  by_contra hframed
  rw [not_or, Nat.not_lt, Nat.not_lt] at hframed
  rw [closeFrame_of_room hsound hframed.1 hframed.2] at hclose
  cases hclose

/-- An extended instruction that is decoded ends where its length says, whatever its opcode is and
however much of the frame its operands take. A body that has been read but is longer than the frame
has overrun it, and a frame that is longer than the unit ends unexpectedly. The opcode base of a
header that has been read is not zero, so that a zero byte is no special opcode. -/
theorem decode_framed :
    (∀ (compDir : String) (check : Bool) (d : Decoder) (h : Header) (d' : Decoder),
      Header.read compDir check d = .ok h d' → h.opcodeBase ≠ 0) ∧
    ∀ (h : Header) (d : Decoder) (length rest : List UInt8), h.opcodeBase ≠ 0 →
      d.cursor.window = 0 :: (length ++ rest) → IsUnsigned length →
      let declared := (unsignedWord length).toNat
      let behind := d.passed (1 + length.length) []
      (∀ i d', decode h d = .ok i d' →
        1 ≤ declared ∧ d'.cursor = behind.cursor.passed declared) ∧
      ∀ opcode i u,
        readBody h d.cursor.offset (unsignedWord length) behind = .ok (opcode, i) u →
        let consumed := u.cursor.offset - behind.cursor.offset
        let left := declared - consumed
        0 < consumed ∧
        (declared < consumed → (decode h d).answer =
          .error (.extendedOpcodeOverrun d.cursor.offset opcode declared consumed)) ∧
        (consumed ≤ declared → u.cursor.window.length < left → (decode h d).answer =
          .error (.unexpectedEnd u.cursor.offset left u.cursor.window.length)) ∧
        (consumed ≤ declared → left ≤ u.cursor.window.length →
          decode h d = .ok i (u.passed left [])) := by
  refine ⟨fun compDir check d h d' hread =>
    (Header.wellFormed_of_read hread).1.parameters.opcodeBase_ne, ?_⟩
  intro h d length rest hbase hwindow hlength declared behind
  constructor
  · intro i d' hok
    have hsound := failure_of_decode_ok hok
    rw [decode_extended hsound hbase hwindow hlength] at hok
    obtain ⟨body, u, hbody, hclose⟩ := bind_eq_ok.mp hok
    obtain ⟨-, husound, hlt, hcursor⟩ := readBody_eq_ok hbody
    obtain ⟨hfits, rfl⟩ := closeFrame_eq_ok husound hclose
    have hpos : 0 < u.cursor.offset - behind.cursor.offset := Nat.sub_pos_of_lt hlt
    refine ⟨hpos.trans_le hfits, ?_⟩
    rw [Decoder.cursor_passed, hcursor, Cursor.passed_passed, Cursor.offset_passed,
      Nat.add_sub_cancel_left, Nat.add_sub_of_le hfits]
  · intro opcode i u hbody consumed left
    obtain ⟨hbehind, husound, hlt, -⟩ := readBody_eq_ok hbody
    have hsound : d.cursor.failure = none := hbehind
    have hdecode : decode h d =
        closeFrame d.cursor.offset behind.cursor.offset declared (opcode, i) u := by
      rw [decode_extended hsound hbase hwindow hlength]
      exact bind_of_ok hbody
    rw [hdecode]
    refine ⟨Nat.sub_pos_of_lt hlt, fun hlong => ?_, fun hfits hshort => ?_, fun hfits hroom => ?_⟩
    · rw [closeFrame_of_overrun husound hlong]
      rfl
    · rw [closeFrame_of_short husound hfits hshort]
      rfl
    · exact closeFrame_of_room husound hfits hroom

/-- The length is written with a group too many, and three bytes of the frame are left. Then a frame
without room for its opcode, and one that the unit cuts off. -/
theorem decode_framed_padded :
    ∃ start, Machine.ofUnit (definingFiles.unit 0) definingFiles.encode.toArray .unset =
        .ok (some start) ∧
      let reading (bytes : Array UInt8) : Decoder :=
        Machine.decoderAt (definingFiles.unit 0) bytes .unset 0
      (∃ d, decode start.header (reading #[0, 0x85, 0x00, 4, 7, 0xAA, 0xBB, 0xCC, 1]) =
        .ok (.setDiscriminator 7) d ∧ d.cursor.offset = 8) ∧
      (decode start.header (reading #[0, 0, 1])).answer =
        .error (.extendedOpcodeOverrun 0 1 0 1) ∧
      (decode start.header (reading #[0, 9, 4, 7, 1])).answer = .error (.unexpectedEnd 4 7 1) := by
  obtain ⟨start, hopen, hbase⟩ : ∃ start,
      Machine.ofUnit (definingFiles.unit 0) definingFiles.encode.toArray .unset =
        .ok (some start) ∧ start.header.opcodeBase ≠ 0 :=
    Machine.exists_of_opened (by decide +kernel)
  have hpadded := decode_framed.2 start.header (Machine.decoderAt (definingFiles.unit 0)
    #[0, 0x85, 0x00, 4, 7, 0xAA, 0xBB, 0xCC, 1] .unset 0) [0x85, 0x00] _ hbase rfl
    (.more rfl (.last rfl (by decide)))
  have hempty := decode_framed.2 start.header (Machine.decoderAt (definingFiles.unit 0)
    #[0, 0, 1] .unset 0) [0x00] _ hbase rfl (.last rfl (by decide))
  have hcut := decode_framed.2 start.header (Machine.decoderAt (definingFiles.unit 0)
    #[0, 9, 4, 7, 1] .unset 0) [0x09] _ hbase rfl (.last rfl (by decide))
  obtain ⟨-, -, -, hroom⟩ := hpadded.2 4 (.setDiscriminator 7) _ rfl
  obtain ⟨-, hlong, -⟩ := hempty.2 1 .endSequence _ rfl
  obtain ⟨-, -, hshort, -⟩ := hcut.2 4 (.setDiscriminator 7) _ rfl
  exact ⟨start, hopen, ⟨_, hroom (by decide) (by decide), rfl⟩, hlong (by decide),
    hshort (by decide) (by decide)⟩

end Instruction
end DebugLine
