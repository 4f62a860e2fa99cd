import DebugLine.Machine
import DebugLine.Proofs.Surroundings

/-!
# A header is read apart from the neighbours of its unit

The initial length of a unit is the only thing that is read before reads are limited to the unit. It
says where the unit ends, wherever the unit lies in its section, and the rest of the header follows
inside that limit.
-/

namespace DebugLine

variable {α β : Type}

/-- The number of bytes of the initial length. -/
def Format.initialSize : Format → Nat
  | dwarf32 => 4
  | dwarf64 => 12

/-- The bytes are one unit of the given format: an initial length that is not a reserved one, and as
many bytes behind it as it says. -/
inductive IsWholeUnit (order : ByteOrder) : Format → List UInt8 → Prop
  | dwarf32 {length rest : List UInt8} (length_size : length.length = 4)
      (value_lt : order.value length < firstReservedLength.toNat)
      (value_eq : order.value length = rest.length) : IsWholeUnit order .dwarf32 (length ++ rest)
  | dwarf64 {marker length rest : List UInt8} (marker_size : marker.length = 4)
      (length_size : length.length = 8) (marker_eq : order.value marker = dwarf64Marker.toNat)
      (value_eq : order.value length = rest.length) :
      IsWholeUnit order .dwarf64 (marker ++ (length ++ rest))

theorem IsWholeUnit.initialSize_le {order : ByteOrder} {format : Format} {unit : List UInt8}
    (h : IsWholeUnit order format unit) : format.initialSize ≤ unit.length := by
  cases h with
  | dwarf32 length_size => simp [Format.initialSize, length_size]
  | dwarf64 marker_size length_size =>
    simp only [Format.initialSize, List.length_append, marker_size, length_size]
    omega

namespace Cursor

variable {c : Cursor} {bytes rest : List UInt8} {width : Nat}

theorem window_advance (c : Cursor) (width : Nat) :
    { c with offset := c.offset + width }.window = c.window.drop width := by
  simp [window, List.extract_eq_take_drop, List.drop_take, Nat.sub_sub, Nat.add_comm]

theorem number_of_window (hsound : c.failure = none) (hwindow : c.window = bytes ++ rest)
    (hwidth : bytes.length = width) :
    number width c = .ok (c.byteOrder.value bytes) { c with offset := c.offset + width } := by
  subst hwidth
  have hscan : Scan.exactly bytes.length (c.ahead bytes.length) = .done bytes bytes.length := by
    simp [ahead_eq_take_window, hwindow, Scan.exactly]
  have htake : take bytes.length c = .ok bytes { c with offset := c.offset + bytes.length } := by
    rw [take, scan_of_sound hsound, hscan]
  exact bind_of_ok htake

theorem fail_bind (e : LineError) (f : α → Read β) : (fail e >>= f) = fail e := by
  funext c
  cases h : c.failure with
  | some first =>
    have hfail : (fail e : Read α) c = .error first c := by rw [fail, h]
    rw [bind_of_error hfail, fail, h]
  | none =>
    have hfail : (fail e : Read α) c = .error e { c with failure := some e } := by rw [fail, h]
    rw [bind_of_error hfail, fail, h]

end Cursor

theorem Decoder.ofRead_of_ok {x : Read α} {c c' : Cursor} {a : α} {files : FileTable}
    (h : x c = .ok a c') : Decode.ofRead x ⟨c, files⟩ = .ok a ⟨c', files⟩ := by
  simp only [Decode.ofRead, h]

namespace Header

variable {c : Cursor} {format : Format} {unit rest : List UInt8}

theorem readInitialLength_of_isWholeUnit (hsound : c.failure = none)
    (hwindow : c.window = unit ++ rest) (hunit : IsWholeUnit c.byteOrder format unit)
    (offset : Nat) :
    readInitialLength offset c = .ok (format, unit.length - format.initialSize)
      { c with offset := c.offset + format.initialSize } := by
  cases hunit with
  | @dwarf32 length body length_size value_lt value_eq =>
    rw [List.append_assoc] at hwindow
    have hread : Cursor.uint32 c = .ok (UInt32.ofNat (c.byteOrder.value length))
        { c with offset := c.offset + 4 } :=
      bind_of_ok (Cursor.number_of_window hsound hwindow length_size)
    have hvalue : (UInt32.ofNat (c.byteOrder.value length)).toNat = body.length :=
      (UInt32.toNat_ofNat_of_lt' (value_lt.trans (by decide))).trans value_eq
    have hordinary : UInt32.ofNat (c.byteOrder.value length) < firstReservedLength := by
      rwa [UInt32.lt_iff_toNat_lt, hvalue, ← value_eq]
    have hmarker : UInt32.ofNat (c.byteOrder.value length) ≠ dwarf64Marker := by
      intro heq
      rw [heq] at hordinary
      exact absurd hordinary (by decide)
    have hlength : (length ++ body).length - Format.dwarf32.initialSize = body.length := by
      simp [Format.initialSize, length_size]
    rw [readInitialLength, bind_of_ok hread, if_neg hmarker, Cursor.require, if_pos hordinary,
      hlength, ← hvalue]
    rfl
  | @dwarf64 marker length body marker_size length_size marker_eq value_eq =>
    rw [List.append_assoc, List.append_assoc] at hwindow
    have hread : Cursor.uint32 c = .ok dwarf64Marker { c with offset := c.offset + 4 } := by
      rw [← UInt32.ofNat_toNat (x := dwarf64Marker), ← marker_eq]
      exact bind_of_ok (Cursor.number_of_window hsound hwindow marker_size)
    have hbehind : { c with offset := c.offset + 4 }.window = length ++ (body ++ rest) := by
      rw [Cursor.window_advance, hwindow, ← marker_size, List.drop_left]
    have hnumber := Cursor.number_of_window (c := { c with offset := c.offset + 4 }) hsound hbehind
      length_size
    have hlength : (marker ++ (length ++ body)).length - Format.dwarf64.initialSize =
        body.length := by
      simp only [Format.initialSize, List.length_append, marker_size, length_size]
      omega
    rw [readInitialLength, bind_of_ok hread, if_pos rfl, hlength, ← value_eq]
    exact bind_of_ok hnumber

theorem enterUnit_of_inside {unitLength : Nat} (hinside : c.offset + unitLength ≤ c.bytes.size)
    (hfits : c.offset + unitLength < UInt64.size) (offset : Nat) :
    enterUnit offset unitLength c =
      .ok (c.offset + unitLength) (c.limitTo (c.offset + unitLength)) := by
  have hend : endOf c.offset unitLength = c.offset + unitLength :=
    min_eq_left (Nat.le_sub_one_of_lt hfits)
  change (Cursor.require (endOf c.offset unitLength ≤ c.bytes.size) _ >>= _) c = _
  rw [hend, Cursor.require, if_pos hinside]
  rfl

theorem readInside_endOffset (compDir : String) (check : Bool) (offset : Nat) (format : Format)
    (unitLength endOffset : Nat) :
    Yields (fun header _ => header.endOffset = endOffset)
      (readInside compDir check offset format unitLength endOffset) :=
  .bind fun _ => .bind fun ⟨_, _⟩ => .bind fun _ => .bind fun _ => .bind fun _ => .bind fun _ =>
    .bind fun _ => .pure fun _ => rfl

/-- Wherever a unit lies, it is entered behind its initial length and limits reads to its end. -/
theorem read_of_isWholeUnit {bytes : Array UInt8} {offset : Nat} {order : ByteOrder}
    (hbytes : bytes.toList.drop offset = unit ++ rest) (hunit : IsWholeUnit order format unit)
    (hfits : offset + unit.length < UInt64.size) (addressSize : UInt8) (files : FileTable)
    (compDir : String) (check : Bool) :
    read compDir check ⟨Cursor.ofBytes bytes offset order addressSize, files⟩ =
      readInside compDir check offset format (unit.length - format.initialSize)
        (offset + unit.length)
        ⟨⟨bytes, offset + format.initialSize, offset + unit.length, order, addressSize, none⟩,
          files⟩ := by
  have hsize := congrArg List.length hbytes
  simp only [List.length_drop, Array.length_toList, List.length_append] at hsize
  have hinitial := hunit.initialSize_le
  have hpositive : 0 < format.initialSize := by cases format <;> decide
  have hofBytes : Cursor.ofBytes bytes offset order addressSize =
      ⟨bytes, offset, bytes.size, order, addressSize, none⟩ := by
    rw [Cursor.ofBytes, min_eq_left (by omega)]
  have hposition : Cursor.position ⟨bytes, offset, bytes.size, order, addressSize, none⟩ =
      .ok offset ⟨bytes, offset, bytes.size, order, addressSize, none⟩ := rfl
  have hwindow : Cursor.window ⟨bytes, offset, bytes.size, order, addressSize, none⟩ =
      unit ++ rest := by
    rw [Cursor.window, Array.toList_extract, List.extract_eq_take_drop, hbytes,
      List.take_of_length_le (by rw [List.length_append, hsize])]
  have hlength := readInitialLength_of_isWholeUnit rfl hwindow hunit offset
  have hend : offset + format.initialSize + (unit.length - format.initialSize) =
      offset + unit.length := by omega
  have henter := @enterUnit_of_inside
    ⟨bytes, offset + format.initialSize, bytes.size, order, addressSize, none⟩
    (unit.length - format.initialSize) (by dsimp only; omega) (by dsimp only; omega) offset
  simp only [hend, Cursor.limitTo] at henter
  rw [min_eq_left (by omega)] at henter
  rw [hofBytes]
  exact (bind_of_ok (Decoder.ofRead_of_ok hposition)).trans
    ((bind_of_ok (Decoder.ofRead_of_ok hlength)).trans (bind_of_ok (Decoder.ofRead_of_ok henter)))

end Header

namespace Surroundings

open Header

variable {s : Surroundings}

theorem require_bind_carries {p p' : Prop} [Decidable p] [Decidable p'] {e e' : LineError}
    {value : α → β} {f : Unit → Read α} {f' : Unit → Read β} (hp : p' ↔ p)
    (he : e' = e.shift s.distance) (hf : p → s.Carries value (f ()) (f' ())) :
    s.Carries value (Cursor.require p e >>= f) (Cursor.require p' e' >>= f') := by
  subst he
  unfold Cursor.require
  by_cases h : p
  · rw [if_pos h, if_pos (hp.mpr h)]
    exact (Simulates.pure rfl).bind fun _ => hf h
  · rw [if_neg h, if_neg (mt hp.mp h), Cursor.fail_bind, Cursor.fail_bind]
    exact fail_carries value e

theorem readVersion_carries (offset : Nat) :
    s.Carries id (readVersion offset) (readVersion (offset + s.distance)) :=
  uint16_carries.bind fun _ => (require_carries Iff.rfl rfl).bind fun _ => .pure rfl

/-- A program start beyond 64 bits counts as the largest 64-bit offset. The unit ends before that
one, so such a start is refused in both places. -/
theorem readProgramStart_carries {unitEnd : Nat} (hfits : unitEnd + s.distance < UInt64.size - 1)
    (offset : Nat) (format : Format) :
    s.Carries (Prod.map id (· + s.distance)) (readProgramStart offset unitEnd format)
      (readProgramStart (offset + s.distance) (unitEnd + s.distance) format) := by
  refine (number_carries format.offsetSize).bind fun length => position_carries.bind fun position =>
    require_bind_carries ?_ ?_ fun hstart => .pure ?_
  · simp only [endOf, id]
    omega
  · simp only [LineError.shift, endOf, id]
    congr 1
    omega
  · simp only [Prod.map, endOf, id] at hstart ⊢
    congr 1
    omega

theorem readMaximumOperations_carries (version : UInt16) :
    s.Carries id (readMaximumOperations version) (readMaximumOperations version) := by
  unfold readMaximumOperations
  split_ifs
  · exact uint8_carries
  · exact .pure rfl

theorem readParameters_carries (offset : Nat) (version : UInt16) :
    s.Carries id (readParameters offset version)
      (readParameters (offset + s.distance) version) :=
  uint8_carries.bind fun _ => (readMaximumOperations_carries version).bind fun _ =>
    uint8_carries.bind fun _ => uint8_carries.bind fun _ => uint8_carries.bind fun _ =>
      (require_carries Iff.rfl rfl).bind fun _ => (require_carries Iff.rfl rfl).bind fun _ =>
        uint8_carries.bind fun _ => (require_carries Iff.rfl rfl).bind fun _ => .pure rfl

theorem checkLengths_carries (offset : Nat) (lengths : List UInt8) :
    s.Carries id (checkLengths offset lengths) (checkLengths (offset + s.distance) lengths) := by
  unfold checkLengths
  cases mismatch? 1 lengths with
  | none => exact .pure rfl
  | some found =>
    exact fail_carries id (.opcodeLengthMismatch offset found.1 found.2.1 found.2.2)

theorem readOpcodeLengths_carries (offset : Nat) (check : Bool) (opcodeBase : UInt8) :
    s.Carries id (readOpcodeLengths offset check opcodeBase)
      (readOpcodeLengths (offset + s.distance) check opcodeBase) := by
  refine (times_carries uint8_carries _).bind fun lengths => ?_
  dsimp only [id]
  split_ifs
  · exact (checkLengths_carries offset lengths).bind fun _ => .pure rfl
  · exact .pure rfl

theorem readDirectoriesWithin_carries (compDir : String) (most : Nat) :
    s.Carries id (readDirectoriesWithin compDir most) (readDirectoriesWithin compDir most) := by
  induction most with
  | zero => exact .pure rfl
  | succ most ih =>
    refine text_carries.bind fun name => ?_
    dsimp only [id]
    split_ifs
    · exact .pure rfl
    · exact ih.bind fun rest => .pure rfl

theorem readDirectories_carries (compDir : String) :
    s.Carries id (readDirectories compDir) (readDirectories compDir) := by
  refine .get_bind fun c c' h => ?_
  rw [h.remaining_eq]
  exact readDirectoriesWithin_carries compDir _

theorem readInside_carries {endOffset : Nat}
    (hfits : endOffset + s.distance < UInt64.size - 1) (compDir : String) (check : Bool)
    (offset : Nat) (format : Format) (unitLength : Nat) :
    s.CarriesDecode (Header.shift s.distance)
      (readInside compDir check offset format unitLength endOffset)
      (readInside compDir check (offset + s.distance) format unitLength
        (endOffset + s.distance)) := by
  refine (ofRead_carries (readVersion_carries offset)).bind fun version =>
    (ofRead_carries (readProgramStart_carries hfits offset format)).bind fun ⟨_, _⟩ =>
      (ofRead_carries (readParameters_carries offset version)).bind fun parameters =>
        (ofRead_carries (readOpcodeLengths_carries offset check parameters.opcodeBase)).bind
          fun _ => (ofRead_carries (readDirectories_carries compDir)).bind fun _ =>
            (readEntries_carries _).bind fun _ => .get_bind fun d d' hd => .pure ?_
  rw [hd.files_eq]
  rfl

/-- Both decoders have passed `passed` bytes of the stretch and see the rest of it. -/
theorem holds_passed (s : Surroundings) (passed : Nat) (order : ByteOrder) (addressSize : UInt8)
    (files : FileTable) :
    s.HoldsDecoder
      ⟨⟨s.stretch.toArray, passed, s.stretch.length, order, addressSize, none⟩, files⟩
      ⟨⟨s.whole.toArray, passed + s.distance, s.stretch.length + s.distance, order, addressSize,
        none⟩, files⟩ where
  cursor := by constructor <;> simp
  files_eq := rfl

/-- A unit that lies among others has the header that it has alone, only further on. -/
theorem read_matching {order : ByteOrder} {format : Format}
    (hunit : IsWholeUnit order format s.stretch)
    (hfits : s.distance + s.stretch.length < UInt64.size - 1) (addressSize : UInt8)
    (files : FileTable) (compDir : String) (check : Bool) :
    Matching s.HoldsDecoder (LineError.shift s.distance) (Header.shift s.distance)
      (read compDir check ⟨Cursor.ofBytes s.stretch.toArray 0 order addressSize, files⟩)
      (read compDir check
        ⟨Cursor.ofBytes s.whole.toArray s.distance order addressSize, files⟩) := by
  have halone : s.stretch.toArray.toList.drop 0 = s.stretch ++ [] := by simp
  have hwhole : s.whole.toArray.toList.drop s.distance = s.stretch ++ s.back := by
    simp [whole, distance]
  rw [read_of_isWholeUnit halone hunit (by omega), read_of_isWholeUnit hwhole hunit (by omega)]
  rw [Nat.add_comm] at hfits
  have hmatching := readInside_carries hfits compDir check 0 format
    (s.stretch.length - format.initialSize)
    (s.holds_passed format.initialSize order addressSize files)
  simpa only [Nat.zero_add, Nat.add_comm s.distance] using hmatching

theorem read_endOffset {order : ByteOrder} {format : Format}
    (hunit : IsWholeUnit order format s.stretch)
    (hfits : s.distance + s.stretch.length < UInt64.size - 1) {addressSize : UInt8}
    {files : FileTable} {compDir : String} {check : Bool} {header : Header} {d : Decoder}
    (hread : read compDir check ⟨Cursor.ofBytes s.stretch.toArray 0 order addressSize, files⟩ =
      .ok header d) : header.endOffset = s.stretch.length := by
  have halone : s.stretch.toArray.toList.drop 0 = s.stretch ++ [] := by simp
  rw [read_of_isWholeUnit halone hunit (by omega)] at hread
  exact (readInside_endOffset _ _ _ _ _ _ hread).trans (Nat.zero_add _)

end Surroundings
end DebugLine
