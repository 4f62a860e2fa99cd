import DebugLine.Instruction.Decode
import DebugLine.Proofs.Simulation
import Mathlib.Tactic

/-!
# Reading among other bytes

A cursor whose limit lies inside a stretch of a section sees no byte outside the stretch. It reads
what a cursor reads that has the stretch alone, only that its offsets are further on.
-/

namespace DebugLine

variable {α β : Type}

/-- The failure at a place that lies `n` bytes further on. Where it puts the program stays a 64-bit
offset. -/
def LineError.shift (n : Nat) : LineError → LineError
  | unexpectedEnd offset needed available => unexpectedEnd (offset + n) needed available
  | leb128Overflow offset => leb128Overflow (offset + n)
  | unsupportedAddressSize size => unsupportedAddressSize size
  | reservedUnitLength offset value => reservedUnitLength (offset + n) value
  | unitExceedsSection offset unitEnd sectionLength =>
    unitExceedsSection (offset + n) (unitEnd + n) sectionLength
  | headerExceedsUnit offset programOffset unitEnd =>
    headerExceedsUnit (offset + n) (Header.endOf programOffset n) (unitEnd + n)
  | unsupportedVersion offset version => unsupportedVersion (offset + n) version
  | invalidLineRange offset => invalidLineRange (offset + n)
  | invalidOperationCount offset => invalidOperationCount (offset + n)
  | invalidOpcodeBase offset => invalidOpcodeBase (offset + n)
  | opcodeLengthMismatch offset opcode expected declared =>
    opcodeLengthMismatch (offset + n) opcode expected declared
  | directoryIndexOutOfRange offset index count =>
    directoryIndexOutOfRange (offset + n) index count
  | malformedDefineFile offset => malformedDefineFile (offset + n)
  | extendedOpcodeOverrun offset opcode length consumed =>
    extendedOpcodeOverrun (offset + n) opcode length consumed
  | fileTableFull offset limit => fileTableFull (offset + n) limit

theorem Fault.toError_shift (n offset width : Nat) (fault : Fault) :
    fault.toError (offset + n) width = (fault.toError offset width).shift n := by
  cases fault <;> simp [toError, LineError.shift, Nat.add_right_comm]

/-- The same header at a place that lies `n` bytes further on. -/
def Header.shift (n : Nat) (h : Header) : Header :=
  { h with
    offset := h.offset + n
    programOffset := h.programOffset + n
    endOffset := h.endOffset + n }

theorem Cursor.scan_of_failure {reach : Nat} {scanner : List UInt8 → Scan α} {c : Cursor}
    {e : LineError} (h : c.failure = some e) : scan reach scanner c = .error e c := by
  simp [scan, h]

theorem Cursor.scan_of_sound {reach : Nat} {scanner : List UInt8 → Scan α} {c : Cursor}
    (h : c.failure = none) :
    scan reach scanner c =
      match scanner (c.ahead reach) with
      | .done value width => .ok value { c with offset := c.offset + width }
      | .stopped fault width =>
        .error (fault.toError c.offset width)
          { c with offset := c.offset + width
                   failure := some (fault.toError c.offset width) } := by
  cases hs : scanner (c.ahead reach) <;> simp [scan, h, hs]

/-- A stretch of a section, and the bytes in front of it and behind it. -/
structure Surroundings where
  front : List UInt8
  stretch : List UInt8
  back : List UInt8

namespace Surroundings

variable (s : Surroundings)

def whole : List UInt8 := s.front ++ s.stretch ++ s.back

/-- How far the stretch lies in the section. -/
def distance : Nat := s.front.length

/-- `c'` stands in the whole section where `c` stands in the stretch alone. -/
structure Holds (c c' : Cursor) : Prop where
  bytes_eq : c.bytes = s.stretch.toArray
  whole_eq : c'.bytes = s.whole.toArray
  offset_eq : c'.offset = c.offset + s.distance
  limit_eq : c'.limit = c.limit + s.distance
  limit_le : c.limit ≤ s.stretch.length
  byteOrder_eq : c'.byteOrder = c.byteOrder
  addressSize_eq : c'.addressSize = c.addressSize
  failure_eq : c'.failure = c.failure.map (LineError.shift s.distance)

/-- Reading in the stretch alone and reading in the whole section. -/
abbrev Carries (value : α → β) (x : Read α) (x' : Read β) : Prop :=
  Simulates s.Holds (LineError.shift s.distance) value x x'

namespace Holds

variable {s} {c c' : Cursor} (h : s.Holds c c')
include h

theorem remaining_eq : c'.remaining = c.remaining := by
  simp only [Cursor.remaining, h.offset_eq, h.limit_eq, Nat.add_sub_add_right]

theorem isEmpty_eq : c'.isEmpty = c.isEmpty := by
  simp only [Cursor.isEmpty, h.remaining_eq]

/-- The bytes behind the stretch lie behind the limit. -/
theorem ahead_eq (reach : Nat) : c'.ahead reach = c.ahead reach := by
  have hlimit := h.limit_le
  have hwidth : min c'.limit (c'.offset + reach) - c'.offset =
      min c.limit (c.offset + reach) - c.offset := by
    rw [h.limit_eq, h.offset_eq]
    omega
  have hdrop : s.whole.drop c'.offset = s.stretch.drop c.offset ++
      s.back.drop (c.offset - s.stretch.length) := by
    rw [whole, h.offset_eq, Nat.add_comm, List.append_assoc, distance,
      List.drop_length_add_append, List.drop_append]
  have hinside : min c.limit (c.offset + reach) - c.offset ≤ (s.stretch.drop c.offset).length := by
    rw [List.length_drop]
    omega
  simp only [Cursor.ahead, Array.toList_extract, List.extract_eq_take_drop, h.bytes_eq, h.whole_eq,
    hwidth, hdrop, List.take_append_of_le_length hinside]

/-- Both cursors may pass the same bytes. -/
theorem advance (width : Nat) :
    s.Holds { c with offset := c.offset + width } { c' with offset := c'.offset + width } where
  __ := h
  offset_eq := by
    dsimp only
    rw [h.offset_eq, Nat.add_right_comm]

theorem fail (e : LineError) :
    s.Holds { c with failure := some e }
      { c' with failure := some (e.shift s.distance) } where
  __ := h
  failure_eq := rfl

theorem seek (offset : Nat) {limit : Nat} (hlimit : limit ≤ s.stretch.length) :
    s.Holds (c.seek offset limit) (c'.seek (offset + s.distance) (limit + s.distance)) where
  bytes_eq := h.bytes_eq
  whole_eq := h.whole_eq
  offset_eq := by
    simp [Cursor.seek, h.bytes_eq, h.whole_eq, whole, distance]
    omega
  limit_eq := by
    simp [Cursor.seek, h.bytes_eq, h.whole_eq, whole, distance]
    omega
  limit_le := by simp [Cursor.seek, hlimit]
  byteOrder_eq := h.byteOrder_eq
  addressSize_eq := h.addressSize_eq
  failure_eq := h.failure_eq

end Holds

variable {s}

theorem scan_carries (reach : Nat) (scanner : List UInt8 → Scan α) :
    s.Carries id (Cursor.scan reach scanner) (Cursor.scan reach scanner) := by
  intro c c' h
  cases hc : c.failure with
  | some e =>
    have hc' : c'.failure = some (e.shift s.distance) := by rw [h.failure_eq, hc, Option.map_some]
    rw [Cursor.scan_of_failure hc, Cursor.scan_of_failure hc']
    exact .error rfl h
  | none =>
    have hc' : c'.failure = none := by rw [h.failure_eq, hc, Option.map_none]
    rw [Cursor.scan_of_sound hc, Cursor.scan_of_sound hc', h.ahead_eq]
    cases scanner (c.ahead reach) with
    | done value width => exact .ok rfl (h.advance width)
    | stopped fault width =>
      have hfault : fault.toError c'.offset width =
          (fault.toError c.offset width).shift s.distance := by
        rw [h.offset_eq, Fault.toError_shift]
      dsimp only
      rw [hfault]
      exact .error rfl ((h.advance width).fail _)

theorem check_carries : s.Carries id Cursor.check Cursor.check := by
  intro c c' h
  unfold Cursor.check
  rw [h.failure_eq]
  cases c.failure with
  | some e => exact .error rfl h
  | none => exact .ok rfl h

theorem fail_carries (value : α → β) (e : LineError) :
    s.Carries value (Cursor.fail e) (Cursor.fail (e.shift s.distance)) := by
  intro c c' h
  unfold Cursor.fail
  rw [h.failure_eq]
  cases c.failure with
  | some first => exact .error rfl h
  | none => exact .error rfl (h.fail e)

theorem require_carries {p p' : Prop} [Decidable p] [Decidable p'] {e e' : LineError}
    (hp : p' ↔ p) (he : e' = e.shift s.distance) :
    s.Carries id (Cursor.require p e) (Cursor.require p' e') := by
  subst he
  unfold Cursor.require
  by_cases h : p
  · rw [if_pos h, if_pos (hp.mpr h)]
    exact .pure rfl
  · rw [if_neg h, if_neg (mt hp.mp h)]
    exact fail_carries id e

theorem position_carries : s.Carries (· + s.distance) Cursor.position Cursor.position :=
  .get_bind fun _ _ h => .pure h.offset_eq

theorem take_carries (n : Nat) : s.Carries id (Cursor.take n) (Cursor.take n) :=
  scan_carries n _

theorem skip_carries (n : Nat) : s.Carries id (Cursor.skip n) (Cursor.skip n) :=
  (take_carries n).bind fun _ => .pure rfl

theorem number_carries (width : Nat) : s.Carries id (Cursor.number width) (Cursor.number width) :=
  (take_carries width).bind fun bytes => .get_bind fun c c' h => .pure (by simp [h.byteOrder_eq])

theorem uint8_carries : s.Carries id Cursor.uint8 Cursor.uint8 :=
  (number_carries 1).bind fun _ => .pure rfl

theorem uint16_carries : s.Carries id Cursor.uint16 Cursor.uint16 :=
  (number_carries 2).bind fun _ => .pure rfl

theorem uleb128_carries : s.Carries id Cursor.uleb128 Cursor.uleb128 := scan_carries _ _

theorem sleb128_carries : s.Carries id Cursor.sleb128 Cursor.sleb128 := scan_carries _ _

theorem text_carries : s.Carries id Cursor.text Cursor.text := by
  refine .get_bind fun c c' h => ?_
  rw [h.remaining_eq]
  exact (scan_carries _ _).bind fun bytes => .pure rfl

theorem address_carries : s.Carries id Cursor.address Cursor.address := by
  refine .get_bind fun c c' h => ?_
  rw [h.addressSize_eq]
  dsimp only
  split_ifs
  · exact (number_carries _).bind fun _ => .pure rfl
  · exact fail_carries id (.unsupportedAddressSize c.addressSize)

theorem times_carries {item : Read α} (h : s.Carries id item item) (n : Nat) :
    s.Carries id (Cursor.times item n) (Cursor.times item n) := by
  induction n with
  | zero => exact .pure rfl
  | succ n ih => exact h.bind fun x => ih.bind fun xs => .pure rfl

/-- `d'` stands in the whole section where `d` stands in the stretch alone, with the same files. -/
structure HoldsDecoder (s : Surroundings) (d d' : Decoder) : Prop where
  cursor : s.Holds d.cursor d'.cursor
  files_eq : d'.files = d.files

abbrev CarriesDecode (s : Surroundings) (value : α → β) (x : Decode α) (x' : Decode β) : Prop :=
  Simulates s.HoldsDecoder (LineError.shift s.distance) value x x'

theorem ofRead_carries {value : α → β} {x : Read α} {x' : Read β} (h : s.Carries value x x') :
    s.CarriesDecode value (Decode.ofRead x) (Decode.ofRead x') := by
  intro d d' hd
  have hread := h hd.cursor
  unfold Decode.ofRead
  generalize x d.cursor = o at hread
  generalize x' d'.cursor = o' at hread
  cases hread with
  | ok value_eq state => exact .ok value_eq ⟨state, hd.files_eq⟩
  | error error_eq state => exact .error error_eq ⟨state, hd.files_eq⟩

theorem append_carries (entry : FileEntry) (offset : Nat) :
    s.CarriesDecode id (Decoder.append entry offset)
      (Decoder.append entry (offset + s.distance)) := by
  refine .get_bind fun d d' hd => ?_
  rw [hd.files_eq]
  cases d.files.reachedLimit? with
  | some limit => exact ofRead_carries (fail_carries id (.fileTableFull offset limit))
  | none => exact .modify fun t t' ht => ⟨ht.cursor, congrArg (·.push entry) ht.files_eq⟩

theorem readEntry_carries (directories : Array String) :
    s.CarriesDecode id (Decoder.readEntry directories) (Decoder.readEntry directories) := by
  refine (ofRead_carries text_carries).bind fun name => ?_
  dsimp only [id]
  split_ifs
  · exact .pure rfl
  · refine (ofRead_carries position_carries).bind fun offset =>
      (ofRead_carries uleb128_carries).bind fun index => ?_
    dsimp only [id]
    cases Decoder.resolve directories index name with
    | none =>
      exact ofRead_carries
        (fail_carries id (.directoryIndexOutOfRange offset index directories.size))
    | some path =>
      exact (ofRead_carries uleb128_carries).bind fun _ =>
        (ofRead_carries uleb128_carries).bind fun _ =>
          (append_carries _ offset).bind fun _ => .pure rfl

theorem readEntriesWithin_carries (directories : Array String) (most : Nat) :
    s.CarriesDecode id (Decoder.readEntriesWithin directories most)
      (Decoder.readEntriesWithin directories most) := by
  induction most with
  | zero => exact .pure rfl
  | succ most ih =>
    refine (readEntry_carries directories).bind fun more => ?_
    dsimp only [id]
    split_ifs
    · exact ih
    · exact .pure rfl

theorem readEntries_carries (directories : Array String) :
    s.CarriesDecode id (Decoder.readEntries directories) (Decoder.readEntries directories) := by
  refine .get_bind fun d d' hd => ?_
  rw [hd.cursor.remaining_eq]
  exact readEntriesWithin_carries directories _

section Instruction

open Instruction

variable (h : Header)

theorem readKnown_carries (opcode : StandardOpcode) :
    s.Carries id (readKnown opcode) (readKnown opcode) := by
  cases opcode with
  | advanceLine => exact sleb128_carries.bind fun _ => .pure rfl
  | fixedAdvancePc => exact uint16_carries.bind fun _ => .pure rfl
  | advancePc | setFile | setColumn | setIsa => exact uleb128_carries.bind fun _ => .pure rfl
  | copy | negateStmt | setBasicBlock | constAddPc | setPrologueEnd | setEpilogueBegin =>
    exact .pure rfl

theorem skipOperands_carries (count : Nat) :
    s.Carries id (skipOperands count) (skipOperands count) :=
  (times_carries uleb128_carries count).bind fun _ => .pure rfl

theorem readStandard_carries (opcode : UInt8) :
    s.Carries id (readStandard h opcode) (readStandard (h.shift s.distance) opcode) := by
  unfold readStandard
  cases StandardOpcode.ofCode? opcode with
  | some known => exact readKnown_carries known
  | none =>
    exact (skipOperands_carries ((h.standardOpcodeLength? opcode).getD 0).toNat).bind fun _ =>
      .pure rfl

theorem readOperands_carries (offset : Nat) (length : UInt64) (opcode : UInt8) :
    s.CarriesDecode id (readOperands h offset length opcode)
      (readOperands (h.shift s.distance) (offset + s.distance) length opcode) := by
  unfold readOperands
  cases ExtendedOpcode.ofCode? opcode with
  | none => exact .pure rfl
  | some known =>
    cases known with
    | endSequence => exact .pure rfl
    | setAddress => exact (ofRead_carries address_carries).bind fun _ => .pure rfl
    | setDiscriminator => exact (ofRead_carries uleb128_carries).bind fun _ => .pure rfl
    | defineFile =>
      refine (readEntry_carries h.includeDirectories).bind fun more => ?_
      dsimp only [id]
      split_ifs
      · refine .get_bind fun d d' hd => .pure ?_
        rw [hd.files_eq, id]
      · exact ofRead_carries (fail_carries id (.malformedDefineFile offset))

/-- The bytes that the operands took are counted from offset to offset. -/
theorem readExtended_carries (offset : Nat) :
    s.CarriesDecode id (readExtended h offset)
      (readExtended (h.shift s.distance) (offset + s.distance)) := by
  refine (ofRead_carries uleb128_carries).bind fun length =>
    (ofRead_carries position_carries).bind fun start =>
      (ofRead_carries uint8_carries).bind fun opcode =>
        (readOperands_carries h offset length opcode).bind fun instruction =>
          (ofRead_carries position_carries).bind fun position => ?_
  dsimp only [id]
  rw [Nat.add_sub_add_right]
  exact (ofRead_carries (require_carries Iff.rfl rfl)).bind fun _ =>
    (ofRead_carries (skip_carries _)).bind fun _ => .pure rfl

theorem decode_carries : s.CarriesDecode id (decode h) (decode (h.shift s.distance)) := by
  refine (ofRead_carries position_carries).bind fun offset =>
    (ofRead_carries uint8_carries).bind fun opcode => ?_
  have hbase : (h.shift s.distance).opcodeBase = h.opcodeBase := rfl
  dsimp only [id]
  rw [hbase]
  split_ifs
  · exact .pure rfl
  · exact readExtended_carries h offset
  · exact ofRead_carries (readStandard_carries h opcode)

end Instruction

end Surroundings
end DebugLine
