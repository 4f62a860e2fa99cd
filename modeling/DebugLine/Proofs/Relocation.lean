import DebugLine.Proofs.Places
import DebugLine.Proofs.ProgramLayout

/-!
# The same bytes elsewhere

What a decoder lists depends on the bytes that it sees. Where these lie in a section shows only in
the offsets of a failure, and the files that came before them only in the numbers of the files that
they define.
-/

namespace DebugLine

variable {α β : Type}

@[simp] theorem LineError.shift_shift (n k : Nat) (e : LineError) :
    (e.shift n).shift k = e.shift (n + k) := by
  cases e <;> simp [shift, Header.endOf, Nat.add_assoc]
  omega

namespace Listing

open Instruction (decode)

variable {h h' : Header} {d d' : Decoder}

/-- Where decoding goes along with decoding, so does listing with listing. -/
theorem ofDecoder_simulates {r : Decoder → Decoder → Prop} {error : LineError → LineError}
    {value : Instruction → Instruction}
    (hdecode : Simulates r error value (decode h) (decode h'))
    (hempty : ∀ d d', r d d' → d'.cursor.isEmpty = d.cursor.isEmpty) (hd : r d d') :
    (ofDecoder h' d').instructions.map Prod.fst =
        ((ofDecoder h d).instructions.map Prod.fst).map value ∧
      (ofDecoder h' d').failure = (ofDecoder h d).failure.map error ∧
      r (ofDecoder h d).decoder (ofDecoder h' d').decoder := by
  induction d using decoder_induction (h := h) generalizing d' with
  | ended d hend =>
    rw [ofDecoder_of_isEmpty hend, ofDecoder_of_isEmpty ((hempty d d' hd).trans hend)]
    exact ⟨rfl, rfl, hd⟩
  | fails d e t hend herr =>
    have hmatching := hdecode hd
    rw [herr] at hmatching
    generalize hdecode' : decode h' d' = o at hmatching
    cases hmatching with
    | error error_eq state =>
      rw [ofDecoder_of_error hend herr,
        ofDecoder_of_error ((hempty d d' hd).trans hend) hdecode']
      exact ⟨rfl, congrArg some error_eq, state⟩
  | decodes d i t hend hok ih =>
    have hmatching := hdecode hd
    rw [hok] at hmatching
    generalize hdecode' : decode h' d' = o at hmatching
    cases hmatching with
    | ok value_eq state =>
      obtain ⟨hinstructions, hfailure, hdecoder⟩ := ih state
      rw [ofDecoder_of_ok hend hok, ofDecoder_of_ok ((hempty d d' hd).trans hend) hdecode']
      refine ⟨?_, hfailure, hdecoder⟩
      simp only [List.map_cons, value_eq, hinstructions]

end Listing

namespace Surroundings

/-- What a cursor sees, between what it does not see. -/
def ofCursor (c : Cursor) : Surroundings where
  front := c.bytes.toList.take c.offset
  stretch := c.window
  back := c.bytes.toList.drop c.limit

end Surroundings

namespace Cursor

variable {c : Cursor}

/-- The cursor that sees the same bytes and has no others. -/
def alone (c : Cursor) : Cursor where
  bytes := c.window.toArray
  offset := 0
  limit := c.window.length
  byteOrder := c.byteOrder
  addressSize := c.addressSize
  failure := none

theorem Sound.distance_ofCursor (h : c.Sound) :
    (Surroundings.ofCursor c).distance = c.offset := by
  rw [Surroundings.distance, Surroundings.ofCursor, List.length_take_of_le]
  exact h.offset_le.trans h.limit_le

theorem Sound.holds (h : c.Sound) : (Surroundings.ofCursor c).Holds c.alone c where
  bytes_eq := rfl
  whole_eq := by
    have hsplit : c.bytes.toList.drop c.offset = c.window ++ c.bytes.toList.drop c.limit := by
      rw [window, Array.toList_extract, List.extract_eq_take_drop]
      have hlimit : c.limit = c.offset + (c.limit - c.offset) :=
        (Nat.add_sub_of_le h.offset_le).symm
      conv_rhs => rw [hlimit, ← List.drop_drop]
      simp
    rw [Surroundings.whole, Surroundings.ofCursor, List.append_assoc, ← hsplit,
      List.take_append_drop]
  offset_eq := by
    rw [h.distance_ofCursor]
    exact (Nat.zero_add _).symm
  limit_eq := by
    rw [h.distance_ofCursor, alone, length_window h.limit_le]
    exact (Nat.sub_add_cancel h.offset_le).symm
  limit_le := le_rfl
  byteOrder_eq := rfl
  addressSize_eq := rfl
  failure_eq := h.failure_eq

end Cursor

namespace Instruction

/-- The same instruction where the numbers of files are `n` higher. -/
def renumber (n : UInt64) : Instruction → Instruction
  | defineFile index => defineFile (index + n)
  | instruction => instruction

theorem renumber_of_not_definesFile {i : Instruction} (h : i.definesFile = false) (n : UInt64) :
    i.renumber n = i := by
  cases i <;> first | rfl | cases h

theorem execute_renumber (p : LineParameters) (n : UInt64) (i : Instruction) (r : Row) :
    r.execute p (i.renumber n) = r.execute p i := by
  cases i <;> rfl

/-- The registers know nothing of the numbers of files that are defined. -/
theorem executeAll_renumber (p : LineParameters) (n : UInt64) (instructions : List Instruction)
    (r : Row) :
    Row.executeAll p (instructions.map (renumber n)) r = Row.executeAll p instructions r := by
  induction instructions generalizing r with
  | nil => rfl
  | cons i rest ih => simp only [List.map_cons, Row.executeAll, execute_renumber, ih]

end Instruction

/-- The decoders have the same cursor, and have appended the same files to either of two tables. -/
structure Apart (t t' : FileTable) (d d' : Decoder) : Prop where
  cursor_eq : d'.cursor = d.cursor
  files : ∃ added, d.files = t.pushAll added ∧ d'.files = t'.pushAll added

namespace Apart

variable {t t' : FileTable}

/-- The numbers of files in the second table are `n` higher than in the first. -/
def distance (t t' : FileTable) : UInt64 := UInt64.ofNat t'.count - UInt64.ofNat t.count

theorem ofNat_count {d d' : Decoder} (h : Apart t t' d d') :
    UInt64.ofNat d'.files.count = UInt64.ofNat d.files.count + distance t t' := by
  obtain ⟨added, hfiles, hfiles'⟩ := h.files
  simp only [hfiles, hfiles', FileTable.count_pushAll, UInt64.ofNat_add, distance]
  grind

theorem ofRead_of_yields {value : α → α} {x : Read α} (hx : Yields (fun a _ => value a = a) x) :
    Simulates (Apart t t') id value (Decode.ofRead x) (Decode.ofRead x) := by
  intro d d' h
  unfold Decode.ofRead
  rw [h.cursor_eq]
  cases hok : x d.cursor with
  | ok a c => exact .ok (hx hok).symm ⟨rfl, h.files⟩
  | error e c => exact .error rfl ⟨rfl, h.files⟩

theorem ofRead (x : Read α) : Simulates (Apart t t') id id (Decode.ofRead x) (Decode.ofRead x) :=
  ofRead_of_yields fun _ _ _ _ => rfl

section Unlimited

variable (ht : t.limit = none) (ht' : t'.limit = none)
include ht ht'

theorem append (entry : FileEntry) (offset : Nat) :
    Simulates (Apart t t') id id (Decoder.append entry offset) (Decoder.append entry offset) := by
  intro d d' h
  obtain ⟨added, hfiles, hfiles'⟩ := h.files
  have hroom : d.files.reachedLimit? = none := by
    simp [FileTable.reachedLimit?, hfiles, ht]
  have hroom' : d'.files.reachedLimit? = none := by
    simp [FileTable.reachedLimit?, hfiles', ht']
  rw [Decoder.append_of_room hroom, Decoder.append_of_room hroom']
  exact .ok rfl ⟨h.cursor_eq, added ++ [entry], by simp [hfiles], by simp [hfiles']⟩

theorem readEntry (directories : Array String) :
    Simulates (Apart t t') id id (Decoder.readEntry directories)
      (Decoder.readEntry directories) := by
  refine (ofRead Cursor.text).bind fun name => ?_
  dsimp only [id]
  split_ifs
  · exact .pure rfl
  · refine (ofRead Cursor.position).bind fun offset => (ofRead Cursor.uleb128).bind fun index => ?_
    dsimp only [id]
    cases Decoder.resolve directories index name with
    | none => exact ofRead _
    | some path =>
      exact (ofRead Cursor.uleb128).bind fun _ => (ofRead Cursor.uleb128).bind fun _ =>
        (append ht ht' _ offset).bind fun _ => .pure rfl

theorem readOperands (h : Header) (offset : Nat) (length : UInt64) (opcode : UInt8) :
    Simulates (Apart t t') id (Instruction.renumber (distance t t'))
      (Instruction.readOperands h offset length opcode)
      (Instruction.readOperands h offset length opcode) := by
  unfold Instruction.readOperands
  cases ExtendedOpcode.ofCode? opcode with
  | none => exact .pure rfl
  | some known =>
    cases known with
    | endSequence => exact .pure rfl
    | setAddress => exact (ofRead Cursor.address).bind fun _ => .pure rfl
    | setDiscriminator => exact (ofRead Cursor.uleb128).bind fun _ => .pure rfl
    | defineFile =>
      refine (readEntry ht ht' _).bind fun more => ?_
      dsimp only [id]
      split_ifs
      · refine .get_bind fun d d' hd => .pure ?_
        rw [hd.ofNat_count, Instruction.renumber]
      · exact ofRead_of_yields fun _ _ _ hok =>
          absurd ((Cursor.fail_accepts _ _ _).mp hok) (by simp)

theorem readExtended (h : Header) (offset : Nat) :
    Simulates (Apart t t') id (Instruction.renumber (distance t t'))
      (Instruction.readExtended h offset) (Instruction.readExtended h offset) :=
  (ofRead Cursor.uleb128).bind fun length => (ofRead Cursor.position).bind fun _ =>
    (ofRead Cursor.uint8).bind fun opcode =>
      (readOperands ht ht' h offset length opcode).bind fun _ =>
        (ofRead Cursor.position).bind fun _ => (ofRead _).bind fun _ =>
          (ofRead (Cursor.skip _)).bind fun _ => .pure rfl

end Unlimited

theorem decode (ht : t.limit = none) (ht' : t'.limit = none) (h : Header) :
    Simulates (Apart t t') id (Instruction.renumber (distance t t')) (Instruction.decode h)
      (Instruction.decode h) := by
  refine (ofRead Cursor.position).bind fun offset => (ofRead Cursor.uint8).bind fun opcode => ?_
  dsimp only [id]
  split_ifs
  · exact .pure rfl
  · exact readExtended ht ht' h offset
  · exact ofRead_of_yields fun _ _ _ hok => Instruction.renumber_of_not_definesFile
      (Bool.toNat_eq_zero.mp (Instruction.readStandard_yields h opcode hok)) _

end Apart

/-- `d'` sees the bytes that `d` sees, `n` bytes further on, and has other files. -/
structure Relocated (n : Nat) (d d' : Decoder) : Prop where
  sound : d.cursor.Sound
  sound' : d'.cursor.Sound
  window_eq : d'.cursor.window = d.cursor.window
  offset_eq : d'.cursor.offset = d.cursor.offset + n
  byteOrder_eq : d'.cursor.byteOrder = d.cursor.byteOrder
  addressSize_eq : d'.cursor.addressSize = d.cursor.addressSize

namespace Listing

open Instruction (renumber)

variable {h h' : Header} {d d' : Decoder} {n : Nat}

/-- What a decoder lists it would list if its bytes were all of the section. -/
theorem ofDecoder_alone (h : Header) (hsound : d.cursor.Sound) :
    (ofDecoder h d).instructions.map Prod.fst =
        (ofDecoder h ⟨d.cursor.alone, d.files⟩).instructions.map Prod.fst ∧
      (ofDecoder h d).failure = (ofDecoder h ⟨d.cursor.alone, d.files⟩).failure.map
        (LineError.shift d.cursor.offset) ∧
      (ofDecoder h d).decoder.files = (ofDecoder h ⟨d.cursor.alone, d.files⟩).decoder.files := by
  have hcarries : (Surroundings.ofCursor d.cursor).CarriesDecode id (Instruction.decode h)
      (Instruction.decode h) := Surroundings.decode_carries h
  have hholds : (Surroundings.ofCursor d.cursor).HoldsDecoder ⟨d.cursor.alone, d.files⟩ d :=
    ⟨hsound.holds, rfl⟩
  obtain ⟨hinstructions, hfailure, hdecoder⟩ :=
    ofDecoder_simulates hcarries (fun _ _ hd => hd.cursor.isEmpty_eq) hholds
  rw [List.map_id] at hinstructions
  rw [hsound.distance_ofCursor] at hfailure
  exact ⟨hinstructions, hfailure, hdecoder.files_eq⟩

theorem ofDecoder_relocated (h h' : Header) (hd : Relocated n d d')
    (hdecode : Instruction.decode h' = Instruction.decode h) (ht : d.files.limit = none)
    (ht' : d'.files.limit = none) :
    (ofDecoder h' d').instructions.map Prod.fst =
        ((ofDecoder h d).instructions.map Prod.fst).map
          (renumber (Apart.distance d.files d'.files)) ∧
      (ofDecoder h' d').failure = (ofDecoder h d).failure.map (LineError.shift n) ∧
      ∃ added, (ofDecoder h d).decoder.files = d.files.pushAll added ∧
        (ofDecoder h' d').decoder.files = d'.files.pushAll added := by
  have halone : d'.cursor.alone = d.cursor.alone := by
    rw [Cursor.alone, hd.window_eq, hd.byteOrder_eq, hd.addressSize_eq, Cursor.alone]
  have hfirst := ofDecoder_alone h hd.sound
  have hsecond := ofDecoder_alone h' hd.sound'
  rw [halone] at hsecond
  have hapart : Simulates (Apart d.files d'.files) id (renumber (Apart.distance d.files d'.files))
      (Instruction.decode h) (Instruction.decode h') := by
    rw [hdecode]
    exact Apart.decode ht ht' h
  have hnone : Apart d.files d'.files ⟨d.cursor.alone, d.files⟩ ⟨d.cursor.alone, d'.files⟩ :=
    ⟨rfl, [], rfl, rfl⟩
  obtain ⟨hinstructions, hfailure, hfiles⟩ :=
    ofDecoder_simulates hapart (fun _ _ hd => by rw [hd.cursor_eq]) hnone
  refine ⟨?_, ?_, ?_⟩
  · rw [hsecond.1, hinstructions, hfirst.1]
  · rw [hsecond.2.1, hfailure, hfirst.2.1, hd.offset_eq]
    simp [Option.map_map, Function.comp_def]
  · rw [hsecond.2.2, hfirst.2.2]
    exact hfiles.files

end Listing
end DebugLine
