import DebugLine.Proofs.EntryLayout

/-!
# The layout of instructions

An instruction is an opcode byte with the operands that the opcode calls for. An extended one has
its length in front of its opcode, and what its operands leave of this length is padding. Decoding
accepts exactly the bytes that spell an instruction, whatever stands behind them.
-/

namespace DebugLine

variable {α β : Type}

namespace Decoder

variable {d d' : Decoder}

/-- From `d` the decoding succeeds exactly where the window starts with bytes that `spec` allows,
gives the value that `spec` pairs with them, passes them and appends the files that go with them. -/
def Accepts (spec : List UInt8 → α → List FileEntry → Prop) (x : Decode α) (d : Decoder) : Prop :=
  ∀ a d', x d = .ok a d' ↔ ∃ bytes rest added,
    d.cursor.window = bytes ++ rest ∧ spec bytes a added ∧ d' = d.passed bytes.length added

theorem Accepts.congr {spec spec' : List UInt8 → α → List FileEntry → Prop} {x : Decode α}
    (h : Accepts spec x d) (hspec : ∀ bytes a added, spec' bytes a added ↔ spec bytes a added) :
    Accepts spec' x d := by
  intro a d'
  simp only [h a d', hspec]

theorem Accepts.pure (a : α) :
    Accepts (fun bytes b added => bytes = [] ∧ b = a ∧ added = []) (pure a : Decode α) d := by
  intro b d'
  constructor
  · intro h
    cases h
    exact ⟨[], d.cursor.window, [], rfl, ⟨rfl, rfl, rfl⟩, rfl⟩
  · rintro ⟨_, _, _, -, ⟨rfl, rfl, rfl⟩, rfl⟩
    rfl

/-- A decoding accepts what it is known to read, if it reads nothing else. -/
theorem Accepts.of_reads {spec : List UInt8 → α → List FileEntry → Prop} {x : Decode α}
    (hreads : ∀ bytes a added, spec bytes a added → Reads x d bytes a added)
    (honly : ∀ a d', x d = .ok a d' →
      ∃ bytes added, d.cursor.window = bytes ++ d'.cursor.window ∧ spec bytes a added) :
    Accepts spec x d := by
  intro a d'
  constructor
  · intro h
    obtain ⟨bytes, added, hwindow, hspec⟩ := honly a d' h
    rw [hreads bytes a added hspec _ hwindow] at h
    cases h
    exact ⟨bytes, _, added, hwindow, hspec, rfl⟩
  · rintro ⟨bytes, rest, added, hwindow, hspec, rfl⟩
    exact hreads bytes a added hspec rest hwindow

theorem Accepts.ofRead_map {spec : List UInt8 → α → Prop} {x : Read α}
    (h : Cursor.Accepts spec x d.cursor) (f : α → β) :
    Accepts (fun bytes b added => (∃ a, spec bytes a ∧ b = f a) ∧ added = [])
      (Decode.ofRead x >>= fun a => Pure.pure (f a)) d := by
  refine .of_reads ?_ fun b d' hok => ?_
  · rintro bytes _ _ ⟨⟨a, hspec, rfl⟩, rfl⟩
    exact (reads_ofRead (h.reads hspec)).map f
  · obtain ⟨bytes, a, hwindow, hspec, hok⟩ := of_ofRead_bind h hok
    cases hok
    exact ⟨bytes, [], hwindow, ⟨a, hspec, rfl⟩, rfl⟩

theorem of_position_bind {f : Nat → Decode α} {a : α}
    (h : (Decode.ofRead Cursor.position >>= f) d = .ok a d') : f d.cursor.offset d = .ok a d' := h

theorem of_require_bind {p : Prop} [Decidable p] {e : LineError} {f : Unit → Decode α} {a : α}
    (h : (Decode.ofRead (Cursor.require p e) >>= f) d = .ok a d') : p ∧ f () d = .ok a d' := by
  obtain ⟨_, _, -, ⟨rfl, hp⟩, h⟩ := of_ofRead_bind (Cursor.require_accepts p e) h
  exact ⟨hp, h⟩

theorem Accepts.reads {spec : List UInt8 → α → List FileEntry → Prop} {x : Decode α}
    {bytes : List UInt8} {a : α} {added : List FileEntry} (h : Accepts spec x d)
    (hspec : spec bytes a added) : Reads x d bytes a added := fun rest hwindow =>
  (h a _).mpr ⟨bytes, rest, added, hwindow, hspec, rfl⟩

end Decoder

/-- What decides how the bytes of a program are read as instructions. -/
structure Coding where
  /-- The first special opcode. -/
  opcodeBase : UInt8
  /-- The declared argument count of a standard opcode. -/
  arguments : UInt8 → UInt8
  directories : Array String
  byteOrder : ByteOrder
  addressSize : UInt8

/-- How the decoder reads a program with this header. -/
def Decoder.coding (d : Decoder) (h : Header) : Coding where
  opcodeBase := h.opcodeBase
  arguments := fun opcode => (h.standardOpcodeLength? opcode).getD 0
  directories := h.includeDirectories
  byteOrder := d.cursor.byteOrder
  addressSize := d.cursor.addressSize

namespace Coding

open Instruction
open Leb128 (IsUnsigned IsNumeral unsignedWord)

variable (c : Coding)

/-- The instruction has one operand, an unsigned number. -/
def Numbered (instruction : UInt64 → Instruction) (bytes : List UInt8) (i : Instruction) : Prop :=
  IsUnsigned bytes ∧ i = instruction (unsignedWord bytes)

/-- The operands of a standard opcode with a known meaning. -/
def KnownOperands (bytes : List UInt8) (i : Instruction) : StandardOpcode → Prop
  | .copy => bytes = [] ∧ i = copy
  | .advancePc => Numbered advancePc bytes i
  | .advanceLine => IsNumeral Leb128.signedTop Leb128.maxGroups bytes ∧
      i = advanceLine (Int64.ofInt (Leb128.signedValue bytes))
  | .setFile => Numbered setFile bytes i
  | .setColumn => Numbered setColumn bytes i
  | .negateStmt => bytes = [] ∧ i = negateStatement
  | .setBasicBlock => bytes = [] ∧ i = setBasicBlock
  | .constAddPc => bytes = [] ∧ i = constAddPc
  | .fixedAdvancePc => ∃ delta : UInt16, bytes = c.byteOrder.bytes 2 delta.toNat ∧
      i = fixedAddPc delta
  | .setPrologueEnd => bytes = [] ∧ i = setPrologueEnd
  | .setEpilogueBegin => bytes = [] ∧ i = setEpilogueBegin
  | .setIsa => Numbered setIsa bytes i

/-- As many unsigned numbers as the header declares for an opcode without a known meaning. -/
def SkippedOperands (opcode : UInt8) (bytes : List UInt8) : Prop :=
  ∃ numbers : List (List UInt8), bytes = numbers.flatten ∧ (∀ number ∈ numbers, IsUnsigned number) ∧
    numbers.length = (c.arguments opcode).toNat

/-- What follows a standard opcode. -/
def StandardOperands (opcode : UInt8) (bytes : List UInt8) (i : Instruction) : Prop :=
  match StandardOpcode.ofCode? opcode with
  | some known => c.KnownOperands bytes i known
  | none => c.SkippedOperands opcode bytes ∧ i = unknownStandard opcode (c.arguments opcode)

/-- The operands of an extended opcode of the given length, and the files that it defines. -/
def ExtendedOperands (t : FileTable) (length : UInt64) (opcode : UInt8) (bytes : List UInt8)
    (i : Instruction) (added : List FileEntry) : Prop :=
  match ExtendedOpcode.ofCode? opcode with
  | some .endSequence => bytes = [] ∧ i = endSequence ∧ added = []
  | some .setAddress => (∃ address : UInt64,
      (bytes = c.byteOrder.bytes c.addressSize.toNat address.toNat ∧
        address.toNat < Nat.pow 256 c.addressSize.toNat) ∧ i = setAddress address) ∧ added = []
  | some .defineFile => ∃ e : EntryLayout, bytes = e.bytes ∧ e.Valid c.directories ∧ t.HasRoom 1 ∧
      i = defineFile (UInt64.ofNat (t.count + 1)) ∧ added = [e.entry c.directories]
  | some .setDiscriminator => Numbered setDiscriminator bytes i ∧ added = []
  | none => bytes = [] ∧ i = unknownExtended opcode length ∧ added = []

/-- The bytes spell one instruction where `t` is the file table, and it defines the files
`added`. -/
inductive Spells (t : FileTable) : List UInt8 → Instruction → List FileEntry → Prop
  | special {opcode : UInt8} (above : c.opcodeBase ≤ opcode) : Spells t [opcode] (special opcode) []
  | standard {opcode : UInt8} {bytes : List UInt8} {i : Instruction} (below : opcode < c.opcodeBase)
      (ne_zero : opcode ≠ 0) (operands : c.StandardOperands opcode bytes i) :
      Spells t (opcode :: bytes) i []
  | extended {length bytes padding : List UInt8} {opcode : UInt8} {i : Instruction}
      {added : List FileEntry} (below : 0 < c.opcodeBase) (isUnsigned : IsUnsigned length)
      (length_eq : (unsignedWord length).toNat = 1 + bytes.length + padding.length)
      (operands : c.ExtendedOperands t (unsignedWord length) opcode bytes i added) :
      Spells t (0 :: (length ++ opcode :: (bytes ++ padding))) i added

variable {c} {t : FileTable} {bytes : List UInt8} {i : Instruction} {added : List FileEntry}

theorem numbered_iff {instruction : UInt64 → Instruction} : Numbered instruction bytes i ↔
    ∃ n, (IsUnsigned bytes ∧ n = unsignedWord bytes) ∧ i = instruction n := by
  constructor
  · rintro ⟨hbytes, rfl⟩
    exact ⟨_, ⟨hbytes, rfl⟩, rfl⟩
  · rintro ⟨_, ⟨hbytes, rfl⟩, rfl⟩
    exact ⟨hbytes, rfl⟩

theorem Spells.length_pos (h : c.Spells t bytes i added) : 0 < bytes.length := by
  cases h <;> simp

end Coding

namespace Instruction

open Decoder (Accepts Reads of_ofRead_bind)

variable {h : Header} {d d' : Decoder}

section Sound

variable (hsound : d.cursor.failure = none)
include hsound

theorem numbered_accepts (instruction : UInt64 → Instruction) :
    Cursor.Accepts (Coding.Numbered instruction)
      (Cursor.uleb128 >>= fun n => pure (instruction n)) d.cursor :=
  ((Cursor.uleb128_accepts hsound).map instruction).congr fun _ _ => Coding.numbered_iff

theorem readKnown_accepts (opcode : StandardOpcode) :
    Cursor.Accepts (fun bytes i => (d.coding h).KnownOperands bytes i opcode) (readKnown opcode)
      d.cursor := by
  cases opcode with
  | copy | negateStmt | setBasicBlock | constAddPc | setPrologueEnd | setEpilogueBegin =>
    exact .pure _
  | advancePc | setFile | setColumn | setIsa => exact numbered_accepts hsound _
  | advanceLine =>
    refine ((Cursor.sleb128_accepts hsound).map advanceLine).congr fun bytes i => ?_
    constructor
    · rintro ⟨hbytes, rfl⟩
      exact ⟨_, ⟨hbytes, rfl⟩, rfl⟩
    · rintro ⟨_, ⟨hbytes, rfl⟩, rfl⟩
      exact ⟨hbytes, rfl⟩
  | fixedAdvancePc => exact (Cursor.uint16_accepts hsound).map fixedAddPc

theorem skipOperands_accepts (count : Nat) :
    Cursor.Accepts (fun bytes _ => ∃ numbers : List (List UInt8), bytes = numbers.flatten ∧
      (∀ number ∈ numbers, Leb128.IsUnsigned number) ∧ numbers.length = count)
      (skipOperands count) d.cursor := by
  have htimes := Cursor.times_accepts (c := d.cursor)
    (fun k => Cursor.uleb128_accepts (c := d.cursor.passed k) hsound) count
  refine (htimes.map fun _ => ()).congr fun bytes u => ?_
  constructor
  · rintro ⟨numbers, rfl, hnumbers, rfl⟩
    refine ⟨numbers.map Leb128.unsignedWord, ⟨numbers, rfl, ?_, List.length_map _⟩, rfl⟩
    rw [List.forall₂_map_right_iff, List.forall₂_same]
    exact fun number hnumber => ⟨hnumbers number hnumber, rfl⟩
  · rintro ⟨words, ⟨numbers, rfl, hwords, rfl⟩, -⟩
    refine ⟨numbers, rfl, fun number hnumber => ?_, hwords.length_eq⟩
    obtain ⟨k, hk, rfl⟩ := List.getElem_of_mem hnumber
    exact (hwords.get hk (hwords.length_eq ▸ hk)).1

theorem readStandard_accepts (opcode : UInt8) :
    Cursor.Accepts (fun bytes i => (d.coding h).StandardOperands opcode bytes i)
      (readStandard h opcode) d.cursor := by
  unfold readStandard Coding.StandardOperands
  cases StandardOpcode.ofCode? opcode with
  | some known => exact readKnown_accepts hsound known
  | none =>
    refine ((skipOperands_accepts hsound _).map fun _ => unknownStandard opcode _).congr
      fun bytes i => ?_
    exact ⟨fun ⟨hskipped, hi⟩ => ⟨(), hskipped, hi⟩, fun ⟨_, hskipped, hi⟩ => ⟨hskipped, hi⟩⟩

theorem reads_defineFile_operands {e : EntryLayout} (he : e.Valid h.includeDirectories)
    (hroom : d.files.HasRoom 1) (offset : Nat) :
    Reads (Decoder.readEntry h.includeDirectories >>= fun more =>
        if more then get >>= fun t => pure (defineFile (UInt64.ofNat t.files.count))
        else Decode.ofRead (Cursor.fail (.malformedDefineFile offset))) d e.bytes
      (defineFile (UInt64.ofNat (d.files.count + 1))) [e.entry h.includeDirectories] := by
  intro rest hwindow
  rw [bind_of_ok (Decoder.reads_entry hsound he hroom rest hwindow), if_pos rfl]
  have hcount : (d.files.pushAll [e.entry h.includeDirectories]).count = d.files.count + 1 :=
    FileTable.count_pushAll _ _
  rw [← hcount]
  rfl

theorem readOperands_accepts (hsize : d.cursor.addressSize ∈ addressSizes) (offset : Nat)
    (length : UInt64) (opcode : UInt8) :
    Accepts ((d.coding h).ExtendedOperands d.files length opcode)
      (readOperands h offset length opcode) d := by
  unfold readOperands Coding.ExtendedOperands
  cases ExtendedOpcode.ofCode? opcode with
  | none => exact .pure _
  | some known =>
    cases known with
    | endSequence => exact .pure _
    | setAddress => exact .ofRead_map (Cursor.address_accepts hsound hsize) setAddress
    | defineFile =>
      refine .of_reads ?_ fun i d' hok => ?_
      · rintro _ _ _ ⟨e, rfl, he, hroom, rfl, rfl⟩
        exact reads_defineFile_operands hsound he hroom offset
      · obtain ⟨more, t, hentry, hok⟩ := bind_eq_ok.mp hok
        rcases Decoder.of_readEntry hsound hentry with ⟨rfl, -⟩ | ⟨rfl, e, hwindow, he, hroom⟩
        · exact absurd hok Decoder.ofRead_fail_ne_ok
        · rw [Decoder.reads_entry hsound he hroom _ hwindow] at hentry
          cases hentry
          cases hok
          refine ⟨e.bytes, _, hwindow, e, rfl, he, hroom, ?_, rfl⟩
          exact congrArg (fun n => defineFile (UInt64.ofNat n)) (FileTable.count_pushAll _ _)
    | setDiscriminator =>
      exact (Accepts.ofRead_map (Cursor.uleb128_accepts hsound) setDiscriminator).congr
        fun _ _ _ => and_congr_left' Coding.numbered_iff

theorem readExtended_accepts (hsize : d.cursor.addressSize ∈ addressSizes) (offset : Nat) :
    Accepts (fun bytes i added => ∃ length operands padding opcode,
        bytes = length ++ opcode :: (operands ++ padding) ∧ Leb128.IsUnsigned length ∧
        (Leb128.unsignedWord length).toNat = 1 + operands.length + padding.length ∧
        (d.coding h).ExtendedOperands d.files (Leb128.unsignedWord length) opcode operands i added)
      (readExtended h offset) d := by
  refine .of_reads ?_ fun i d' hok => ?_
  · rintro _ i added ⟨length, operands, padding, opcode, rfl, hlength, hcount, hoperands⟩
    have hbytes : length ++ opcode :: (operands ++ padding) =
        length ++ ([opcode] ++ (operands ++ (padding ++ []))) := by simp
    rw [hbytes, ← List.append_nil added]
    refine .ofRead_bind (Cursor.uleb128_accepts hsound) ⟨hlength, rfl⟩ ?_
    refine .position_bind (.ofRead_bind (Cursor.uint8_accepts (by exact hsound)) rfl ?_)
    have hread := Accepts.reads (readOperands_accepts (h := h)
      (d := (d.passed length.length []).passed 1 []) hsound hsize offset
        (Leb128.unsignedWord length) opcode) hoperands
    refine hread.bind (.position_bind (.require_bind ?_
      (.ofRead_bind (a := ()) (Cursor.skip_accepts (by exact hsound) _) ?_ (.pure i))))
    · simp only [Decoder.passed_passed, Decoder.cursor_passed, Cursor.offset_passed]
      omega
    · simp only [Decoder.passed_passed, Decoder.cursor_passed, Cursor.offset_passed]
      omega
  · obtain ⟨length, _, h₁, ⟨hlength, rfl⟩, hok⟩ :=
      of_ofRead_bind (Cursor.uleb128_accepts hsound) hok
    obtain ⟨_, opcode, h₂, rfl, hok⟩ :=
      of_ofRead_bind (Cursor.uint8_accepts (by exact hsound)) (Decoder.of_position_bind hok)
    obtain ⟨i, t, hoperands, hok⟩ := bind_eq_ok.mp hok
    obtain ⟨operands, rest, added, h₃, hspec, rfl⟩ :=
      (readOperands_accepts (by exact hsound) (by exact hsize) _ _ _ _ _).mp hoperands
    obtain ⟨hfits, hok⟩ := Decoder.of_require_bind (Decoder.of_position_bind hok)
    obtain ⟨padding, _, h₄, hpadding, hok⟩ :=
      of_ofRead_bind (Cursor.skip_accepts (by exact hsound) _) hok
    cases hok
    rw [Decoder.cursor_passed, Cursor.window_passed, h₃, List.drop_left] at h₄
    refine ⟨length ++ opcode :: (operands ++ padding), added, ?_, length, operands, padding, opcode,
      rfl, hlength, ?_, hspec⟩
    · rw [h₁, h₂, h₃, h₄]
      simp
    · simp only [List.length_singleton, Decoder.passed_passed, Decoder.cursor_passed,
        Cursor.offset_passed] at hfits hpadding
      omega

/-- What spells an instruction is decoded as this instruction. -/
theorem reads_of_spells (hsize : d.cursor.addressSize ∈ addressSizes) {bytes : List UInt8}
    {i : Instruction} {added : List FileEntry}
    (hspells : (d.coding h).Spells d.files bytes i added) :
    Reads (decode h) d bytes i added := by
  cases hspells with
  | @special opcode habove =>
    have habove : h.opcodeBase ≤ opcode := habove
    change Reads _ d ([opcode] ++ []) _ _
    refine .position_bind (.ofRead_bind (Cursor.uint8_accepts hsound) rfl ?_)
    rw [if_pos habove]
    exact .pure _
  | @standard opcode operands _ hbelow hne hoperands =>
    have hbelow : ¬ h.opcodeBase ≤ opcode := UInt8.not_le.mpr hbelow
    change Reads _ d ([opcode] ++ operands) _ _
    refine .position_bind (.ofRead_bind (Cursor.uint8_accepts hsound) rfl ?_)
    rw [if_neg hbelow, if_neg hne]
    exact Decoder.reads_ofRead
      ((readStandard_accepts (d := d.passed 1 []) (by exact hsound) opcode).reads hoperands)
  | @extended length operands padding opcode _ _ hbelow hlength hcount hoperands =>
    have hbelow : ¬ h.opcodeBase ≤ 0 := UInt8.not_le.mpr hbelow
    change Reads _ d ([0] ++ (length ++ opcode :: (operands ++ padding))) _ _
    refine .position_bind (.ofRead_bind (Cursor.uint8_accepts hsound) rfl ?_)
    rw [if_neg hbelow, if_pos rfl]
    exact Accepts.reads (readExtended_accepts (by exact hsound) (by exact hsize) _)
      ⟨length, operands, padding, opcode, rfl, hlength, hcount, hoperands⟩

/-- Decoding accepts just the bytes that spell an instruction, whatever stands behind them. -/
theorem decode_accepts (hsize : d.cursor.addressSize ∈ addressSizes) :
    Accepts ((d.coding h).Spells d.files) (decode h) d := by
  refine .of_reads (fun _ _ _ => reads_of_spells hsound hsize) fun i d' hok => ?_
  obtain ⟨_, opcode, h₁, rfl, hok⟩ :=
    of_ofRead_bind (Cursor.uint8_accepts hsound) (Decoder.of_position_bind hok)
  split_ifs at hok with habove hzero
  · cases hok
    exact ⟨[opcode], [], h₁, .special habove⟩
  · subst hzero
    obtain ⟨_, rest, added, h₂, ⟨length, operands, padding, code, rfl, hlength, hcount, hoperands⟩,
      rfl⟩ := (readExtended_accepts (by exact hsound) (by exact hsize) _ _ _).mp hok
    refine ⟨_, added, ?_, .extended (UInt8.not_le.mp habove) hlength hcount hoperands⟩
    rw [Decoder.cursor_passed, Cursor.window_passed, h₂, List.drop_left]
    exact h₁.trans (congrArg (0 :: ·) h₂)
  · obtain ⟨_, hc, rfl⟩ := Decoder.ofRead_eq_ok hok
    obtain ⟨operands, rest, h₂, hoperands, rfl⟩ :=
      (readStandard_accepts (by exact hsound) opcode _ _).mp hc
    refine ⟨opcode :: operands, [], ?_, .standard (UInt8.not_le.mp habove) hzero hoperands⟩
    change _ = opcode :: operands ++ (Cursor.passed _ _).window
    rw [Cursor.window_passed, h₂, List.drop_left]
    exact h₁.trans (congrArg (opcode :: ·) h₂)

end Sound
end Instruction
end DebugLine
