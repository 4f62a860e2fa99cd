import DebugLine.Machine
import DebugLine.Proofs.Checked.Header

/-!
# Checked instructions

An instruction knows where it starts because its opcode lies behind, an extended opcode has used
what lies between two places of the cursor, and what is left of its length is skipped only where
that is not negative. Executing divides by two parameters of the header, which refuses to be read
where one of them is zero.
-/

namespace DebugLine

namespace Checked

def readKnown : StandardOpcode → Checked Cursor Instruction
  | .copy => return .copy
  | .advancePc => return .advancePc (← uleb128)
  | .advanceLine => return .advanceLine (← sleb128)
  | .setFile => return .setFile (← uleb128)
  | .setColumn => return .setColumn (← uleb128)
  | .negateStmt => return .negateStatement
  | .setBasicBlock => return .setBasicBlock
  | .constAddPc => return .constAddPc
  | .fixedAdvancePc => return .fixedAddPc (← uint16)
  | .setPrologueEnd => return .setPrologueEnd
  | .setEpilogueBegin => return .setEpilogueBegin
  | .setIsa => return .setIsa (← uleb128)

def skipOperands (count : Nat) : Checked Cursor Unit := do
  let _ ← times uleb128 count

/-- An opcode without a known meaning is reported at the place where it stands. -/
def readStandard (h : Header) (opcode : UInt8) : Checked Cursor Instruction :=
  match StandardOpcode.ofCode? opcode with
  | some known => readKnown known
  | none => do
    let arguments := (h.standardOpcodeLength? opcode).getD 0
    let _ ← Word.sub (← get).offset 1
    skipOperands arguments.toNat
    return .unknownStandard opcode arguments

/-- A file that has been appended is reported as the last visible one. -/
def readOperands (h : Header) (offset : Nat) (length : UInt64) (opcode : UInt8) :
    Checked Decoder Instruction :=
  match ExtendedOpcode.ofCode? opcode with
  | some .endSequence => return .endSequence
  | some .setAddress => return .setAddress (← ofRead address)
  | some .defineFile => do
    if ← readEntry h.includeDirectories then
      let files := (← get).files
      let _ ← files.get? (UInt64.ofNat files.length)
      return .defineFile (UInt64.ofNat files.length)
    else
      ofRead (fail (.malformedDefineFile offset))
  | some .setDiscriminator => return .setDiscriminator (← ofRead uleb128)
  | none => return .unknownExtended opcode length

def readExtended (h : Header) : Checked Decoder Instruction := do
  let offset ← Word.sub (← get).cursor.offset 1
  let length ← ofRead uleb128
  let start := (← get).cursor.offset
  let opcode ← ofRead uint8
  let instruction ← readOperands h offset length opcode
  let consumed ← Word.sub (← get).cursor.offset start
  ofRead (require (consumed ≤ length.toNat)
    (.extendedOpcodeOverrun offset opcode length.toNat consumed))
  let left ← Word.sub length.toNat consumed
  ofRead (skip left)
  return instruction

def decode (h : Header) : Checked Decoder Instruction := do
  let opcode ← ofRead uint8
  if h.opcodeBase ≤ opcode then
    return .special opcode
  else if opcode = 0 then
    readExtended h
  else
    ofRead (readStandard h opcode)

def constAddPcAdvance (p : LineParameters) : Option UInt64 := do
  let adjusted ← Word.sub 255 p.opcodeBase.toNat
  Word.div (UInt64.ofNat adjusted) p.lineRange.toUInt64

def advance (p : LineParameters) (operations : UInt64) (r : Row) : Option Row := do
  let index := r.opIndex + operations
  let perInstruction := p.maximumOperations.toUInt64
  let instructions ← Word.div index perInstruction
  let opIndex ← Word.mod index perInstruction
  return { r with
           address := r.address + p.minimumInstructionLength.toUInt64 * instructions
           opIndex }

def special (p : LineParameters) (opcode : UInt8) (r : Row) : Option Row := do
  let adjusted := UInt64.ofNat (Row.adjusted p opcode)
  let operations ← Word.div adjusted p.lineRange.toUInt64
  let moved ← advance p operations r
  let lines ← Word.mod adjusted p.lineRange.toUInt64
  let delta ← Word.addSigned p.lineBase.toInt64 lines.toInt64
  return moved.advanceLine delta

/-- The registers after an instruction, and the row that it emits. Sums of registers wrap around,
so only special opcodes and moves of the address need a check. -/
def execute (p : LineParameters) (instruction : Instruction) (r : Row) :
    Option (Row × Option Row) :=
  match instruction with
  | .special opcode => do
    let row ← special p opcode r
    return (row.afterEmit, some row)
  | .advancePc operations => do return (← advance p operations r, none)
  | .constAddPc => do return (← advance p (← constAddPcAdvance p) r, none)
  | _ => some (r.execute p instruction)

theorem mirrors_readKnown (opcode : StandardOpcode) :
    Mirrors (readKnown opcode) (Instruction.readKnown opcode) := by
  cases opcode with
  | advanceLine => exact mirrors_sleb128.bind fun _ => .pure _
  | fixedAdvancePc => exact mirrors_uint16.bind fun _ => .pure _
  | advancePc | setFile | setColumn | setIsa => exact mirrors_uleb128.bind fun _ => .pure _
  | copy | negateStmt | setBasicBlock | constAddPc | setPrologueEnd | setEpilogueBegin =>
    exact .pure _

theorem agrees_readStandard {c : Cursor} (hc : c.InBounds) (hoffset : 1 ≤ c.offset) (h : Header)
    (opcode : UInt8) :
    Agrees (fun c => c) (readStandard h opcode) (Instruction.readStandard h opcode) c := by
  unfold readStandard Instruction.readStandard
  cases StandardOpcode.ofCode? opcode with
  | some known => exact (mirrors_readKnown known).agrees c hc
  | none =>
    apply Agrees.get_bind_left
    apply Agrees.done_bind (Word.sub_of_le hoffset)
    have hskip (count : Nat) : Mirrors (skipOperands count) (Instruction.skipOperands count) :=
      (mirrors_times mirrors_uleb128 count).bind fun _ => .pure ()
    exact ((hskip _).bind fun _ => .pure _).agrees c hc

section Decoding

variable {d : DebugLine.Decoder}

theorem agrees_readOperands (hc : d.cursor.InBounds) (hroom : d.files.count + 1 < 2 ^ 64)
    (h : Header) (offset : Nat) (length : UInt64) (opcode : UInt8) :
    Agrees Decoder.ofDecoder (readOperands h offset length opcode)
      (Instruction.readOperands h offset length opcode) d := by
  unfold readOperands Instruction.readOperands
  cases ExtendedOpcode.ofCode? opcode with
  | none => exact .pure _
  | some known =>
    cases known with
    | endSequence => exact .pure _
    | setAddress => exact agrees_ofRead_bind mirrors_address hc fun _ _ _ _ => .pure _
    | setDiscriminator => exact agrees_ofRead_bind mirrors_uleb128 hc fun _ _ _ _ => .pure _
    | defineFile =>
      apply (agrees_readEntry hc hroom h.includeDirectories).bind
      intro more t hok
      split_ifs
      · apply Agrees.get_bind
        apply Agrees.done_bind (Table.get?_ofTable t.files _)
        exact .pure _
      · have hmove := (DebugLine.Decoder.readEntry_disciplined h.includeDirectories).moves d
        rw [hok] at hmove
        exact agrees_ofRead ((mirrors_fail _).agrees _ (hc.onward hmove.cursor))

theorem agrees_readExtended (hc : d.cursor.InBounds) (hroom : d.files.count + 1 < 2 ^ 64)
    (h : Header) {offset : Nat} (hoffset : d.cursor.offset = offset + 1) :
    Agrees Decoder.ofDecoder (readExtended h) (Instruction.readExtended h offset) d := by
  have hstart : Word.sub d.cursor.offset 1 = some offset := by
    rw [Word.sub_of_le (by omega), hoffset, Nat.add_sub_cancel]
  apply Agrees.get_bind_left
  apply Agrees.done_bind hstart
  apply agrees_ofRead_bind mirrors_uleb128 hc
  intro length c₁ _ hc₁
  apply Agrees.get_bind_left
  change Agrees _ _ (Decode.ofRead Cursor.uint8 >>= _) _
  apply agrees_ofRead_bind mirrors_uint8 hc₁
  intro opcode c₂ hopcode hc₂
  apply (agrees_readOperands (by exact hc₂) (by exact hroom) h offset length opcode).bind
  intro instruction t hok
  have hmove := (Instruction.readOperands_disciplined h offset length opcode).moves
    { d with cursor := c₂ }
  rw [hok] at hmove
  have ht : t.cursor.InBounds := hc₂.onward hmove.cursor
  have hle : c₁.offset ≤ t.cursor.offset := by
    obtain ⟨-, rfl⟩ := Cursor.uint8_eq_ok hopcode
    exact (Nat.le_succ _).trans hmove.cursor.offset_le
  apply Agrees.get_bind_left
  apply Agrees.done_bind (Word.sub_of_le (by exact hle))
  change Agrees _ _ (Decode.ofRead (Cursor.require _ _) >>= _) _
  apply agrees_ofRead_bind (mirrors_require _ _) ht
  intro _ c₃ hrequire hc₃
  have hfits : t.cursor.offset - c₁.offset ≤ length.toNat := by
    obtain ⟨_, _, -, ⟨-, hfits⟩, -⟩ := (Cursor.require_accepts _ _ _ _).mp hrequire
    exact hfits
  apply Agrees.done_bind (Word.sub_of_le (by exact hfits))
  exact agrees_ofRead_bind (mirrors_skip _) hc₃ fun _ _ _ _ => .pure instruction

theorem agrees_decode (hc : d.cursor.InBounds) (hroom : d.files.count + 1 < 2 ^ 64) (h : Header) :
    Agrees Decoder.ofDecoder (decode h) (Instruction.decode h) d := by
  change Agrees _ _ (Decode.ofRead Cursor.uint8 >>= _) _
  apply agrees_ofRead_bind mirrors_uint8 hc
  intro opcode c' hok hc'
  obtain ⟨-, rfl⟩ := Cursor.uint8_eq_ok hok
  split_ifs
  · exact .pure _
  · exact agrees_readExtended (by exact hc') (by exact hroom) h rfl
  · exact agrees_ofRead (agrees_readStandard hc' (Nat.le_add_left _ _) h opcode)

end Decoding

theorem toUInt64_ne_zero {b : UInt8} (h : b ≠ 0) : b.toUInt64 ≠ 0 := by
  intro hzero
  apply h
  have hvalue := congrArg UInt64.toNat hzero
  rw [UInt8.toNat_toUInt64] at hvalue
  exact UInt8.toNat_inj.mp hvalue

section Executing

variable {p : LineParameters} (hmaximum : p.maximumOperations ≠ 0) (hrange : p.lineRange ≠ 0)

include hmaximum in
theorem advance_eq (operations : UInt64) (r : Row) :
    advance p operations r = some (r.advance p operations) := by
  have hne := toUInt64_ne_zero hmaximum
  unfold advance
  dsimp only
  rw [Word.div_of_ne hne, Word.mod_of_ne hne]
  rfl

include hrange in
theorem constAddPcAdvance_eq : constAddPcAdvance p = some p.constAddPcAdvance := by
  have hle : p.opcodeBase.toNat ≤ 255 := Nat.le_of_lt_succ p.opcodeBase.toNat_lt
  have hadjusted : UInt64.ofNat (255 - p.opcodeBase.toNat) = (255 - p.opcodeBase).toUInt64 := by
    rw [← UInt64.toNat_inj, UInt8.toNat_toUInt64, UInt8.toNat_sub_of_le _ _ hle,
      UInt64.toNat_ofNat']
    exact Nat.mod_eq_of_lt (by omega)
  unfold constAddPcAdvance
  rw [Word.sub_of_le hle]
  change Word.div (UInt64.ofNat (255 - p.opcodeBase.toNat)) _ = _
  rw [hadjusted, Word.div_of_ne (toUInt64_ne_zero hrange)]
  rfl

/-- The line delta of a special opcode is far from the ends of a signed word. -/
theorem addSigned_eq (lineBase : Int8) {lines : Nat} (h : lines < 256) :
    Word.addSigned lineBase.toInt64 (UInt64.ofNat lines).toInt64 =
      some (Int64.ofInt (lineBase.toInt + lines)) := by
  have hlines : (UInt64.ofNat lines).toInt64 = Int64.ofInt lines := toInt64_ofNat rfl
  have hlow := lineBase.le_toInt
  have hhigh := lineBase.toInt_lt
  rw [hlines, Word.addSigned, Int8.toInt_toInt64, Int64.toInt_ofInt_of_le (by omega) (by omega),
    if_pos ⟨by omega, by omega⟩, Int64.ofInt_add, Int64.ofInt_int8ToInt]

include hmaximum hrange in
theorem special_eq (opcode : UInt8) (r : Row) : special p opcode r = some (r.special p opcode) := by
  have hne := toUInt64_ne_zero hrange
  have hlt : Row.adjusted p opcode < 256 := (Nat.sub_le _ _).trans_lt opcode.toNat_lt
  have hdiv : UInt64.ofNat (Row.adjusted p opcode) / p.lineRange.toUInt64 =
      Row.specialAdvance p opcode := by
    have hle := Nat.div_le_self (Row.adjusted p opcode) p.lineRange.toNat
    rw [Row.specialAdvance, ← UInt64.toNat_inj, UInt64.toNat_div, UInt8.toNat_toUInt64,
      UInt64.toNat_ofNat_of_lt' (hlt.trans (by decide)),
      UInt64.toNat_ofNat_of_lt' (hle.trans_lt (hlt.trans (by decide)))]
  have hlines : Row.adjusted p opcode % p.lineRange.toNat < 256 :=
    (Nat.mod_le _ _).trans_lt hlt
  have hmod : UInt64.ofNat (Row.adjusted p opcode) % p.lineRange.toUInt64 =
      UInt64.ofNat (Row.adjusted p opcode % p.lineRange.toNat) := by
    rw [← UInt64.toNat_inj, UInt64.toNat_mod, UInt8.toNat_toUInt64,
      UInt64.toNat_ofNat_of_lt' (hlt.trans (by decide)),
      UInt64.toNat_ofNat_of_lt' (hlines.trans (by decide))]
  unfold special
  dsimp only
  rw [Word.div_of_ne hne, hdiv]
  change (do
    let moved ← advance p (Row.specialAdvance p opcode) r
    let lines ← Word.mod (UInt64.ofNat (Row.adjusted p opcode)) p.lineRange.toUInt64
    let delta ← Word.addSigned p.lineBase.toInt64 lines.toInt64
    return moved.advanceLine delta : Option Row) = _
  rw [advance_eq hmaximum, Word.mod_of_ne hne, hmod]
  change (do
    let delta ← Word.addSigned p.lineBase.toInt64
      (UInt64.ofNat (Row.adjusted p opcode % p.lineRange.toNat)).toInt64
    return (r.advance p (Row.specialAdvance p opcode)).advanceLine delta : Option Row) = _
  rw [addSigned_eq p.lineBase hlines]
  rfl

include hmaximum hrange in
theorem execute_eq (instruction : Instruction) (r : Row) :
    execute p instruction r = some (r.execute p instruction) := by
  cases instruction with
  | special opcode =>
    change (do
      let row ← special p opcode r
      return (row.afterEmit, some row) : Option (Row × Option Row)) = _
    rw [special_eq hmaximum hrange]
    rfl
  | advancePc operations =>
    change (do return (← advance p operations r, none) : Option (Row × Option Row)) = _
    rw [advance_eq hmaximum]
    rfl
  | constAddPc =>
    change (do
      let operations ← constAddPcAdvance p
      return (← advance p operations r, none) : Option (Row × Option Row)) = _
    rw [constAddPcAdvance_eq hrange]
    change (do return (← advance p p.constAddPcAdvance r, none) : Option (Row × Option Row)) = _
    rw [advance_eq hmaximum]
    rfl
  | _ => rfl

end Executing

end Checked
end DebugLine
