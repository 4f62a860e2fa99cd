import DebugLine.Proofs.Checked.Entries
import DebugLine.Proofs.HeaderLayout

/-!
# Checked headers

The argument counts of a header are numbered by a byte that is counted on before each of them is
compared, and once more behind the last. With 254 of them there is no such number, so a header that
declares the opcode base 255 cannot be checked. Everything else in a header can be read.
-/

namespace DebugLine

namespace Header

/-- The opcode base of a header, from behind the initial length on. -/
def readBaseInside (offset : Nat) (format : Format) (endOffset : Nat) : Read UInt8 := do
  let version ← readVersion offset
  let _ ← readProgramStart offset endOffset format
  return (← readParameters offset version).opcodeBase

/-- The opcode base of the header at the cursor. -/
def readBase : Read UInt8 := do
  let offset ← Cursor.position
  let (format, unitLength) ← readInitialLength offset
  let endOffset ← enterUnit offset unitLength
  readBaseInside offset format endOffset

end Header

namespace Checked

def position : Checked Cursor Nat := do return (← get).offset

/-- Fails with `e` unless `p` holds. -/
def require (p : Prop) [Decidable p] (e : LineError) : Checked Cursor Unit :=
  if p then return () else fail e

def readLength (format : Format) : Checked Cursor Nat := number format.offsetSize

def readInitialLength (offset : Nat) : Checked Cursor (Format × Nat) := do
  let value ← uint32
  if value = dwarf64Marker then
    return (.dwarf64, ← readLength .dwarf64)
  else
    require (value < firstReservedLength) (.reservedUnitLength offset value)
    return (.dwarf32, value.toNat)

/-- The sums that saturate have a result whatever they are of. -/
def enterUnit (offset unitLength : Nat) : Checked Cursor Nat := do
  let c ← get
  let unitEnd := Header.endOf c.offset unitLength
  require (unitEnd ≤ c.bytes.size) (.unitExceedsSection offset unitEnd c.bytes.size)
  set (c.limitTo unitEnd)
  return unitEnd

def readVersion (offset : Nat) : Checked Cursor UInt16 := do
  let version ← uint16
  require (2 ≤ version ∧ version ≤ 4) (.unsupportedVersion offset version)
  return version

def readProgramStart (offset unitEnd : Nat) (format : Format) : Checked Cursor (Nat × Nat) := do
  let headerLength ← readLength format
  let programOffset := Header.endOf (← position) headerLength
  require (programOffset ≤ unitEnd) (.headerExceedsUnit offset programOffset unitEnd)
  return (headerLength, programOffset)

def readMaximumOperations (version : UInt16) : Checked Cursor UInt8 :=
  if 4 ≤ version then uint8 else return 1

def readParameters (offset : Nat) (version : UInt16) : Checked Cursor LineParameters := do
  let minimumInstructionLength ← uint8
  let maximumOperations ← readMaximumOperations version
  let defaultIsStmt := (← uint8) != 0
  let lineBase := (← uint8).toInt8
  let lineRange ← uint8
  require (maximumOperations ≠ 0) (.invalidOperationCount offset)
  require (lineRange ≠ 0) (.invalidLineRange offset)
  let opcodeBase ← uint8
  require (opcodeBase ≠ 0) (.invalidOpcodeBase offset)
  return { minimumInstructionLength, maximumOperations, defaultIsStmt, lineBase, lineRange,
           opcodeBase }

/-- Compares the counts with the known ones, the first with that of `opcode`. The number of the
next opcode is there before a count is looked at. -/
def checkLengths (offset : Nat) : (opcode : Nat) → List UInt8 → Checked Cursor Unit
  | opcode, [] => do
    let _ ← Word.add 8 opcode 1
  | opcode, declared :: lengths => do
    let next ← Word.add 8 opcode 1
    match (knownArgumentCount (UInt8.ofNat opcode)).filter (· != declared) with
    | some expected => fail (.opcodeLengthMismatch offset (UInt8.ofNat opcode) expected declared)
    | none => checkLengths offset next lengths

def readOpcodeLengths (offset : Nat) (check : Bool) (opcodeBase : UInt8) :
    Checked Cursor (List UInt8) := do
  let count ← Word.sub opcodeBase.toNat 1
  let lengths ← times uint8 count
  if check then
    checkLengths offset 1 lengths
  return lengths

def directoryPath (compDir name : String) : Option String := do
  if ← isAbsolute name then return name else return SourcePath.join compDir name

/-- The include directories up to an empty name. Having to read more than `most` names has no
result. -/
def readDirectoriesWithin (compDir : String) : (most : Nat) → Checked Cursor (List String)
  | 0 => liftM (none : Option (List String))
  | most + 1 => do
    let name ← text
    if name.isEmpty then
      return []
    else
      let path ← directoryPath compDir name
      let rest ← readDirectoriesWithin compDir most
      return path :: rest

def readDirectories (compDir : String) : Checked Cursor (List String) := do
  readDirectoriesWithin compDir ((← get).remaining + 1)

def readInside (compDir : String) (check : Bool) (offset : Nat) (format : Format)
    (unitLength endOffset : Nat) : Checked Decoder Header := do
  let version ← ofRead (readVersion offset)
  let (headerLength, programOffset) ← ofRead (readProgramStart offset endOffset format)
  let parameters ← ofRead (readParameters offset version)
  let standardOpcodeLengths ← ofRead (readOpcodeLengths offset check parameters.opcodeBase)
  let includeDirectories := (compDir :: (← ofRead (readDirectories compDir))).toArray
  readEntries includeDirectories
  return { parameters with
           offset, format, version, unitLength, headerLength, standardOpcodeLengths,
           includeDirectories, programOffset, endOffset,
           initialFileCount := (← get).files.length }

def readHeader (compDir : String) (check : Bool) : Checked Decoder Header := do
  let offset ← ofRead position
  let (format, unitLength) ← ofRead (readInitialLength offset)
  let endOffset ← ofRead (enterUnit offset unitLength)
  readInside compDir check offset format unitLength endOffset

theorem mirrors_position : Mirrors position Cursor.position :=
  ⟨Cursor.position_disciplined, fun _ _ => rfl⟩

theorem mirrors_require (p : Prop) [Decidable p] (e : LineError) :
    Mirrors (require p e) (Cursor.require p e) := by
  unfold require Cursor.require
  split_ifs
  · exact .pure ()
  · exact mirrors_fail e

theorem mirrors_readInitialLength (offset : Nat) :
    Mirrors (readInitialLength offset) (Header.readInitialLength offset) := by
  apply mirrors_uint32.bind
  intro value
  split_ifs
  · exact (mirrors_number _).bind fun _ => .pure _
  · exact (mirrors_require _ _).bind fun _ => .pure _

theorem mirrors_readVersion (offset : Nat) :
    Mirrors (readVersion offset) (Header.readVersion offset) :=
  mirrors_uint16.bind fun version => (mirrors_require _ _).bind fun _ => .pure version

theorem mirrors_readProgramStart (offset unitEnd : Nat) (format : Format) :
    Mirrors (readProgramStart offset unitEnd format)
      (Header.readProgramStart offset unitEnd format) :=
  (mirrors_number _).bind fun _ => mirrors_position.bind fun _ =>
    (mirrors_require _ _).bind fun _ => .pure _

theorem mirrors_readParameters (offset : Nat) (version : UInt16) :
    Mirrors (readParameters offset version) (Header.readParameters offset version) := by
  apply mirrors_uint8.bind
  intro minimumInstructionLength
  apply Mirrors.bind
  · unfold readMaximumOperations Header.readMaximumOperations
    split_ifs
    · exact mirrors_uint8
    · exact .pure 1
  · intro maximumOperations
    exact mirrors_uint8.bind fun _ => mirrors_uint8.bind fun _ => mirrors_uint8.bind fun _ =>
      (mirrors_require _ _).bind fun _ => (mirrors_require _ _).bind fun _ =>
        mirrors_uint8.bind fun _ => (mirrors_require _ _).bind fun _ => .pure _

/-- Up to 254 opcodes can be numbered, and one more number is needed than there are counts. -/
theorem mirrors_checkLengths (offset : Nat) {opcode : Nat} {lengths : List UInt8}
    (h : opcode + lengths.length + 1 < 256) :
    Mirrors (checkLengths offset opcode lengths)
      (match Header.mismatch? (UInt8.ofNat opcode) lengths with
        | some (opcode, expected, declared) =>
          Cursor.fail (.opcodeLengthMismatch offset opcode expected declared)
        | none => return ()) := by
  induction lengths generalizing opcode with
  | nil =>
    refine ⟨.pure (), fun c _ => ?_⟩
    exact Agrees.done_bind (Word.add_of_lt (by simpa using h)) (.pure ())
  | cons declared lengths ih =>
    have hnext : Word.add 8 opcode 1 = some (opcode + 1) :=
      Word.add_of_lt (by rw [List.length_cons] at h; omega)
    unfold checkLengths Header.mismatch?
    rw [hnext]
    change Mirrors (match (knownArgumentCount (UInt8.ofNat opcode)).filter (· != declared) with
      | some expected => fail (.opcodeLengthMismatch offset (UInt8.ofNat opcode) expected declared)
      | none => checkLengths offset (opcode + 1) lengths) _
    cases (knownArgumentCount (UInt8.ofNat opcode)).filter (· != declared) with
    | some expected => exact mirrors_fail _
    | none =>
      dsimp only
      have hopcode : UInt8.ofNat opcode + 1 = UInt8.ofNat (opcode + 1) := by
        rw [UInt8.ofNat_add]
        rfl
      rw [hopcode]
      exact ih (by rw [List.length_cons] at h; omega)

theorem mirrors_readOpcodeLengths (offset : Nat) {check : Bool} {opcodeBase : UInt8}
    (hpositive : opcodeBase ≠ 0) (hcheck : check = true → opcodeBase ≠ 255) :
    Mirrors (readOpcodeLengths offset check opcodeBase)
      (Header.readOpcodeLengths offset check opcodeBase) where
  disciplined := Header.readOpcodeLengths_disciplined offset check opcodeBase
  agrees c hc := by
    have hbase : 1 ≤ opcodeBase.toNat := Nat.one_le_iff_ne_zero.mpr fun h =>
      hpositive (UInt8.toNat_inj.mp h)
    apply Agrees.done_bind (Word.sub_of_le hbase)
    apply ((mirrors_times mirrors_uint8 _).agrees c hc).bind
    intro lengths c' hok
    have hc' := (mirrors_times mirrors_uint8 _).inBounds hc hok
    split_ifs with hchecked
    · have hcount : 1 + lengths.length + 1 < 256 := by
        have hne : opcodeBase.toNat ≠ 255 := fun h =>
          hcheck hchecked (UInt8.toNat_inj.mp h)
        have hlt := opcodeBase.toNat_lt
        rw [Header.length_of_times hok]
        omega
      exact ((mirrors_checkLengths offset hcount).bind fun _ => .pure lengths).agrees c' hc'
    · exact .pure lengths

theorem directoryPath_eq (compDir name : String) :
    directoryPath compDir name = some (Header.directoryPath compDir name) := by
  unfold directoryPath Header.directoryPath
  rw [isAbsolute_eq]
  cases SourcePath.isAbsolute name <;> rfl

/-- Each name takes a byte, so the bound is not reached. -/
theorem agrees_readDirectoriesWithin {c : Cursor} (hc : c.InBounds) {most : Nat}
    (hmost : c.remaining < most) (compDir : String) :
    Agrees (fun c => c) (readDirectoriesWithin compDir most)
      (Header.readDirectoriesWithin compDir most) c := by
  induction most generalizing c with
  | zero => exact absurd hmost (Nat.not_lt_zero _)
  | succ most ih =>
    apply (mirrors_text.agrees c hc).bind
    intro name c' hok
    have hc' := mirrors_text.inBounds hc hok
    split_ifs
    · exact .pure []
    · apply Agrees.done_bind (directoryPath_eq compDir name)
      have hless : c'.remaining < most := by
        have hlt := Cursor.text_progress hok
        have hmove := Cursor.text_disciplined.moves c
        rw [hok] at hmove
        have hlimit : c'.limit = c.limit := hmove.limit_eq
        have hle := hc'.offset_le
        rw [Cursor.remaining] at hmost ⊢
        omega
      exact (ih hc' hless).bind fun rest c'' _ => .pure (Header.directoryPath compDir name :: rest)

theorem mirrors_readDirectories (compDir : String) :
    Mirrors (readDirectories compDir) (Header.readDirectories compDir) where
  disciplined := Header.readDirectories_disciplined compDir
  agrees c hc := by
    apply Agrees.get_bind
    exact agrees_readDirectoriesWithin hc (Nat.lt_succ_self _) compDir

section Reading

variable {d : DebugLine.Decoder}

theorem agrees_enterUnit {c : Cursor} (hc : c.InBounds) (offset unitLength : Nat) :
    Agrees (fun c => c) (enterUnit offset unitLength) (Header.enterUnit offset unitLength) c := by
  apply Agrees.get_bind
  apply ((mirrors_require _ _).agrees c hc).bind
  intro _ c' _
  rfl

theorem agrees_readInside (hc : d.cursor.InBounds) (hfiles : d.files.count = 0) {compDir : String}
    {check : Bool} {offset unitLength endOffset : Nat} {format : Format}
    (hbase : check = true → ∀ base c, Header.readBaseInside offset format endOffset d.cursor =
      .ok base c → base ≠ 255) :
    Agrees Decoder.ofDecoder (readInside compDir check offset format unitLength endOffset)
      (Header.readInside compDir check offset format unitLength endOffset) d := by
  apply agrees_ofRead_bind (mirrors_readVersion offset) hc
  intro version c₁ hversion hc₁
  apply agrees_ofRead_bind (mirrors_readProgramStart offset endOffset format) hc₁
  rintro ⟨headerLength, programOffset⟩ c₂ hstart hc₂
  apply agrees_ofRead_bind (mirrors_readParameters offset version) hc₂
  intro parameters c₃ hparameters hc₃
  have hchecked : check = true → parameters.opcodeBase ≠ 255 := by
    intro hcheck
    refine hbase hcheck _ c₃ ?_
    unfold Header.readBaseInside
    rw [bind_of_ok hversion, bind_of_ok hstart, bind_of_ok hparameters]
    rfl
  have hbaseNe := (Header.readParameters_valid hparameters).opcodeBase_ne
  apply agrees_ofRead_bind (mirrors_readOpcodeLengths offset hbaseNe hchecked) hc₃
  intro lengths c₄ _ hc₄
  apply agrees_ofRead_bind (mirrors_readDirectories compDir) hc₄
  intro directories c₅ _ hc₅
  have hcount : d.files.count ≤ c₅.offset := hfiles ▸ Nat.zero_le _
  apply (agrees_readEntries hc₅ hcount _).bind
  intro _ t _
  exact Agrees.get_bind (.pure _)

theorem inBounds_enterUnit {c c' : Cursor} (hc : c.InBounds) {offset unitLength unitEnd : Nat}
    (h : Header.enterUnit offset unitLength c = .ok unitEnd c') : c'.InBounds := by
  obtain ⟨rfl, hle, rfl⟩ := Header.enterUnit_eq_ok h
  have hoffset := hc.offset_le
  have hlimit := hc.limit_le
  have hsize := hc.size_lt
  refine ⟨?_, ?_, hsize⟩
  · simp only [Cursor.limitTo, Header.endOf, UInt64.size] at hle ⊢
    omega
  · exact min_le_right _ _

/-- A header can be read wherever it lies, unless it is to be checked and declares the opcode base
255. -/
theorem agrees_readHeader (hc : d.cursor.InBounds) (hfiles : d.files.count = 0) {compDir : String}
    {check : Bool}
    (hbase : check = true → ∀ base c, Header.readBase d.cursor = .ok base c → base ≠ 255) :
    Agrees Decoder.ofDecoder (readHeader compDir check) (Header.read compDir check) d := by
  apply agrees_ofRead_bind mirrors_position hc
  intro offset c₁ hposition hc₁
  apply agrees_ofRead_bind (mirrors_readInitialLength offset) hc₁
  rintro ⟨format, unitLength⟩ c₂ hlength hc₂
  have hunit : Agrees Decoder.ofDecoder (ofRead (enterUnit offset unitLength))
      (Decode.ofRead (Header.enterUnit offset unitLength)) { d with cursor := c₂ } :=
    agrees_ofRead (agrees_enterUnit hc₂ offset unitLength)
  apply hunit.bind
  intro endOffset t hok
  obtain ⟨c₃, henter, rfl⟩ := DebugLine.Decoder.ofRead_eq_ok hok
  refine agrees_readInside (by exact inBounds_enterUnit hc₂ henter) (by exact hfiles) ?_
  intro hcheck base c hread
  refine hbase hcheck base c ?_
  unfold Header.readBase
  rw [bind_of_ok hposition, bind_of_ok hlength]
  exact (bind_of_ok henter).trans hread

end Reading

end Checked
end DebugLine
