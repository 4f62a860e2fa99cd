import DebugLine.Proofs.EntryLayout

/-!
# The fields of headers

Each field of a header has a form of its own, up to the list of directories. A read of the field
accepts exactly the bytes of this form whose value is a valid one.
-/

namespace DebugLine

/-- The names of a list, each with a zero byte, and the empty name that ends it. -/
def nameListBytes (names : List (List UInt8)) : List UInt8 := names.flatMap (· ++ [0]) ++ [0]

namespace Format

/-- The first length that a unit cannot have. -/
def lengthBound : Format → Nat
  | dwarf32 => firstReservedLength.toNat
  | dwarf64 => UInt64.size

/-- The initial length of a unit of `length` further bytes. -/
def initialBytes (order : ByteOrder) (length : Nat) : Format → List UInt8
  | dwarf32 => order.bytes 4 length
  | dwarf64 => order.bytes 4 dwarf64Marker.toNat ++ order.bytes 8 length

@[simp] theorem length_initialBytes (order : ByteOrder) (length : Nat) (format : Format) :
    (format.initialBytes order length).length = format.initialSize := by
  cases format <;> simp [initialBytes, initialSize]

end Format

namespace Header

open Cursor (Accepts)

variable {c : Cursor} (hsound : c.failure = none)
include hsound

/-- What is read behind the first four bytes, which hold `value`. -/
theorem readInitialLength_rest_accepts (offset : Nat) (value : UInt32) (k : Nat) :
    Accepts (fun bytes (a : Format × Nat) =>
      if value = dwarf64Marker then
        bytes = c.byteOrder.bytes 8 a.2 ∧ a.1 = .dwarf64 ∧ a.2 < UInt64.size
      else bytes = [] ∧ value < firstReservedLength ∧ a = (.dwarf32, value.toNat))
      (if value = dwarf64Marker then
          readLength .dwarf64 >>= fun length => pure (.dwarf64, length)
        else
          Cursor.require (value < firstReservedLength) (.reservedUnitLength offset value) >>=
            fun _ => pure (.dwarf32, value.toNat)) (c.passed k) := by
  split_ifs with hmarker
  · refine ((Cursor.number_accepts (by exact hsound) 8).map _).congr fun bytes a => ?_
    constructor
    · rintro ⟨rfl, hformat, hlt⟩
      exact ⟨a.2, ⟨rfl, hlt⟩, Prod.ext hformat rfl⟩
    · rintro ⟨length, ⟨rfl, hlt⟩, rfl⟩
      exact ⟨rfl, rfl, hlt⟩
  · have hordinary (p : Prop) [Decidable p] (e : LineError) :
        Accepts (fun bytes a => p ∧ bytes = [] ∧ a = (Format.dwarf32, value.toNat))
          (Cursor.require p e >>= fun _ => pure (.dwarf32, value.toNat)) (c.passed k) :=
      .require_bind fun _ => .pure _
    exact (hordinary _ _).congr fun bytes a => by tauto

omit hsound in
/-- A length of the 32-bit format is not a marker. -/
theorem ofNat_ordinary {length : Nat} (h : length < firstReservedLength.toNat) :
    (UInt32.ofNat length).toNat = length ∧ UInt32.ofNat length < firstReservedLength ∧
      UInt32.ofNat length ≠ dwarf64Marker := by
  have hvalue : (UInt32.ofNat length).toNat = length :=
    UInt32.toNat_ofNat_of_lt' (h.trans (by decide))
  have hordinary : UInt32.ofNat length < firstReservedLength := by
    rwa [UInt32.lt_iff_toNat_lt, hvalue]
  refine ⟨hvalue, hordinary, ?_⟩
  intro heq
  rw [heq] at hordinary
  exact absurd hordinary (by decide)

theorem readInitialLength_accepts (offset : Nat) :
    Accepts (fun bytes a => bytes = a.1.initialBytes c.byteOrder a.2 ∧ a.2 < a.1.lengthBound)
      (readInitialLength offset) c := by
  refine ((Cursor.uint32_accepts hsound).bind fun _ _ value _ _ =>
    readInitialLength_rest_accepts hsound offset value _).congr ?_
  rintro bytes ⟨format, length⟩
  cases format with
  | dwarf32 =>
    constructor
    · rintro ⟨rfl, hlt⟩
      obtain ⟨hvalue, hordinary, hmarker⟩ := ofNat_ordinary hlt
      refine ⟨c.byteOrder.bytes 4 length, UInt32.ofNat length, [], by simp [Format.initialBytes],
        by rw [hvalue], ?_⟩
      rw [if_neg hmarker, hvalue]
      exact ⟨rfl, hordinary, rfl⟩
    · rintro ⟨_, value, _, rfl, rfl, hrest⟩
      split_ifs at hrest with hmarker
      · cases hrest.2.1
      · obtain ⟨rfl, hordinary, heq⟩ := hrest
        cases heq
        simpa [Format.initialBytes, Format.lengthBound, ← UInt32.lt_iff_toNat_lt] using hordinary
  | dwarf64 =>
    constructor
    · rintro ⟨rfl, hlt⟩
      exact ⟨_, dwarf64Marker, _, rfl, rfl, by rw [if_pos rfl]; exact ⟨rfl, rfl, hlt⟩⟩
    · rintro ⟨_, value, _, rfl, rfl, hrest⟩
      split_ifs at hrest with hmarker
      · obtain ⟨rfl, -, hlt⟩ := hrest
        rw [hmarker]
        exact ⟨rfl, hlt⟩
      · cases hrest.2.2

theorem readVersion_accepts (offset : Nat) :
    Accepts (fun bytes version => bytes = c.byteOrder.bytes 2 version.toNat ∧
      2 ≤ version ∧ version ≤ 4) (readVersion offset) c := by
  have hrest (version : UInt16) (k : Nat) : Accepts
      (fun bytes a => (2 ≤ version ∧ version ≤ 4) ∧ bytes = [] ∧ a = version)
      (Cursor.require (2 ≤ version ∧ version ≤ 4) (.unsupportedVersion offset version) >>=
        fun _ => pure version) (c.passed k) :=
    .require_bind fun _ => .pure version
  refine ((Cursor.uint16_accepts hsound).bind fun _ _ version _ _ => hrest version _).congr
    fun bytes version => ?_
  constructor
  · rintro ⟨rfl, hversion⟩
    exact ⟨_, version, [], (List.append_nil _).symm, rfl, hversion, rfl, rfl⟩
  · rintro ⟨_, version, _, rfl, rfl, hversion, rfl, rfl⟩
    exact ⟨List.append_nil _, hversion⟩

theorem readProgramStart_accepts {unitEnd : Nat} (hend : unitEnd < UInt64.size - 1) (offset : Nat)
    (format : Format) :
    Accepts (fun bytes a => ∃ headerLength,
        bytes = c.byteOrder.bytes format.offsetSize headerLength ∧
        headerLength < Nat.pow 256 format.offsetSize ∧
        c.offset + format.offsetSize + headerLength ≤ unitEnd ∧
        a = (headerLength, c.offset + format.offsetSize + headerLength))
      (readProgramStart offset unitEnd format) c := by
  have hrest (headerLength k : Nat) : Accepts
      (fun bytes a => c.offset + k + headerLength ≤ unitEnd ∧ bytes = [] ∧
        a = (headerLength, c.offset + k + headerLength))
      (Cursor.position >>= fun position =>
        Cursor.require (endOf position headerLength ≤ unitEnd)
          (.headerExceedsUnit offset (endOf position headerLength) unitEnd) >>= fun _ =>
          pure (headerLength, endOf position headerLength)) (c.passed k) := by
    have hrequire (position : Nat) : Accepts
        (fun bytes a => endOf position headerLength ≤ unitEnd ∧ bytes = [] ∧
          a = (headerLength, endOf position headerLength))
        (Cursor.require (endOf position headerLength ≤ unitEnd)
          (.headerExceedsUnit offset (endOf position headerLength) unitEnd) >>= fun _ =>
          pure (headerLength, endOf position headerLength)) (c.passed k) :=
      .require_bind fun _ => .pure _
    -- A start that 64 bits cannot tell lies behind the end of any unit.
    have hstart : endOf (c.offset + k) headerLength ≤ unitEnd ↔
        c.offset + k + headerLength ≤ unitEnd := by
      unfold endOf
      omega
    refine .position_bind ((hrequire _).congr fun bytes a => ?_)
    rw [Cursor.offset_passed, hstart]
    refine and_congr_right fun hle => ?_
    rw [endOf, min_eq_left (by omega)]
  refine ((Cursor.number_accepts hsound format.offsetSize).bind fun _ _ headerLength _ _ =>
    hrest headerLength _).congr fun bytes a => ?_
  constructor
  · rintro ⟨headerLength, rfl, hlt, hle, rfl⟩
    refine ⟨_, headerLength, [], (List.append_nil _).symm, ⟨rfl, hlt⟩, ?_⟩
    simpa using hle
  · rintro ⟨_, headerLength, _, rfl, ⟨rfl, hlt⟩, hle, rfl, rfl⟩
    rw [ByteOrder.length_bytes] at hle ⊢
    exact ⟨headerLength, List.append_nil _, hlt, hle, rfl⟩

theorem readMaximumOperations_accepts (version : UInt16) :
    Accepts (fun bytes maximum => bytes = (if 4 ≤ version then [maximum] else []) ∧
      (¬ 4 ≤ version → maximum = 1)) (readMaximumOperations version) c := by
  unfold readMaximumOperations
  split_ifs with hversion
  · exact (Cursor.uint8_accepts hsound).congr (by simp [hversion])
  · exact (Accepts.pure (1 : UInt8)).congr (by simp [hversion])

/-- The bytes of the parameters. Any byte but zero stands for a row that is a statement. -/
def parameterBytes (version : UInt16) (p : LineParameters) (defaultIsStmt : UInt8) : List UInt8 :=
  p.minimumInstructionLength :: (if 4 ≤ version then [p.maximumOperations] else []) ++
    [defaultIsStmt, p.lineBase.toUInt8, p.lineRange, p.opcodeBase]

/-- No parameter is one that the machine cannot divide or count by, and none is written that the
version does not know. -/
structure ValidParameters (version : UInt16) (p : LineParameters) : Prop where
  maximumOperations_ne : p.maximumOperations ≠ 0
  maximumOperations_eq : ¬ 4 ≤ version → p.maximumOperations = 1
  lineRange_ne : p.lineRange ≠ 0
  opcodeBase_ne : p.opcodeBase ≠ 0

theorem reads_parameters {version : UInt16} {p : LineParameters} (hp : ValidParameters version p)
    {isStmt : UInt8} (hisStmt : p.defaultIsStmt = (isStmt != 0)) (offset : Nat) :
    Cursor.Reads (readParameters offset version) c (parameterBytes version p isStmt) p := by
  obtain ⟨minimum, maximum, _, lineBase, lineRange, opcodeBase⟩ := p
  subst hisStmt
  have huint8 {t : Cursor} (ht : t.failure = none) (b : UInt8) :
      Cursor.Reads Cursor.uint8 t [b] b := (Cursor.uint8_accepts ht).reads rfl
  have hmaximum {t : Cursor} (ht : t.failure = none) : Cursor.Reads (readMaximumOperations version)
      t (if 4 ≤ version then [maximum] else []) maximum :=
    (readMaximumOperations_accepts ht version).reads ⟨rfl, hp.maximumOperations_eq⟩
  change Cursor.Reads _ c ([minimum] ++ ((if 4 ≤ version then [maximum] else []) ++
    ([isStmt] ++ ([lineBase.toUInt8] ++ ([lineRange] ++ ([opcodeBase] ++ [])))))) _
  refine (huint8 hsound _).bind ((hmaximum (by exact hsound)).bind ?_)
  refine (huint8 (by exact hsound) _).bind ((huint8 (by exact hsound) _).bind ?_)
  refine (huint8 (by exact hsound) _).bind ?_
  refine .require_bind hp.maximumOperations_ne (.require_bind hp.lineRange_ne ?_)
  exact (huint8 (by exact hsound) _).bind (.require_bind hp.opcodeBase_ne (.pure _))

theorem readParameters_accepts (offset : Nat) (version : UInt16) :
    Accepts (fun bytes p => ∃ isStmt : UInt8, bytes = parameterBytes version p isStmt ∧
      p.defaultIsStmt = (isStmt != 0) ∧ ValidParameters version p)
      (readParameters offset version) c := by
  refine .of_reads ?_ fun p c' h => ?_
  · rintro _ p ⟨isStmt, rfl, hisStmt, hp⟩
    exact reads_parameters hsound hp hisStmt offset
  · obtain ⟨_, minimum, h₁, rfl, h⟩ := Cursor.of_bind (Cursor.uint8_accepts hsound) h
    obtain ⟨_, maximum, h₂, ⟨rfl, hold⟩, h⟩ :=
      Cursor.of_bind (readMaximumOperations_accepts (by exact hsound) version) h
    obtain ⟨_, isStmt, h₃, rfl, h⟩ := Cursor.of_bind (Cursor.uint8_accepts (by exact hsound)) h
    obtain ⟨_, lineBase, h₄, rfl, h⟩ := Cursor.of_bind (Cursor.uint8_accepts (by exact hsound)) h
    obtain ⟨_, lineRange, h₅, rfl, h⟩ := Cursor.of_bind (Cursor.uint8_accepts (by exact hsound)) h
    obtain ⟨hmaximum, h⟩ := Cursor.of_require_bind h
    obtain ⟨hlineRange, h⟩ := Cursor.of_require_bind h
    obtain ⟨_, opcodeBase, h₆, rfl, h⟩ := Cursor.of_bind (Cursor.uint8_accepts (by exact hsound)) h
    obtain ⟨hopcodeBase, h⟩ := Cursor.of_require_bind h
    cases h
    refine ⟨_, ?_, isStmt, rfl, rfl, hmaximum, hold, hlineRange, hopcodeBase⟩
    rw [h₁, h₂, h₃, h₄, h₅, h₆]
    simp [parameterBytes]

omit hsound in
/-- Declared argument counts agree with the known ones exactly where no first one differs. -/
theorem mismatch?_eq_none_iff {opcode : UInt8} {lengths : List UInt8} :
    mismatch? opcode lengths = none ↔ ∀ i declared, lengths[i]? = some declared →
      ∀ known, knownArgumentCount (opcode + UInt8.ofNat i) = some known → declared = known := by
  induction lengths generalizing opcode with
  | nil => simp [mismatch?]
  | cons declared lengths ih =>
    have hnext (i : Nat) : opcode + UInt8.ofNat (i + 1) = opcode + 1 + UInt8.ofNat i := by
      rw [UInt8.ofNat_add, UInt8.add_assoc, UInt8.add_comm (UInt8.ofNat i)]
      rfl
    have hfirst : (knownArgumentCount opcode).filter (· != declared) = none ↔
        ∀ known, knownArgumentCount opcode = some known → declared = known := by
      rw [Option.filter_eq_none_iff]
      simp only [bne_iff_ne, ne_eq, not_not, @eq_comm _ declared]
    have hsplit : mismatch? opcode (declared :: lengths) = none ↔
        (knownArgumentCount opcode).filter (· != declared) = none ∧
          mismatch? (opcode + 1) lengths = none := by
      rw [mismatch?]
      cases (knownArgumentCount opcode).filter (· != declared) <;> simp
    rw [hsplit, hfirst, ih]
    constructor
    · rintro ⟨hhead, htail⟩ i d hd known
      cases i with
      | zero =>
        obtain rfl : declared = d := by simpa using hd
        simpa using hhead known
      | succ i =>
        rw [hnext]
        exact htail i d hd known
    · intro h
      refine ⟨?_, fun i d hd => ?_⟩
      · simpa using h 0 declared rfl
      · rw [← hnext]
        exact h (i + 1) d hd

/-- The declared argument count of each opcode with a fixed meaning is the known one. -/
def AgreesWithKnown (lengths : List UInt8) : Prop :=
  ∀ i declared, lengths[i]? = some declared →
    ∀ known, knownArgumentCount (UInt8.ofNat (i + 1)) = some known → declared = known

omit hsound in
theorem agreesWithKnown_iff {lengths : List UInt8} :
    AgreesWithKnown lengths ↔ mismatch? 1 lengths = none := by
  simp only [mismatch?_eq_none_iff, AgreesWithKnown, UInt8.ofNat_add, UInt8.add_comm 1]
  rfl

theorem readOpcodeLengths_accepts (offset : Nat) (check : Bool) (opcodeBase : UInt8) :
    Accepts (fun bytes lengths => bytes = lengths ∧ lengths.length = opcodeBase.toNat - 1 ∧
      (check = true → AgreesWithKnown lengths))
      (readOpcodeLengths offset check opcodeBase) c := by
  have htimes : Accepts (fun bytes lengths => bytes = lengths ∧
      lengths.length = opcodeBase.toNat - 1)
      (Cursor.times Cursor.uint8 (opcodeBase.toNat - 1)) c := by
    refine (Cursor.times_accepts (fun k => Cursor.uint8_accepts (by exact hsound)) _).congr
      fun bytes lengths => ?_
    have hparts (parts : List (List UInt8)) :
        List.Forall₂ (fun part b => part = [b]) parts lengths ↔ parts = lengths.map ([·]) := by
      have hmap := @List.forall₂_map_right_iff _ _ _ (· = ·) (fun b : UInt8 => [b]) parts lengths
      rw [← hmap, List.forall₂_eq_eq_eq]
    simp [hparts, ← List.flatMap_def]
  have hcheck (lengths : List UInt8) (k : Nat) : Accepts (fun bytes later => bytes = [] ∧
      later = lengths ∧ (check = true → AgreesWithKnown lengths))
      (if check then checkLengths offset lengths >>= fun _ => pure lengths else pure lengths)
      (c.passed k) := by
    rw [agreesWithKnown_iff]
    cases check with
    | false => exact (Accepts.pure lengths).congr (by simp)
    | true =>
      rw [if_pos rfl, checkLengths]
      cases mismatch? 1 lengths with
      | none => exact (Accepts.pure lengths).congr (by simp)
      | some found =>
        rw [Cursor.fail_bind]
        exact (Cursor.fail_accepts _).congr (by simp)
  refine (htimes.bind fun _ _ lengths _ _ => hcheck lengths _).congr fun bytes lengths => ?_
  constructor
  · rintro ⟨rfl, hlength, hagrees⟩
    exact ⟨bytes, bytes, [], (List.append_nil _).symm, ⟨rfl, hlength⟩, rfl, rfl, hagrees⟩
  · rintro ⟨_, _, _, rfl, ⟨rfl, hlength⟩, rfl, rfl, hagrees⟩
    exact ⟨List.append_nil _, hlength, hagrees⟩

theorem readDirectoriesWithin_accepts (compDir : String) {most : Nat}
    (hmost : c.window.length < most) :
    Accepts (fun bytes directories => ∃ names, bytes = nameListBytes names ∧
      (∀ name ∈ names, IsName name) ∧
      directories = names.map fun name => directoryPath compDir (Utf8.decodeLossy name))
      (readDirectoriesWithin compDir most) c := by
  induction most generalizing c with
  | zero => exact absurd hmost (Nat.not_lt_zero _)
  | succ most ih =>
    refine .of_reads ?_ fun directories c' h => ?_
    · rintro _ _ ⟨names, rfl, hnames, rfl⟩
      cases names with
      | nil =>
        exact ((Cursor.text_accepts hsound).reads ⟨[], rfl, by simp, rfl⟩).bind (.pure [])
      | cons name names =>
        obtain ⟨hname, hnames⟩ := List.forall_mem_cons.mp hnames
        have htext : Cursor.Reads Cursor.text c (name ++ [0]) (Utf8.decodeLossy name) :=
          (Cursor.text_accepts hsound).reads ⟨name, rfl, hname.2, rfl⟩
        have hbytes : nameListBytes (name :: names) =
            (name ++ [0]) ++ (nameListBytes names ++ []) := by
          simp [nameListBytes]
        intro rest hwindow
        have hrest : (c.passed (name ++ [0]).length).window.length < most := by
          rw [hbytes] at hwindow
          simp [hwindow] at hmost ⊢
          omega
        refine (hbytes ▸ htext.bind ?_ : Cursor.Reads _ _ _ _) rest hwindow
        rw [hname.text_isEmpty]
        exact ((ih (by exact hsound) hrest).reads ⟨names, rfl, hnames, rfl⟩).bind (.pure _)
    · obtain ⟨_, _, hname, ⟨name, rfl, hzero, rfl⟩, h⟩ :=
        Cursor.of_bind (Cursor.text_accepts hsound) h
      by_cases hempty : name = []
      · subst hempty
        cases h
        exact ⟨[0], hname, [], rfl, by simp, rfl⟩
      · rw [IsName.text_isEmpty ⟨hempty, hzero⟩] at h
        have hrest : (c.passed (name ++ [0]).length).window.length < most := by
          rw [hname] at hmost
          simp at hmost ⊢
          omega
        obtain ⟨_, _, hnamesAt, ⟨names, rfl, hnames, rfl⟩, h⟩ :=
          Cursor.of_bind (ih (by exact hsound) hrest) h
        cases h
        refine ⟨nameListBytes (name :: names), ?_, name :: names, rfl,
          List.forall_mem_cons.mpr ⟨⟨hempty, hzero⟩, hnames⟩, rfl⟩
        rw [hname, hnamesAt]
        simp [nameListBytes]

theorem readDirectories_accepts (compDir : String) :
    Accepts (fun bytes directories => ∃ names, bytes = nameListBytes names ∧
      (∀ name ∈ names, IsName name) ∧
      directories = names.map fun name => directoryPath compDir (Utf8.decodeLossy name))
      (readDirectories compDir) c :=
  .get_bind (readDirectoriesWithin_accepts hsound compDir (Nat.lt_succ_of_le c.length_window_le))

end Header
end DebugLine
