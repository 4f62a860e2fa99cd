import DebugLine.Proofs.Assembled
import DebugLine.Proofs.Listing

/-!
# Decoding undoes assembling

Each directive is decoded as the instruction that it stands for, from just the bytes that it was
assembled into. So a listing of an assembled program has one instruction for each directive, in
order, and the files that the directives define.
-/

namespace DebugLine

/-- The low `size` bytes of an address. -/
def truncatedAddress (size : UInt8) (address : UInt64) : UInt64 :=
  UInt64.ofNat (address.toNat % Nat.pow 256 size.toNat)

namespace Directive

/-- The directive is one that a header with this opcode base and these directories lets stand for
an instruction of its own. -/
def Valid (opcodeBase : UInt8) (directories : Array String) : Directive → Prop
  | special opcode => opcodeBase ≤ opcode
  | defineFile name directoryIndex _ _ => IsNameText name ∧
      (SourcePath.isAbsolute name = true ∨ directoryIndex.toNat < directories.size)
  | extended opcode _ => ¬ (1 ≤ opcode ∧ opcode ≤ 4)
  | raw _ => False
  | _ => True

/-- The file that a directive defines. -/
def entry? (directories : Array String) : Directive → Option FileEntry
  | defineFile name directoryIndex modificationTime length =>
    some ⟨(Decoder.resolve directories directoryIndex name).getD "", directoryIndex,
      modificationTime, length⟩
  | _ => none

/-- The instruction that a directive stands for where `count` files are visible. Bytes as they are
stand for none. -/
def instruction? (addressSize : UInt8) (count : Nat) : Directive → Option Instruction
  | special opcode => some (.special opcode)
  | copy => some .copy
  | advancePc operations => some (.advancePc operations)
  | advanceLine delta => some (.advanceLine delta)
  | setFile index => some (.setFile index)
  | setColumn column => some (.setColumn column)
  | negateStatement => some .negateStatement
  | setBasicBlock => some .setBasicBlock
  | constAddPc => some .constAddPc
  | fixedAdvancePc delta => some (.fixedAddPc delta)
  | setPrologueEnd => some .setPrologueEnd
  | setEpilogueBegin => some .setEpilogueBegin
  | setIsa isa => some (.setIsa isa)
  | endSequence => some .endSequence
  | setAddress address => some (.setAddress (truncatedAddress addressSize address))
  | defineFile _ _ _ _ => some (.defineFile (UInt64.ofNat (count + 1)))
  | setDiscriminator discriminator => some (.setDiscriminator discriminator)
  | extended opcode operands =>
    some (.unknownExtended opcode (UInt64.ofNat (operands.length + 1)))
  | raw _ => none

/-- The instructions that directives stand for, each with the offset behind the bytes of its own
directive. The first directive is at `offset`, and `count` files are visible there. -/
def listed (order : ByteOrder) (addressSize : UInt8) (directories : Array String) :
    (offset count : Nat) → List Directive → List (Instruction × Nat)
  | _, _, [] => []
  | offset, count, directive :: rest =>
    let behind := offset + (directive.encode order addressSize).length
    ((directive.instruction? addressSize count).map fun i => (i, behind)).toList ++
      listed order addressSize directories behind
        (count + (directive.entry? directories).toList.length) rest

end Directive

theorem ExtendedOpcode.ofCode?_eq_none {code : UInt8} (h : ¬ (1 ≤ code ∧ code ≤ 4)) :
    ExtendedOpcode.ofCode? code = none := by
  simp only [UInt8.le_iff_toNat_le] at h
  unfold ExtendedOpcode.ofCode?
  split
  · simp_all
  · simp_all
  · simp_all
  · simp_all
  · rfl

namespace Instruction

open Decoder (Reads)

variable {h : Header} {d : Decoder} {i : Instruction} {added : List FileEntry}

theorem reads_special {opcode : UInt8} (hsound : d.cursor.failure = none)
    (hopcode : h.opcodeBase ≤ opcode) : Reads (decode h) d [opcode] (.special opcode) [] := by
  change Reads _ d ([opcode] ++ []) _ _
  refine .position_bind (.ofRead_bind (Cursor.uint8_accepts hsound) rfl ?_)
  rw [if_pos hopcode]
  exact .pure _

theorem reads_standard (opcode : StandardOpcode) {operands : List UInt8}
    (hsound : d.cursor.failure = none) (hbase : 13 ≤ h.opcodeBase)
    (hread : Cursor.Reads (readKnown opcode) (d.cursor.passed 1) operands i) :
    Reads (decode h) d (opcode.code :: operands) i [] := by
  have hcode : opcode.code < 13 ∧ opcode.code ≠ 0 := by cases opcode <;> decide
  have hbelow : ¬ h.opcodeBase ≤ opcode.code :=
    UInt8.not_le.mpr (UInt8.lt_of_lt_of_le hcode.1 hbase)
  change Reads _ d ([opcode.code] ++ operands) _ _
  refine .position_bind (.ofRead_bind (Cursor.uint8_accepts hsound) rfl ?_)
  rw [if_neg hbelow, if_neg hcode.2]
  apply Decoder.reads_ofRead
  rw [readStandard, StandardOpcode.ofCode?_code]
  exact hread

/-- An extended opcode is decoded with the operands at the front of its frame, and the rest of the
frame is passed. -/
theorem reads_frame {opcode : UInt8} (front rest : List UInt8) (hsound : d.cursor.failure = none)
    (hbase : 13 ≤ h.opcodeBase)
    (hlength : (Directive.frame opcode (front ++ rest)).length < UInt64.size)
    (hread : ∀ k, Reads (readOperands h d.cursor.offset
      (UInt64.ofNat ((front ++ rest).length + 1)) opcode) (d.passed k []) front i added) :
    Reads (decode h) d (Directive.frame opcode (front ++ rest)) i added := by
  have hzero : ¬ h.opcodeBase ≤ 0 :=
    UInt8.not_le.mpr (UInt8.lt_of_lt_of_le (by decide) hbase)
  have hsize : (front ++ rest).length + 1 < UInt64.size := by
    simp only [Directive.frame, List.length_cons, List.length_append] at hlength ⊢
    omega
  have hvalue : (UInt64.ofNat ((front ++ rest).length + 1)).toNat = (front ++ rest).length + 1 :=
    UInt64.toNat_ofNat_of_lt' hsize
  have hbytes : Directive.frame opcode (front ++ rest) =
      [0] ++ (Leb128.encodeUnsigned (UInt64.ofNat ((front ++ rest).length + 1)) ++
        ([opcode] ++ (front ++ (rest ++ [])))) := by
    simp [Directive.frame]
  rw [hbytes]
  refine .position_bind (.ofRead_bind (Cursor.uint8_accepts hsound) rfl ?_)
  rw [if_neg hzero, if_pos rfl]
  refine .ofRead_bind (Cursor.uleb128_accepts (by exact hsound))
    ⟨Leb128.isUnsigned_encodeUnsigned _, rfl⟩ ?_
  rw [Leb128.unsignedWord_encodeUnsigned]
  refine .position_bind (.ofRead_bind (Cursor.uint8_accepts (by exact hsound)) rfl ?_)
  simp only [Decoder.passed_passed, List.nil_append]
  rw [← List.append_nil added]
  refine (hread _).bind (.position_bind (.require_bind ?_
    (.ofRead_bind (a := ()) (Cursor.skip_accepts (by exact hsound) _) ?_ (.pure i))))
  · rw [hvalue]
    simp only [Decoder.cursor_passed, Cursor.offset_passed, List.length_append,
      List.length_singleton]
    omega
  · rw [hvalue]
    simp only [Decoder.passed_passed, Decoder.cursor_passed, Cursor.offset_passed,
      List.length_append, List.length_singleton]
    omega

theorem reads_known {opcode : ExtendedOpcode} {operands : List UInt8}
    (hsound : d.cursor.failure = none) (hbase : 13 ≤ h.opcodeBase)
    (hlength : (Directive.frame opcode.code operands).length < UInt64.size)
    (hread : ∀ size k, Reads (readOperands h d.cursor.offset size opcode.code) (d.passed k [])
      operands i added) :
    Reads (decode h) d (Directive.frame opcode.code operands) i added := by
  have hframe := reads_frame operands [] hsound hbase (by rwa [List.append_nil]) fun k => hread _ k
  rwa [List.append_nil] at hframe

theorem reads_unknown {opcode : UInt8} {operands : List UInt8} (hsound : d.cursor.failure = none)
    (hbase : 13 ≤ h.opcodeBase) (hopcode : ¬ (1 ≤ opcode ∧ opcode ≤ 4))
    (hlength : (Directive.frame opcode operands).length < UInt64.size) :
    Reads (decode h) d (Directive.frame opcode operands)
      (.unknownExtended opcode (UInt64.ofNat (operands.length + 1))) [] := by
  refine reads_frame [] operands hsound hbase hlength fun k => ?_
  rw [readOperands, ExtendedOpcode.ofCode?_eq_none hopcode]
  exact .pure _

theorem reads_address (hsound : d.cursor.failure = none)
    (hsize : d.cursor.addressSize ∈ addressSizes) (address : UInt64) :
    Cursor.Reads Cursor.address d.cursor
      (d.cursor.byteOrder.bytes d.cursor.addressSize.toNat address.toNat)
      (truncatedAddress d.cursor.addressSize address) := by
  obtain ⟨hbytes, hlt⟩ := ByteOrder.eq_bytes_iff.mpr
    ⟨ByteOrder.length_bytes d.cursor.byteOrder d.cursor.addressSize.toNat address.toNat, rfl⟩
  have hvalue : (truncatedAddress d.cursor.addressSize address).toNat =
      address.toNat % Nat.pow 256 d.cursor.addressSize.toNat :=
    UInt64.toNat_ofNat_of_lt' ((Nat.mod_le _ _).trans_lt address.toNat_lt)
  rw [ByteOrder.value_bytes] at hbytes hlt
  apply (Cursor.address_accepts hsound hsize).reads
  rw [hvalue]
  exact ⟨hbytes, hlt⟩

theorem reads_defineFile {name : String} {directoryIndex modificationTime length : UInt64}
    (hsound : d.cursor.failure = none) (hroom : d.files.HasRoom 1) (offset : Nat)
    (size : UInt64) (hname : IsNameText name) (hlocated : SourcePath.isAbsolute name = true ∨
      directoryIndex.toNat < h.includeDirectories.size) :
    Reads (readOperands h offset size ExtendedOpcode.defineFile.code) d
      (zeroEnded name ++ Leb128.encodeUnsigned directoryIndex ++
        Leb128.encodeUnsigned modificationTime ++ Leb128.encodeUnsigned length)
      (.defineFile (UInt64.ofNat (d.files.count + 1)))
      [⟨(Decoder.resolve h.includeDirectories directoryIndex name).getD "", directoryIndex,
        modificationTime, length⟩] := by
  have hvalid : (EntryLayout.ofText name directoryIndex modificationTime length).Valid
      h.includeDirectories := EntryLayout.valid_ofText hname hlocated
  rw [← EntryLayout.bytes_ofText, ← EntryLayout.entry_ofText hlocated]
  intro rest hwindow
  refine (bind_of_ok (Decoder.reads_entry hsound hvalid hroom rest hwindow)).trans ?_
  have hcount (t : FileTable) (entry : FileEntry) : (t.pushAll [entry]).count = t.count + 1 := by
    simp [FileTable.push, FileTable.count]
  rw [← hcount]
  rfl

theorem reads_directive {directive : Directive} (hsound : d.cursor.failure = none)
    (hsize : d.cursor.addressSize ∈ addressSizes) (hbase : 13 ≤ h.opcodeBase)
    (hroom : d.files.HasRoom 1)
    (hvalid : directive.Valid h.opcodeBase h.includeDirectories)
    (hlength : (directive.encode d.cursor.byteOrder d.cursor.addressSize).length < UInt64.size) :
    ∃ i, directive.instruction? d.cursor.addressSize d.files.count = some i ∧
      Reads (decode h) d (directive.encode d.cursor.byteOrder d.cursor.addressSize) i
        (directive.entry? h.includeDirectories).toList := by
  have huleb {c : Cursor} (hc : c.failure = none) (n : UInt64) :
      Cursor.Reads Cursor.uleb128 c (Leb128.encodeUnsigned n) n :=
    (Cursor.uleb128_accepts hc).reads ⟨Leb128.isUnsigned_encodeUnsigned n, by simp⟩
  cases directive with
  | special opcode => exact ⟨_, rfl, reads_special hsound hvalid⟩
  | copy => exact ⟨_, rfl, reads_standard .copy hsound hbase (.pure _)⟩
  | advancePc operations =>
    exact ⟨_, rfl, reads_standard .advancePc hsound hbase ((huleb (by exact hsound) _).map _)⟩
  | advanceLine delta =>
    have hsleb : Cursor.Reads Cursor.sleb128 (d.cursor.passed 1)
        (Leb128.encodeSigned delta) delta :=
      (Cursor.sleb128_accepts (c := d.cursor.passed 1) hsound).reads
        ⟨Leb128.isNumeral_encodeSigned delta, by simp⟩
    exact ⟨_, rfl, reads_standard .advanceLine hsound hbase (hsleb.map _)⟩
  | setFile index =>
    exact ⟨_, rfl, reads_standard .setFile hsound hbase ((huleb (by exact hsound) _).map _)⟩
  | setColumn column =>
    exact ⟨_, rfl, reads_standard .setColumn hsound hbase ((huleb (by exact hsound) _).map _)⟩
  | negateStatement => exact ⟨_, rfl, reads_standard .negateStmt hsound hbase (.pure _)⟩
  | setBasicBlock => exact ⟨_, rfl, reads_standard .setBasicBlock hsound hbase (.pure _)⟩
  | constAddPc => exact ⟨_, rfl, reads_standard .constAddPc hsound hbase (.pure _)⟩
  | fixedAdvancePc delta =>
    have hdelta : Cursor.Reads Cursor.uint16 (d.cursor.passed 1)
        (d.cursor.byteOrder.bytes 2 delta.toNat) delta :=
      (Cursor.uint16_accepts (c := d.cursor.passed 1) hsound).reads rfl
    exact ⟨_, rfl, reads_standard .fixedAdvancePc hsound hbase (hdelta.map _)⟩
  | setPrologueEnd => exact ⟨_, rfl, reads_standard .setPrologueEnd hsound hbase (.pure _)⟩
  | setEpilogueBegin => exact ⟨_, rfl, reads_standard .setEpilogueBegin hsound hbase (.pure _)⟩
  | setIsa isa =>
    exact ⟨_, rfl, reads_standard .setIsa hsound hbase ((huleb (by exact hsound) _).map _)⟩
  | endSequence => exact ⟨_, rfl, reads_known hsound hbase hlength fun _ _ => .pure _⟩
  | setAddress address =>
    refine ⟨_, rfl, reads_known hsound hbase hlength fun _ k => ?_⟩
    have haddress := reads_address (d := d.passed k []) hsound hsize address
    exact (Decoder.reads_ofRead haddress).map _
  | defineFile name directoryIndex modificationTime length =>
    exact ⟨_, rfl, reads_known hsound hbase hlength fun _ k =>
      reads_defineFile (d := d.passed k []) hsound hroom _ _ hvalid.1 hvalid.2⟩
  | setDiscriminator discriminator =>
    refine ⟨_, rfl, reads_known hsound hbase hlength fun _ k => ?_⟩
    have hoperand : Cursor.Reads Cursor.uleb128 (d.cursor.passed k)
        (Leb128.encodeUnsigned discriminator) discriminator :=
      huleb (c := d.cursor.passed k) hsound _
    exact (Decoder.reads_ofRead (d := d.passed k []) hoperand).map _
  | extended opcode operands => exact ⟨_, rfl, reads_unknown hsound hbase hvalid hlength⟩
  | raw bytes => exact hvalid.elim

end Instruction

namespace Listing

variable {h : Header}

/-- The directives are decoded one after another, each from its own bytes. -/
theorem ofDecoder_of_directives {directives : List Directive} {d : Decoder}
    (hsound : d.cursor.failure = none) (hlimit : d.cursor.limit ≤ d.cursor.bytes.size)
    (hsize : d.cursor.addressSize ∈ addressSizes) (hbase : 13 ≤ h.opcodeBase)
    (hunlimited : d.files.limit = none)
    (hvalid : ∀ directive ∈ directives, directive.Valid h.opcodeBase h.includeDirectories)
    (hwindow : d.cursor.window =
      directives.flatMap (Directive.encode d.cursor.byteOrder d.cursor.addressSize))
    (hlength : d.cursor.window.length < UInt64.size) :
    ofDecoder h d =
      ⟨Directive.listed d.cursor.byteOrder d.cursor.addressSize h.includeDirectories
        d.cursor.offset d.files.count directives, none,
        d.passed d.cursor.window.length
          (directives.filterMap (Directive.entry? h.includeDirectories))⟩ := by
  induction directives generalizing d with
  | nil =>
    have hempty : d.cursor.isEmpty = true := by
      simp [Cursor.isEmpty, ← Cursor.length_window hlimit, hwindow]
    rw [ofDecoder_of_isEmpty hempty, hwindow]
    rfl
  | cons directive directives ih =>
    obtain ⟨hfirst, hvalid⟩ := List.forall_mem_cons.mp hvalid
    rw [List.flatMap_cons] at hwindow
    have hremaining := Cursor.length_window hlimit
    rw [hwindow, List.length_append] at hlength hremaining
    obtain ⟨i, hi, hread⟩ := Instruction.reads_directive hsound hsize hbase
      (by simp [FileTable.HasRoom, hunlimited]) hfirst (by omega)
    have hok := hread _ hwindow
    have hprogress := Instruction.decode_progress hok
    have hempty : d.cursor.isEmpty = false := by
      simp only [Decoder.cursor_passed, Cursor.offset_passed] at hprogress
      simp only [Cursor.isEmpty, beq_eq_false_iff_ne]
      omega
    have hrest : (d.passed (directive.encode d.cursor.byteOrder d.cursor.addressSize).length
        (directive.entry? h.includeDirectories).toList).cursor.window = directives.flatMap
          (Directive.encode d.cursor.byteOrder d.cursor.addressSize) := by
      simp [hwindow]
    have hlater := ih (d := d.passed (directive.encode d.cursor.byteOrder
        d.cursor.addressSize).length (directive.entry? h.includeDirectories).toList)
      hsound hlimit hsize (by simpa using hunlimited) hvalid hrest (by rw [hrest]; omega)
    have hentries : (directive :: directives).filterMap (Directive.entry? h.includeDirectories) =
        (directive.entry? h.includeDirectories).toList ++
          directives.filterMap (Directive.entry? h.includeDirectories) := by
      rw [List.filterMap_cons]
      cases directive.entry? h.includeDirectories <;> rfl
    rw [ofDecoder_of_ok hempty hok, hlater, hrest, hwindow, hentries]
    simp [Directive.listed, hi]

end Listing

namespace Assembly

variable {a : Assembly}

theorem foldl_emit (a : Assembly) (directives : List Directive) :
    directives.foldl emit a =
      { a with program := a.program ++
          directives.flatMap (Directive.encode a.byteOrder a.addressSize) } := by
  induction directives generalizing a with
  | nil => simp
  | cons directive directives ih =>
    rw [List.foldl_cons, ih]
    simp [emit]

theorem opened_passed (a : Assembly) (added : List FileEntry) :
    a.opened.passed a.opened.cursor.window.length added =
      ⟨{ a.opened.cursor with offset := a.encode.length },
        ⟨(a.entries ++ added).toArray, [], none⟩⟩ := by
  have hend : a.programOffset + a.program.length = a.encode.length := by
    rw [length_encode, length_body, programOffset]
    omega
  have hwindow : a.opened.cursor.window = a.program := a.window_machine
  rw [Decoder.passed, Cursor.passed, hwindow, FileTable.pushAll_of_hidden_eq_nil rfl]
  simp [opened, hend]

/-- Decoding undoes assembling: the program of a unit is listed as the instructions that its
directives stand for, in order and each from its own bytes, up to its very end, and the files that
they define stand behind those of the header. -/
theorem listing_of_assembled {directives : List Directive} (hprogram : a.program = [])
    (hbase : 13 ≤ a.opcodeBase) (h : (directives.foldl emit a).Valid)
    (hdirectives : ∀ directive ∈ directives,
      directive.Valid a.opcodeBase a.includeDirectories) :
    ∃ start, Machine.ofUnit (a.unit 0) (directives.foldl emit a).encode.toArray .unset =
        .ok (some start) ∧
      Listing.ofDecoder start.header (start.toDecoder.atProgram start.header) =
        ⟨Directive.listed a.byteOrder a.addressSize a.includeDirectories
            start.header.programOffset a.files.length directives, none,
          ⟨{ start.cursor with offset := (directives.foldl emit a).encode.length },
            ⟨(a.entries ++ directives.filterMap
              (Directive.entry? a.includeDirectories)).toArray, [], none⟩⟩⟩ := by
  rw [foldl_emit, hprogram, List.nil_append] at h ⊢
  obtain ⟨b, hb⟩ : ∃ b : Assembly, b = { a with
    program := directives.flatMap (Directive.encode a.byteOrder a.addressSize) } := ⟨_, rfl⟩
  rw [← hb] at h ⊢
  have hlength := length_encode_lt h
  rw [length_encode, length_body] at hlength
  have hwindow : b.opened.cursor.window = b.program := b.window_machine
  have hlisting := Listing.ofDecoder_of_directives (h := b.header) (d := b.opened) rfl
    (by simp [opened]) h.addressSize_mem (by subst hb; exact hbase) rfl
    (by subst hb; exact hdirectives) (by rw [hwindow]; subst hb; rfl) (by rw [hwindow]; omega)
  rw [opened_passed] at hlisting
  refine ⟨b.machine, by subst hb; exact ofUnit_encode h, ?_⟩
  rw [show b.machine.toDecoder.atProgram b.machine.header = b.opened from b.atProgram_opened]
  refine hlisting.trans ?_
  have hcount : b.opened.files.count = a.files.length := by
    subst hb
    simp [opened, FileTable.count, entries]
  rw [hcount]
  subst hb
  rfl

/-- A big-endian unit for addresses of four bytes, with one file. -/
def narrow : Assembly :=
  { empty with byteOrder := .big, addressSize := 4, opcodeBase := 20, files := [("main.c", 0)] }

/-- Numbers at the ends of their ranges, an address that is too wide, and files and unknown opcodes
in between. -/
def wideDirectives : List Directive :=
  [.setAddress 0x123456789, .advanceLine Int64.minValue, .advancePc 0xFFFFFFFFFFFFFFFF,
    .defineFile "b.c" 0 5 6, .extended 0x80 [1, 2], .special 255, .defineFile "/c.h" 77 0 0,
    .fixedAdvancePc 0x1234, .endSequence]

theorem listing_of_assembled_narrow :
    (wideDirectives.foldl emit narrow).Valid ∧
    ∃ start, Machine.ofUnit (narrow.unit 0) (wideDirectives.foldl emit narrow).encode.toArray
        .unset = .ok (some start) ∧
      let listing := Listing.ofDecoder start.header (start.toDecoder.atProgram start.header)
      listing.instructions.map Prod.fst =
        [.setAddress 0x23456789, .advanceLine Int64.minValue, .advancePc 0xFFFFFFFFFFFFFFFF,
          .defineFile 2, .unknownExtended 0x80 3, .special 255, .defineFile 3,
          .fixedAddPc 0x1234, .endSequence] ∧
      listing.failure = none ∧
      listing.decoder.files.visible.map FileEntry.path =
        #["/work/main.c", "/work/b.c", "/c.h"] := by
  have hvalid : (wideDirectives.foldl emit narrow).Valid :=
    { version_supported := by decide
      maximumOperations_ne := by decide
      lineRange_ne := by decide
      opcodeBase_bounds := by decide
      opcodeLengths := nofun
      directories := by decide
      files := by decide
      addressSize_mem := by decide
      fits := by
        change (wideDirectives.foldl emit narrow).body.length < firstReservedLength.toNat
        decide }
  obtain ⟨start, hopen, hlisting⟩ := listing_of_assembled rfl (by decide) hvalid
    (by simp [wideDirectives, Directive.Valid]; decide)
  refine ⟨hvalid, start, hopen, ?_⟩
  rw [hlisting]
  refine ⟨rfl, rfl, ?_⟩
  change (narrow.entries ++ wideDirectives.filterMap
    (Directive.entry? narrow.includeDirectories)).toArray.map FileEntry.path = _
  decide +kernel

end Assembly
end DebugLine
