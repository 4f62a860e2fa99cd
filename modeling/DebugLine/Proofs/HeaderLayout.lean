import DebugLine.Proofs.HeaderReading

/-!
# The layout of headers

A header is an initial length and, all inside the unit that it announces, the version, the header
length, the parameters, the argument counts, the directories and the files. Reading accepts exactly
the sections that hold such a header, and takes from it what it says.
-/

namespace DebugLine

variable {order : ByteOrder} {compDir : String} {check : Bool} {limit : Option Nat}

/-- A header as it lies in a section. -/
structure HeaderLayout where
  format : Format
  unitLength : Nat
  version : UInt16
  headerLength : Nat
  parameters : LineParameters
  /-- The byte that says whether rows are statements. -/
  isStmt : UInt8
  opcodeLengths : List UInt8
  directories : List (List UInt8)
  files : List EntryLayout

namespace HeaderLayout

/-- What stands behind the initial length. -/
def insideBytes (order : ByteOrder) (l : HeaderLayout) : List UInt8 :=
  order.bytes 2 l.version.toNat ++ (order.bytes l.format.offsetSize l.headerLength ++
    (Header.parameterBytes l.version l.parameters l.isStmt ++ (l.opcodeLengths ++
      (nameListBytes l.directories ++ entryListBytes l.files))))

def bytes (order : ByteOrder) (l : HeaderLayout) : List UInt8 :=
  l.format.initialBytes order l.unitLength ++ l.insideBytes order

/-- How far the program starts behind the initial length. -/
def programStart (l : HeaderLayout) : Nat := 2 + l.format.offsetSize + l.headerLength

/-- The compilation directory, and the include directories behind it. -/
def includeDirectories (compDir : String) (l : HeaderLayout) : Array String :=
  (compDir :: l.directories.map fun name =>
    Header.directoryPath compDir (Utf8.decodeLossy name)).toArray

def entries (compDir : String) (l : HeaderLayout) : List FileEntry :=
  l.files.map (EntryLayout.entry (l.includeDirectories compDir))

/-- What the header of a unit at `offset` says. -/
def header (compDir : String) (offset : Nat) (l : HeaderLayout) : Header where
  toLineParameters := l.parameters
  offset := offset
  format := l.format
  version := l.version
  unitLength := l.unitLength
  headerLength := l.headerLength
  standardOpcodeLengths := l.opcodeLengths
  includeDirectories := l.includeDirectories compDir
  programOffset := offset + l.format.initialSize + l.programStart
  endOffset := offset + l.format.initialSize + l.unitLength
  initialFileCount := l.files.length

/-- The values of a header are in order, and so are those that depend on others of them. The
declared argument counts need only agree with the known ones where `check` is set. -/
structure Valid (order : ByteOrder) (compDir : String) (check : Bool) (limit : Option Nat)
    (l : HeaderLayout) : Prop where
  unitLength_lt : l.unitLength < l.format.lengthBound
  version_supported : 2 ≤ l.version ∧ l.version ≤ 4
  headerLength_lt : l.headerLength < Nat.pow 256 l.format.offsetSize
  programStart_le : l.programStart ≤ l.unitLength
  parameters : Header.ValidParameters l.version l.parameters
  isStmt_eq : l.parameters.defaultIsStmt = (l.isStmt != 0)
  opcodeLengths_length : l.opcodeLengths.length = l.parameters.opcodeBase.toNat - 1
  opcodeLengths_agree : check = true → Header.AgreesWithKnown l.opcodeLengths
  directories : ∀ name ∈ l.directories, IsName name
  files : ∀ e ∈ l.files, e.Valid (l.includeDirectories compDir)
  files_length_le : ∀ most, limit = some most → l.files.length ≤ most
  inside_le : (l.insideBytes order).length ≤ l.unitLength

/-- The section holds the header at `offset`, and all of its unit. -/
structure LiesAt (order : ByteOrder) (bytes : Array UInt8) (offset : Nat) (l : HeaderLayout) :
    Prop where
  isPrefix : l.bytes order <+: bytes.toList.drop offset
  unit_le : offset + l.format.initialSize + l.unitLength ≤ bytes.size

end HeaderLayout

namespace Header

open Decoder (of_ofRead_bind)

variable {d d' : Decoder} {header : Header}

theorem reads_inside {l : HeaderLayout} (hl : l.Valid d.cursor.byteOrder compDir check limit)
    (hsound : d.cursor.failure = none) (hfiles : d.files = .empty limit) {offset : Nat}
    (hoffset : d.cursor.offset = offset + l.format.initialSize)
    (hend : offset + l.format.initialSize + l.unitLength < UInt64.size - 1) :
    Decoder.Reads (readInside compDir check offset l.format l.unitLength
        (offset + l.format.initialSize + l.unitLength)) d
      (l.insideBytes d.cursor.byteOrder) (l.header compDir offset) (l.entries compDir) := by
  have hstart := hl.programStart_le
  unfold HeaderLayout.programStart at hstart
  refine .ofRead_bind (readVersion_accepts hsound offset) ⟨rfl, hl.version_supported⟩ ?_
  refine .ofRead_bind (readProgramStart_accepts (by exact hsound) hend offset l.format)
    ⟨l.headerLength, rfl, hl.headerLength_lt, by simp [hoffset]; omega, rfl⟩ ?_
  refine .ofRead_bind (readParameters_accepts (by exact hsound) offset l.version)
    ⟨l.isStmt, rfl, hl.isStmt_eq, hl.parameters⟩ ?_
  refine .ofRead_bind (readOpcodeLengths_accepts (by exact hsound) offset check _)
    ⟨rfl, hl.opcodeLengths_length, hl.opcodeLengths_agree⟩ ?_
  refine .ofRead_bind (readDirectories_accepts (by exact hsound) compDir)
    ⟨l.directories, rfl, hl.directories, rfl⟩ ?_
  have hroom : d.files.HasRoom l.files.length := by
    rw [hfiles]
    exact FileTable.hasRoom_empty.mpr hl.files_length_le
  intro rest hwindow
  refine (bind_of_ok ((Decoder.readEntries_eq_ok_iff (by exact hsound)
    (by exact hroom.mono (Nat.zero_le _))).mpr
      ⟨l.files, rest, hwindow, hl.files, by exact hroom, rfl⟩)).trans ?_
  change EStateM.Result.ok _ _ = _
  have hcount : (d.files.pushAll (l.entries compDir)).count = l.files.length := by
    rw [hfiles, FileTable.pushAll_of_hidden_eq_nil rfl]
    simp [FileTable.count, FileTable.empty, HeaderLayout.entries]
  have hprogram : d.cursor.offset + 2 + l.format.offsetSize + l.headerLength =
      offset + l.format.initialSize + l.programStart := by
    rw [HeaderLayout.programStart]
    omega
  rw [HeaderLayout.header, ← hcount, ← hprogram, ByteOrder.length_bytes]
  rfl

/-- A header that has been read inside a unit is one that lies there. -/
theorem of_readInside (hsound : d.cursor.failure = none) (hfiles : d.files = .empty limit)
    {format : Format} {offset unitLength : Nat} (hlength : unitLength < format.lengthBound)
    (hoffset : d.cursor.offset = offset + format.initialSize)
    (hend : offset + format.initialSize + unitLength < UInt64.size - 1)
    (hwindow : d.cursor.window.length ≤ unitLength)
    (h : readInside compDir check offset format unitLength
      (offset + format.initialSize + unitLength) d = .ok header d') :
    ∃ l : HeaderLayout, l.format = format ∧ l.unitLength = unitLength ∧
      l.Valid d.cursor.byteOrder compDir check limit ∧
      l.insideBytes d.cursor.byteOrder <+: d.cursor.window := by
  obtain ⟨_, version, h₁, ⟨rfl, hversion⟩, h⟩ := of_ofRead_bind (readVersion_accepts hsound _) h
  obtain ⟨_, _, h₂, ⟨headerLength, rfl, hheaderLength, hstart, rfl⟩, h⟩ :=
    of_ofRead_bind (readProgramStart_accepts (by exact hsound) hend _ _) h
  obtain ⟨_, parameters, h₃, ⟨isStmt, rfl, hisStmt, hparameters⟩, h⟩ :=
    of_ofRead_bind (readParameters_accepts (by exact hsound) _ _) h
  obtain ⟨lengths, _, h₄, ⟨rfl, hlengths, hagree⟩, h⟩ :=
    of_ofRead_bind (readOpcodeLengths_accepts (by exact hsound) _ _ _) h
  obtain ⟨_, _, h₅, ⟨names, rfl, hnames, rfl⟩, h⟩ :=
    of_ofRead_bind (readDirectories_accepts (by exact hsound) _) h
  obtain ⟨_, t, hentries, h⟩ := bind_eq_ok.mp h
  cases h
  have hroom : d.files.HasRoom 0 := by
    rw [hfiles]
    exact FileTable.hasRoom_empty.mpr fun most _ => Nat.zero_le most
  obtain ⟨files, rest, h₆, hfilesValid, hcount, rfl⟩ :=
    (Decoder.readEntries_eq_ok_iff (by exact hsound) (by exact hroom)).mp hentries
  have hcount : d.files.HasRoom files.length := hcount
  rw [hfiles, FileTable.hasRoom_empty] at hcount
  obtain ⟨l, hl⟩ : ∃ l : HeaderLayout, l = ⟨format, unitLength, version, headerLength, parameters,
    isStmt, lengths, names, files⟩ := ⟨_, rfl⟩
  have hinside : d.cursor.window = l.insideBytes d.cursor.byteOrder ++ rest := by
    rw [h₁, h₂, h₃, h₄, h₅, h₆]
    simp [hl, HeaderLayout.insideBytes]
  have hstart' : l.programStart ≤ unitLength := by
    simp only [Decoder.cursor_passed, Cursor.offset_passed, ByteOrder.length_bytes,
      hoffset] at hstart
    simp only [hl, HeaderLayout.programStart]
    omega
  have hle : (l.insideBytes d.cursor.byteOrder).length ≤ unitLength := by
    rw [hinside, List.length_append] at hwindow
    omega
  subst hl
  exact ⟨_, rfl, rfl, ⟨hlength, hversion, hheaderLength, hstart', hparameters, hisStmt, hlengths,
    hagree, hnames, hfilesValid, hcount, hle⟩, rest, hinside.symm⟩

theorem isWholeUnit_initialBytes {format : Format} {body : List UInt8}
    (hlength : body.length < format.lengthBound) :
    IsWholeUnit order format (format.initialBytes order body.length ++ body) := by
  cases format with
  | dwarf32 =>
    have hvalue : order.value (order.bytes 4 body.length) = body.length := by
      rw [ByteOrder.value_bytes]
      exact Nat.mod_eq_of_lt (hlength.trans (by decide))
    rw [Format.initialBytes]
    exact .dwarf32 (by simp) (by rw [hvalue]; exact hlength) hvalue
  | dwarf64 =>
    have hvalue : order.value (order.bytes 8 body.length) = body.length := by
      rw [ByteOrder.value_bytes]
      exact Nat.mod_eq_of_lt (hlength.trans_eq (by decide))
    rw [Format.initialBytes, List.append_assoc]
    exact .dwarf64 (by simp) (by simp) (by rw [ByteOrder.value_bytes]; decide) hvalue

theorem read_eq_readInside {bytes : Array UInt8} {offset unitLength : Nat} {format : Format}
    (hinitial : format.initialBytes order unitLength <+: bytes.toList.drop offset)
    (hlength : unitLength < format.lengthBound)
    (hle : offset + format.initialSize + unitLength ≤ bytes.size)
    (hbytes : bytes.size < UInt64.size - 1) (addressSize : UInt8) (files : FileTable) :
    read compDir check ⟨Cursor.ofBytes bytes offset order addressSize, files⟩ =
      readInside compDir check offset format unitLength (offset + format.initialSize + unitLength)
        ⟨⟨bytes, offset + format.initialSize, offset + format.initialSize + unitLength, order,
          addressSize, none⟩, files⟩ := by
  obtain ⟨rest, hrest⟩ := hinitial
  have hsize : format.initialSize + rest.length = bytes.size - offset := by
    simpa using congrArg List.length hrest
  have hbody : (rest.take unitLength).length = unitLength := by
    rw [List.length_take]
    omega
  have hunit : IsWholeUnit order format
      (format.initialBytes order unitLength ++ rest.take unitLength) := by
    have hwhole := @isWholeUnit_initialBytes order format (rest.take unitLength)
    rw [hbody] at hwhole
    exact hwhole hlength
  have hat : bytes.toList.drop offset =
      format.initialBytes order unitLength ++ rest.take unitLength ++ rest.drop unitLength := by
    rw [List.append_assoc, List.take_append_drop, hrest]
  have hunitSize : (format.initialBytes order unitLength ++ rest.take unitLength).length =
      format.initialSize + unitLength := by
    rw [List.length_append, hbody, Format.length_initialBytes]
  have hread := read_of_isWholeUnit hat hunit (by rw [hunitSize]; omega) addressSize files compDir
    check
  simpa only [hunitSize, Nat.add_sub_cancel_left, ← Nat.add_assoc] using hread

theorem window_limited (bytes : Array UInt8) (offset n : Nat) (order : ByteOrder)
    (addressSize : UInt8) :
    Cursor.window ⟨bytes, offset, offset + n, order, addressSize, none⟩ =
      (bytes.toList.drop offset).take n := by
  simp [Cursor.window, List.extract_eq_take_drop]

theorem window_ofBytes (bytes : Array UInt8) (offset : Nat) (order : ByteOrder)
    (addressSize : UInt8) :
    (Cursor.ofBytes bytes offset order addressSize).window = bytes.toList.drop offset := by
  rcases Nat.le_total offset bytes.size with hoffset | hoffset
  · simp [Cursor.ofBytes, Cursor.window, List.extract_eq_take_drop, hoffset]
  · simp [Cursor.ofBytes, Cursor.window, hoffset]

theorem drop_initialBytes {format : Format} {unitLength offset : Nat} {rest : List UInt8}
    {bytes : Array UInt8}
    (h : format.initialBytes order unitLength ++ rest = bytes.toList.drop offset) :
    bytes.toList.drop (offset + format.initialSize) = rest := by
  rw [← List.drop_drop, ← h, List.drop_left' (Format.length_initialBytes order unitLength format)]

theorem read_of_liesAt {l : HeaderLayout} (hl : l.Valid order compDir check limit)
    {bytes : Array UInt8} {offset : Nat} (hat : l.LiesAt order bytes offset)
    (hbytes : bytes.size < UInt64.size - 1) (addressSize : UInt8) :
    read compDir check ⟨Cursor.ofBytes bytes offset order addressSize, .empty limit⟩ =
      .ok (l.header compDir offset) ⟨⟨bytes, offset + (l.bytes order).length,
          offset + l.format.initialSize + l.unitLength, order, addressSize, none⟩,
        ⟨(l.entries compDir).toArray, [], limit⟩⟩ := by
  have hle := hat.unit_le
  obtain ⟨rest, hrest⟩ := hat.isPrefix
  rw [HeaderLayout.bytes, List.append_assoc] at hrest
  have hwindow : Cursor.window ⟨bytes, offset + l.format.initialSize,
      offset + l.format.initialSize + l.unitLength, order, addressSize, none⟩ =
      l.insideBytes order ++ rest.take (l.unitLength - (l.insideBytes order).length) := by
    rw [window_limited, drop_initialBytes hrest, List.take_append,
      List.take_of_length_le hl.inside_le]
  rw [read_eq_readInside ⟨_, hrest⟩ hl.unitLength_lt hle hbytes]
  refine (reads_inside hl rfl rfl rfl (by omega) _ hwindow).trans ?_
  simp [Decoder.passed, Cursor.passed, FileTable.pushAll_of_hidden_eq_nil, FileTable.empty,
    HeaderLayout.bytes, Nat.add_assoc]

theorem of_enterUnit {c c' : Cursor} {offset unitLength unitEnd : Nat}
    (hbytes : c.bytes.size < UInt64.size - 1)
    (h : enterUnit offset unitLength c = .ok unitEnd c') :
    c.offset + unitLength ≤ c.bytes.size := by
  obtain ⟨rfl, hle, -⟩ := enterUnit_eq_ok h
  unfold endOf at hle
  omega

theorem of_read {files : FileTable} {bytes : Array UInt8} {offset : Nat} {addressSize : UInt8}
    (hbytes : bytes.size < UInt64.size - 1)
    (h : read compDir check ⟨Cursor.ofBytes bytes offset order addressSize, files⟩ =
      .ok header d') :
    ∃ (format : Format) (unitLength : Nat),
      format.initialBytes order unitLength <+: bytes.toList.drop offset ∧
      unitLength < format.lengthBound ∧
      offset + format.initialSize + unitLength ≤ bytes.size := by
  obtain ⟨_, _, -, ⟨rfl, rfl⟩, h⟩ := of_ofRead_bind Cursor.position_accepts h
  obtain ⟨_, ⟨format, unitLength⟩, hwindow, ⟨rfl, hlength⟩, h⟩ :=
    of_ofRead_bind (readInitialLength_accepts rfl _) h
  obtain ⟨_, _, henter, -⟩ := bind_eq_ok.mp h
  obtain ⟨_, henter, -⟩ := Decoder.ofRead_eq_ok henter
  have hle : min offset bytes.size + (format.initialBytes order unitLength).length + unitLength ≤
    bytes.size := of_enterUnit hbytes henter
  have hinitial : format.initialBytes order unitLength <+: bytes.toList.drop offset :=
    ⟨_, hwindow.symm.trans (window_ofBytes bytes offset order addressSize)⟩
  refine ⟨format, unitLength, hinitial, hlength, ?_⟩
  have hsize : format.initialSize ≤ bytes.size - offset := by
    simpa using hinitial.length_le
  have hpositive : 0 < format.initialSize := by cases format <;> decide
  rw [Format.length_initialBytes] at hle
  omega

theorem layout_of_read {bytes : Array UInt8} {offset : Nat} {addressSize : UInt8}
    (hbytes : bytes.size < UInt64.size - 1)
    (h : read compDir check ⟨Cursor.ofBytes bytes offset order addressSize, .empty limit⟩ =
      .ok header d') :
    ∃ l : HeaderLayout, l.Valid order compDir check limit ∧ l.LiesAt order bytes offset ∧
      header = l.header compDir offset ∧
      d' = ⟨⟨bytes, offset + (l.bytes order).length,
        offset + l.format.initialSize + l.unitLength, order, addressSize, none⟩,
        ⟨(l.entries compDir).toArray, [], limit⟩⟩ := by
  obtain ⟨format, unitLength, hinitial, hlength, hle⟩ := of_read hbytes h
  have hinside := h
  rw [read_eq_readInside hinitial hlength hle hbytes] at hinside
  obtain ⟨l, rfl, rfl, hl, hlies⟩ := of_readInside rfl rfl hlength rfl (by omega)
    (by rw [window_limited]; exact List.length_take_le _ _) hinside
  have hat : l.LiesAt order bytes offset := by
    refine ⟨?_, hle⟩
    obtain ⟨rest, hrest⟩ := hinitial
    rw [window_limited, drop_initialBytes hrest] at hlies
    rw [HeaderLayout.bytes, ← hrest]
    exact (List.prefix_append_right_inj _).mpr (hlies.trans (List.take_prefix _ _))
  rw [read_of_liesAt hl hat hbytes] at h
  cases h
  exact ⟨l, hl, hat, rfl, rfl⟩

/-- A header is read from a section exactly where it lies there, and taken as it says. Then the
cursor stands behind the tables and sees the rest of the unit. -/
theorem read_eq_ok_iff {bytes : Array UInt8} {offset : Nat} {addressSize : UInt8}
    (hbytes : bytes.size < UInt64.size - 1) :
    read compDir check ⟨Cursor.ofBytes bytes offset order addressSize, .empty limit⟩ =
        .ok header d' ↔
      ∃ l : HeaderLayout, l.Valid order compDir check limit ∧ l.LiesAt order bytes offset ∧
        header = l.header compDir offset ∧
        d' = ⟨⟨bytes, offset + (l.bytes order).length,
          offset + l.format.initialSize + l.unitLength, order, addressSize, none⟩,
          ⟨(l.entries compDir).toArray, [], limit⟩⟩ := by
  constructor
  · exact layout_of_read hbytes
  · rintro ⟨l, hl, hat, rfl, rfl⟩
    exact read_of_liesAt hl hat hbytes addressSize

/-- A 64-bit header with a number that is longer than it need be and a name that is no text. It
leaves out one byte in front of the program. -/
def overlong : HeaderLayout where
  format := .dwarf64
  unitLength := 28
  version := 4
  headerLength := 18
  parameters := ⟨1, 1, true, -3, 12, 2⟩
  isStmt := 7
  opcodeLengths := [0]
  directories := [[0x64]]
  files := [⟨[0xFF], [0x81, 0x00], [0x00], [0x00]⟩]

/-- The header behind two other bytes, and a byte behind its unit. -/
def overlongSection : Array UInt8 :=
  ([0xAA, 0xBB] ++ overlong.bytes .big ++ [0x01, 0xCC]).toArray

theorem overlong_valid : overlong.Valid .big "/w" true (some 1) where
  unitLength_lt := by decide
  version_supported := by decide
  headerLength_lt := by decide
  programStart_le := by decide
  parameters := ⟨by decide, by decide, by decide, by decide⟩
  isStmt_eq := rfl
  opcodeLengths_length := rfl
  opcodeLengths_agree := fun _ => agreesWithKnown_iff.mpr (by decide)
  directories := by simp [overlong, IsName]
  files := by
    have hzero : Leb128.IsUnsigned [0x00] := .last rfl nofun
    have hindex : Leb128.IsUnsigned [0x81, 0x00] := .more rfl (.last rfl nofun)
    simp only [overlong, List.mem_singleton, forall_eq]
    exact ⟨by simp [IsName], hindex, hzero, hzero, .inr (by decide)⟩
  files_length_le := by decide
  inside_le := by decide

/-- There is room for the one file of the header, but no header where there may be none. -/
theorem read_eq_ok_iff_overlong :
    overlongSection.size < UInt64.size - 1 ∧
    read "/w" true ⟨Cursor.ofBytes overlongSection 2 .big 8, .empty (some 1)⟩ =
      .ok (overlong.header "/w" 2)
        ⟨⟨overlongSection, 41, 42, .big, 8, none⟩,
          ⟨#[⟨"/w/d/\uFFFD", 1, 0, 0⟩], [], some 1⟩⟩ ∧
    ¬ ∃ l : HeaderLayout, l.Valid .big "/w" true (some 0) ∧ l.LiesAt .big overlongSection 2 := by
  have hsize : overlongSection.size < UInt64.size - 1 := by decide
  refine ⟨hsize, ?_, ?_⟩
  · exact (read_eq_ok_iff hsize).mpr
      ⟨overlong, overlong_valid, ⟨by decide, by decide⟩, rfl, by decide⟩
  · rintro ⟨l, hl, hat⟩
    obtain ⟨d, hrefused⟩ : ∃ d, read "/w" true
        ⟨Cursor.ofBytes overlongSection 2 .big 8, .empty (some 0)⟩ =
          .error (.fileTableFull 36 0) d :=
      EStateM.Result.exists_of_answer_error (by decide +kernel)
    have haccepted := hrefused.symm.trans ((read_eq_ok_iff hsize).mpr ⟨l, hl, hat, rfl, rfl⟩)
    cases haccepted

end Header
end DebugLine
