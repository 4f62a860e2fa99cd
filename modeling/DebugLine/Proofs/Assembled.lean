import DebugLine.Assembly
import DebugLine.Proofs.HeaderLayout
import DebugLine.Proofs.Opening

/-!
# Assembled units are read back

The two lengths of an assembled unit and its three lists end where they should, so reading it gives
what it was assembled from, and leaves the cursor at its program.
-/

namespace DebugLine

/-- Text that can name something: it is not empty and no character of it ends it early. -/
def IsNameText (name : String) : Prop := name ≠ "" ∧ '\x00' ∉ name.toList

instance (name : String) : Decidable (IsNameText name) := inferInstanceAs (Decidable (_ ∧ _))

/-- The bytes of a text without the zero byte that ends it. -/
def textBytes (text : String) : List UInt8 := text.toUTF8.data.toList

@[simp] theorem decodeLossy_textBytes (text : String) :
    Utf8.decodeLossy (textBytes text) = text := Utf8.decodeLossy_toUTF8 text

theorem IsNameText.isName {name : String} (h : IsNameText name) : IsName (textBytes name) := by
  refine ⟨fun hempty => h.1 ?_, Utf8.zero_notMem_toUTF8 h.2⟩
  rw [← decodeLossy_textBytes name, hempty]
  rfl

namespace EntryLayout

/-- The entry that is laid out for a name and three numbers. -/
def ofText (name : String) (directoryIndex modificationTime length : UInt64) : EntryLayout :=
  ⟨textBytes name, Leb128.encodeUnsigned directoryIndex, Leb128.encodeUnsigned modificationTime,
    Leb128.encodeUnsigned length⟩

variable {name : String} {directoryIndex modificationTime length : UInt64}
  {directories : Array String}

theorem bytes_ofText : (ofText name directoryIndex modificationTime length).bytes =
    zeroEnded name ++ Leb128.encodeUnsigned directoryIndex ++
      Leb128.encodeUnsigned modificationTime ++ Leb128.encodeUnsigned length := by
  simp [bytes, ofText, zeroEnded, textBytes]

theorem valid_ofText (hname : IsNameText name)
    (hlocated : SourcePath.isAbsolute name = true ∨ directoryIndex.toNat < directories.size) :
    (ofText name directoryIndex modificationTime length).Valid directories where
  isName := hname.isName
  directoryIndex := Leb128.isUnsigned_encodeUnsigned directoryIndex
  modificationTime := Leb128.isUnsigned_encodeUnsigned modificationTime
  length := Leb128.isUnsigned_encodeUnsigned length
  located := by simpa [Located, text, ofText] using hlocated

theorem entry_ofText
    (hlocated : SourcePath.isAbsolute name = true ∨ directoryIndex.toNat < directories.size) :
    (ofText name directoryIndex modificationTime length).entry directories =
      ⟨(Decoder.resolve directories directoryIndex name).getD "", directoryIndex,
        modificationTime, length⟩ := by
  have hknown : (ofText name directoryIndex modificationTime length).Located directories := by
    simpa [Located, text, ofText] using hlocated
  have hresolve := Decoder.resolve_of_located hknown
  simp only [ofText, text, Leb128.unsignedWord_encodeUnsigned, decodeLossy_textBytes] at hresolve
  simp [entry, ofText, hresolve]

end EntryLayout

namespace Assembly

/-- What a unit must be assembled from to be one that is read. -/
structure Valid (a : Assembly) : Prop where
  version_supported : 2 ≤ a.version ∧ a.version ≤ 4
  maximumOperations_ne : a.maximumOperations ≠ 0
  lineRange_ne : a.lineRange ≠ 0
  opcodeBase_bounds : 1 ≤ a.opcodeBase ∧ a.opcodeBase ≤ 254
  opcodeLengths : ∀ lengths, a.opcodeLengths = some lengths →
    lengths.length = a.opcodeBase.toNat - 1 ∧ Header.AgreesWithKnown lengths
  directories : ∀ name ∈ a.directories, IsNameText name
  files : ∀ file ∈ a.files, IsNameText file.1 ∧
    (SourcePath.isAbsolute file.1 = true ∨ file.2.toNat ≤ a.directories.length)
  addressSize_mem : a.addressSize ∈ addressSizes
  /-- The unit length is not a reserved one. Any section fits in the 64-bit format. -/
  fits : match a.format with
    | .dwarf32 => a.body.length < firstReservedLength.toNat
    | .dwarf64 => a.encode.length < UInt64.size - 1

/-- Tables before version 4 know only single operations. -/
def parameters (a : Assembly) : LineParameters :=
  { a.toLineParameters with
    maximumOperations := if 4 ≤ a.version then a.maximumOperations else 1 }

/-- The compilation directory, and the include directories in order. -/
def includeDirectories (a : Assembly) : Array String :=
  (compDir :: a.directories.map (Header.directoryPath compDir)).toArray

/-- The files in order, each in its directory. -/
def entries (a : Assembly) : List FileEntry :=
  a.files.map fun (name, index) =>
    ⟨(Decoder.resolve a.includeDirectories index name).getD "", index, 0, 0⟩

/-- Where the program of a unit at the start of a section begins. -/
def programOffset (a : Assembly) : Nat :=
  a.format.initialSize + (2 + a.format.offsetSize + a.headerBytes.length)

/-- The header of a unit at the start of a section. -/
def header (a : Assembly) : Header where
  toLineParameters := a.parameters
  offset := 0
  format := a.format
  version := a.version
  unitLength := a.body.length
  headerLength := a.headerBytes.length
  standardOpcodeLengths := a.declaredLengths
  includeDirectories := a.includeDirectories
  programOffset := a.programOffset
  endOffset := a.encode.length
  initialFileCount := a.files.length

/-- The file entry that is laid out for a file. -/
def entryLayout (file : String × UInt64) : EntryLayout := .ofText file.1 file.2 0 0

/-- The header that is laid out for a unit. -/
def layout (a : Assembly) : HeaderLayout where
  format := a.format
  unitLength := a.body.length
  version := a.version
  headerLength := a.headerBytes.length
  parameters := a.parameters
  isStmt := a.defaultIsStmt.toUInt8
  opcodeLengths := a.declaredLengths
  directories := a.directories.map textBytes
  files := a.files.map entryLayout

variable {a : Assembly}

theorem nameListBytes_directories (a : Assembly) :
    nameListBytes (a.directories.map textBytes) = a.directoryBytes ++ [0] := by
  rw [nameListBytes, directoryBytes, List.flatMap_map]
  rfl

theorem entryListBytes_files (a : Assembly) :
    entryListBytes (a.files.map entryLayout) =
      a.files.flatMap (fun (name, index) => fileBytes name index) ++ [0] := by
  rw [entryListBytes, List.flatMap_map]
  simp only [entryLayout, EntryLayout.bytes_ofText]
  rfl

/-- What the header length counts is what stands behind it in front of the program. -/
theorem headerBytes_eq (a : Assembly) :
    a.headerBytes = Header.parameterBytes a.version a.parameters a.defaultIsStmt.toUInt8 ++
      (a.declaredLengths ++ (nameListBytes (a.directories.map textBytes) ++
        entryListBytes (a.files.map entryLayout))) := by
  rw [nameListBytes_directories, entryListBytes_files]
  by_cases hversion : 4 ≤ a.version
  · simp [Header.parameterBytes, parameters, headerBytes, tableBytes, hversion]
  · simp [Header.parameterBytes, parameters, headerBytes, tableBytes, hversion]

theorem body_eq (a : Assembly) : a.body = a.layout.insideBytes a.byteOrder ++ a.program := by
  rw [body, HeaderLayout.insideBytes]
  simp only [layout, List.append_assoc, ← headerBytes_eq]
  rfl

theorem encode_eq (a : Assembly) : a.encode = a.layout.bytes a.byteOrder ++ a.program := by
  have hinitial : a.initialLength = a.format.initialBytes a.byteOrder a.body.length := by
    unfold initialLength lengthBytes
    cases a.format <;> rfl
  rw [encode, hinitial, body_eq, HeaderLayout.bytes, List.append_assoc, ← body_eq]
  rfl

theorem agreesWithKnown_usualLengths (n : Nat) (hn : n < 255) :
    Header.AgreesWithKnown ((List.range n).map fun i => usualLengths[i]?.getD 0) := by
  intro i declared hi known hknown
  have hlt : i < n := by simpa using (List.getElem?_eq_some_iff.mp hi).1
  have hall : ∀ i < 255, (knownArgumentCount (UInt8.ofNat (i + 1))).all
      (· == usualLengths[i]?.getD 0) = true := by decide +kernel
  have husual := hall i (hlt.trans hn)
  rw [List.getElem?_map, List.getElem?_range hlt] at hi
  rw [hknown] at husual
  cases hi
  exact (beq_iff_eq.mp husual).symm

theorem length_declaredLengths (h : a.Valid) :
    a.declaredLengths.length = a.opcodeBase.toNat - 1 := by
  unfold declaredLengths
  cases hlengths : a.opcodeLengths with
  | none => simp
  | some lengths => exact (h.opcodeLengths lengths hlengths).1

theorem agreesWithKnown_declaredLengths (h : a.Valid) :
    Header.AgreesWithKnown a.declaredLengths := by
  unfold declaredLengths
  cases hlengths : a.opcodeLengths with
  | none =>
    refine agreesWithKnown_usualLengths _ ?_
    have := a.opcodeBase.toNat_lt
    omega
  | some lengths => exact (h.opcodeLengths lengths hlengths).2

theorem layout_includeDirectories (a : Assembly) :
    a.layout.includeDirectories compDir = a.includeDirectories := by
  simp [HeaderLayout.includeDirectories, includeDirectories, layout]

theorem located_of_valid (h : a.Valid) {file : String × UInt64} (hfile : file ∈ a.files) :
    SourcePath.isAbsolute file.1 = true ∨ file.2.toNat < a.includeDirectories.size := by
  simpa [includeDirectories, Nat.lt_succ_iff] using (h.files file hfile).2

theorem layout_entries (h : a.Valid) : a.layout.entries compDir = a.entries := by
  rw [HeaderLayout.entries, layout_includeDirectories, entries]
  simp only [layout, List.map_map]
  exact List.map_congr_left fun file hfile => EntryLayout.entry_ofText (located_of_valid h hfile)

theorem length_body (a : Assembly) :
    a.body.length = 2 + a.format.offsetSize + a.headerBytes.length + a.program.length := by
  simp only [body, lengthBytes, List.length_append, ByteOrder.length_bytes]

theorem length_encode (a : Assembly) :
    a.encode.length = a.format.initialSize + a.body.length := by
  rw [encode_eq, HeaderLayout.bytes, List.append_assoc, ← body_eq, List.length_append,
    Format.length_initialBytes]
  rfl

theorem length_encode_lt (h : a.Valid) : a.encode.length < UInt64.size - 1 := by
  have hfits := h.fits
  have hlength := a.length_encode
  cases hformat : a.format with
  | dwarf32 =>
    have hreserved : 4 + firstReservedLength.toNat < UInt64.size - 1 := by decide
    simp only [hformat, Format.initialSize] at hfits hlength
    omega
  | dwarf64 => simpa only [hformat] using hfits

theorem length_body_lt (h : a.Valid) : a.body.length < a.format.lengthBound := by
  have hfits := h.fits
  have hsize := length_encode_lt h
  have hlength := a.length_encode
  cases hformat : a.format with
  | dwarf32 =>
    rw [hformat] at hfits
    exact hfits
  | dwarf64 =>
    rw [Format.lengthBound]
    omega

theorem layout_valid (h : a.Valid) : a.layout.Valid a.byteOrder compDir true none where
  unitLength_lt := length_body_lt h
  version_supported := h.version_supported
  headerLength_lt := by
    have hlt := length_body_lt h
    have hbody := a.length_body
    have hbound : a.format.lengthBound ≤ Nat.pow 256 a.format.offsetSize := by
      cases a.format <;> decide
    have hle : a.headerBytes.length ≤ a.body.length := by omega
    exact (hle.trans_lt hlt).trans_le hbound
  programStart_le := by
    simp only [HeaderLayout.programStart, layout, length_body]
    omega
  parameters :=
    { maximumOperations_ne := by
        simp only [layout, parameters]
        split_ifs
        · exact h.maximumOperations_ne
        · decide
      maximumOperations_eq := by
        intro hversion
        simp only [layout] at hversion
        simp only [layout, parameters, if_neg hversion]
      lineRange_ne := h.lineRange_ne
      opcodeBase_ne := by
        have hbase := h.opcodeBase_bounds.1
        rintro hzero
        simp only [layout, parameters] at hzero
        rw [hzero] at hbase
        exact absurd hbase (by decide) }
  isStmt_eq := by
    simp only [layout, parameters]
    cases a.defaultIsStmt <;> rfl
  opcodeLengths_length := length_declaredLengths h
  opcodeLengths_agree := fun _ => agreesWithKnown_declaredLengths h
  directories := by
    intro name hname
    obtain ⟨text, htext, rfl⟩ := List.mem_map.mp hname
    exact (h.directories text htext).isName
  files := by
    intro e he
    obtain ⟨file, hfile, rfl⟩ := List.mem_map.mp he
    rw [layout_includeDirectories]
    exact EntryLayout.valid_ofText (h.files file hfile).1 (located_of_valid h hfile)
  files_length_le := nofun
  inside_le := by
    have hlength := congrArg List.length (body_eq a)
    rw [List.length_append] at hlength
    exact (Nat.le_add_right _ _).trans_eq hlength.symm

theorem layout_liesAt (a : Assembly) :
    a.layout.LiesAt a.byteOrder a.encode.toArray 0 where
  isPrefix := ⟨a.program, by simp [encode_eq]⟩
  unit_le := by
    rw [Nat.zero_add, List.size_toArray, length_encode]
    rfl

theorem layout_header (a : Assembly) : a.layout.header compDir 0 = a.header := by
  have hend : 0 + a.format.initialSize + a.body.length = a.encode.length := by
    rw [length_encode, Nat.zero_add]
  have hprogram : 0 + a.format.initialSize + a.layout.programStart = a.programOffset := by
    rw [Nat.zero_add, programOffset]
    rfl
  rw [header, ← hend, ← hprogram, ← layout_includeDirectories, HeaderLayout.header]
  simp [layout]

theorem length_layout_bytes (a : Assembly) :
    (a.layout.bytes a.byteOrder).length = a.programOffset := by
  have hlength := congrArg List.length a.encode_eq
  rw [List.length_append, length_encode, length_body] at hlength
  rw [programOffset]
  omega

/-- The decoder behind the header of a unit: at its program, with its files. -/
def opened (a : Assembly) : Decoder where
  cursor := ⟨a.encode.toArray, a.programOffset, a.encode.length, a.byteOrder, a.addressSize, none⟩
  files := ⟨a.entries.toArray, [], none⟩

theorem read_encode (h : a.Valid) :
    Header.read compDir true (Machine.decoderAt (a.unit 0) a.encode.toArray .unset 0) =
      .ok a.header a.opened := by
  have hread := Header.read_of_liesAt (layout_valid h) a.layout_liesAt
    (by rw [List.size_toArray]; exact length_encode_lt h) a.addressSize
  rw [layout_header, layout_entries h, length_layout_bytes] at hread
  refine hread.trans ?_
  simp only [opened, Nat.zero_add, length_encode]
  rfl

/-- The machine at the start of the program of a unit. -/
def machine (a : Assembly) : Machine where
  toDecoder := a.opened
  header := a.header
  registers := Row.initial a.defaultIsStmt

theorem programOffset_le (a : Assembly) : a.programOffset ≤ a.encode.length := by
  rw [length_encode, length_body, programOffset]
  omega

theorem atProgram_opened (a : Assembly) : a.opened.atProgram a.header = a.opened := by
  simp [opened, Decoder.atProgram, Cursor.seek, header, a.programOffset_le]

theorem rewound_machine (a : Assembly) : a.machine.rewound = a.machine := by
  have hseek : a.opened.cursor.seek a.programOffset a.encode.length = a.opened.cursor :=
    congrArg Decoder.cursor a.atProgram_opened
  have hcount : a.files.length = a.opened.files.count := by
    simp [opened, FileTable.count, entries]
  have htruncate : a.opened.files.truncate a.files.length = a.opened.files := by
    rw [hcount, FileTable.truncate_count]
  simp only [Machine.rewound, machine, header, hseek, htruncate]
  rfl

theorem ofUnit_encode (h : a.Valid) :
    Machine.ofUnit (a.unit 0) a.encode.toArray .unset = .ok (some a.machine) := by
  have hopen : Machine.ofUnit (a.unit 0) a.encode.toArray .unset =
      .ok (some (Machine.rewound ⟨a.opened, a.header, Row.initial a.header.defaultIsStmt⟩)) :=
    Machine.ofUnit_of_read rfl h.addressSize_mem (read_encode h)
  exact hopen.trans (congrArg (fun m => Except.ok (some m)) a.rewound_machine)

theorem drop_programOffset (a : Assembly) : a.encode.drop a.programOffset = a.program := by
  rw [encode_eq, ← length_layout_bytes, List.drop_left]

theorem window_machine (a : Assembly) : a.machine.cursor.window = a.program := by
  simp only [machine, opened, Cursor.window, Array.toList_extract, List.extract_eq_take_drop,
    drop_programOffset]
  apply List.take_of_length_le
  rw [length_encode, length_body, programOffset]
  omega

/-- An assembled unit opens, and says what it was assembled from: the header has the given
parameters, argument counts and directories, and the file table the given files, numbered from one.
The cursor has passed the header where the program begins, and the program is all that follows. -/
theorem opens_as_assembled (h : a.Valid) :
    Header.read compDir true (Machine.decoderAt (a.unit 0) a.encode.toArray .unset 0) =
        .ok a.header a.opened ∧
      Machine.ofUnit (a.unit 0) a.encode.toArray .unset = .ok (some a.machine) ∧
      a.opened.cursor.offset = a.header.programOffset ∧
      a.header.endOffset = a.encode.length ∧
      a.encode.drop a.header.programOffset = a.program ∧
      a.machine.cursor.window = a.program ∧
      ∀ number : UInt64, number ≠ 0 → a.machine.file? number = a.entries[number.toNat - 1]? := by
  refine ⟨read_encode h, ofUnit_encode h, rfl, rfl, a.drop_programOffset, a.window_machine, ?_⟩
  intro number hnumber
  rw [Machine.file?, FileTable.get?, if_neg hnumber]
  simp [machine, opened]

/-- A big-endian unit of version 2 in the 64-bit format, with only three standard opcodes, a
directory and a file from the root, a file whose directory index means nothing, and a directory and
a file next to where they are looked for. -/
def scattered : Assembly :=
  { empty with
    format := .dwarf64, byteOrder := .big, addressSize := 4, version := 2, maximumOperations := 7
    opcodeBase := 4, opcodeLengths := some [0, 1, 1]
    directories := ["../lib/./include", "/usr/include"]
    files := [("main.c", 1), ("/generated.h", 300), ("../share//a.h", 2)]
    program := [0x28, 0x02, 0x80] }

theorem scattered_valid : scattered.Valid where
  version_supported := by decide
  maximumOperations_ne := by decide
  lineRange_ne := by decide
  opcodeBase_bounds := by decide
  opcodeLengths := by
    intro lengths hlengths
    cases hlengths
    exact ⟨by decide, Header.agreesWithKnown_iff.mpr (by decide)⟩
  directories := by decide
  files := by decide
  addressSize_mem := by decide
  fits := by
    change scattered.encode.length < UInt64.size - 1
    decide

theorem opens_as_assembled_scattered :
    let row : Row := { Row.initial true with address := 2, line := 4 }
    scattered.Valid ∧ ∃ start,
      Machine.ofUnit (scattered.unit 0) scattered.encode.toArray .unset = .ok (some start) ∧
      start.header.maximumOperations = 1 ∧
      start.header.includeDirectories = #["/work", "/lib/include", "/usr/include"] ∧
      start.files.visible.map FileEntry.path =
        #["/lib/include/main.c", "/generated.h", "/usr/share/a.h"] ∧
      start.file? 3 = some ⟨"/usr/share/a.h", 2, 0, 0⟩ ∧
      start.cursor.offset = 106 ∧ start.cursor.window = [0x28, 0x02, 0x80] ∧
      start.registers = Row.initial true ∧
      start.rows.1 = [.ok row, .error (.unexpectedEnd 109 1 0)] ∧
      start.rows.2.registers = row := by
  intro row
  obtain ⟨-, hopen, hoffset, -, -, hwindow, hfile⟩ := opens_as_assembled scattered_valid
  have hthird : scattered.machine.file? 3 = some ⟨"/usr/share/a.h", 2, 0, 0⟩ :=
    (hfile 3 (by decide)).trans (by decide +kernel)
  exact ⟨scattered_valid, _, hopen, by decide, by decide +kernel, by decide +kernel, hthird,
    hoffset.trans (by decide), hwindow, rfl, by decide +kernel, by decide +kernel⟩

end Assembly
end DebugLine
