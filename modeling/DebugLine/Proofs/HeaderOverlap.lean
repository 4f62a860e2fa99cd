import DebugLine.Instruction.Decode
import DebugLine.Proofs.HeaderLayout

/-!
# Where the tables of a header end

The header length says where the program starts, and the tables end where their terminators stand.
Nothing compares the two. Where the tables are longer than the header length says, the program
starts inside them, and what is left of them is decoded as instructions.
-/

namespace DebugLine

variable {order : ByteOrder} {compDir : String} {check : Bool} {limit : Option Nat}

namespace HeaderLayout

/-- What the header length is to count: the parameters, the argument counts, the directories and
the files. -/
def tableBytes (l : HeaderLayout) : List UInt8 :=
  Header.parameterBytes l.version l.parameters l.isStmt ++ (l.opcodeLengths ++
    (nameListBytes l.directories ++ entryListBytes l.files))

/-- What stands in front of the tables: the initial length, the version and the header length. -/
def frontBytes (order : ByteOrder) (l : HeaderLayout) : List UInt8 :=
  l.format.initialBytes order l.unitLength ++ (order.bytes 2 l.version.toNat ++
    order.bytes l.format.offsetSize l.headerLength)

theorem bytes_eq_front_append (order : ByteOrder) (l : HeaderLayout) :
    l.bytes order = l.frontBytes order ++ l.tableBytes := by
  simp only [bytes, insideBytes, frontBytes, tableBytes, List.append_assoc]

theorem length_frontBytes (order : ByteOrder) (l : HeaderLayout) :
    (l.frontBytes order).length = l.format.initialSize + 2 + l.format.offsetSize := by
  simp [frontBytes, Nat.add_assoc]

theorem programOffset_eq (order : ByteOrder) (l : HeaderLayout) (compDir : String) (offset : Nat) :
    (l.header compDir offset).programOffset =
      offset + (l.frontBytes order).length + l.headerLength := by
  rw [length_frontBytes]
  change offset + l.format.initialSize + (2 + l.format.offsetSize + l.headerLength) = _
  omega

theorem LiesAt.tableBytes_isPrefix {l : HeaderLayout} {bytes : Array UInt8} {offset : Nat}
    (hat : l.LiesAt order bytes offset) :
    l.tableBytes <+: bytes.toList.drop (offset + (l.frontBytes order).length) := by
  obtain ⟨rest, hrest⟩ := hat.isPrefix
  rw [← List.drop_drop, ← hrest, bytes_eq_front_append, List.append_assoc, List.drop_left]
  exact List.prefix_append _ _

end HeaderLayout

namespace Header

variable {header : Header} {d' : Decoder}

theorem window_atProgram {d : Decoder} {h : Header} (hstart : h.programOffset ≤ h.endOffset)
    (hend : h.endOffset ≤ d.cursor.bytes.size) :
    (d.atProgram h).cursor.window =
      (d.cursor.bytes.toList.drop h.programOffset).take (h.endOffset - h.programOffset) := by
  simp only [Decoder.atProgram, Cursor.seek, Cursor.window, Array.toList_extract,
    List.extract_eq_take_drop, min_eq_left hend, min_eq_left hstart]

/-- The tables of a header that has been read end where the cursor stands. They share with the
program as many bytes as they are longer than the header length says. So the cursor does not stand
behind the start of the program exactly where they are not longer. -/
theorem tables_end_by_program_iff {bytes : Array UInt8} {offset : Nat} {addressSize : UInt8}
    (hbytes : bytes.size < UInt64.size - 1)
    (h : read compDir check ⟨Cursor.ofBytes bytes offset order addressSize, .empty limit⟩ =
      .ok header d') :
    ∃ l : HeaderLayout, l.Valid order compDir check limit ∧ l.LiesAt order bytes offset ∧
      header = l.header compDir offset ∧
      l.tableBytes <+: bytes.toList.drop (header.programOffset - header.headerLength) ∧
      d'.cursor.offset = header.programOffset - header.headerLength + l.tableBytes.length ∧
      (d'.atProgram header).cursor.window =
        (bytes.toList.drop header.programOffset).take (header.endOffset - header.programOffset) ∧
      d'.cursor.offset - header.programOffset = l.tableBytes.length - header.headerLength ∧
      (d'.cursor.offset ≤ header.programOffset ↔ l.tableBytes.length ≤ header.headerLength) := by
  obtain ⟨l, hl, hat, rfl, rfl⟩ := layout_of_read hbytes h
  have hprogram := l.programOffset_eq order compDir offset
  have hlength : (l.header compDir offset).headerLength = l.headerLength := rfl
  have htables : (l.header compDir offset).programOffset - l.headerLength =
      offset + (l.frontBytes order).length := by
    rw [hprogram, Nat.add_sub_cancel]
  have hcursor : offset + (l.bytes order).length =
      offset + (l.frontBytes order).length + l.tableBytes.length := by
    rw [HeaderLayout.bytes_eq_front_append, List.length_append, Nat.add_assoc]
  have hinside : (l.header compDir offset).programOffset ≤ (l.header compDir offset).endOffset :=
    Nat.add_le_add_left hl.programStart_le _
  refine ⟨l, hl, hat, rfl, ?_, ?_, window_atProgram hinside hat.unit_le, ?_, ?_⟩
  · rw [hlength, htables]
    exact hat.tableBytes_isPrefix
  · rw [hlength, htables]
    exact hcursor
  · dsimp only
    omega
  · dsimp only
    omega

theorem tables_end_by_program_iff_overlong :
    ∃ d', overlongSection.size < UInt64.size - 1 ∧
      read "/w" true ⟨Cursor.ofBytes overlongSection 2 .big 8, .empty (some 1)⟩ =
        .ok (overlong.header "/w" 2) d' ∧
      d'.cursor.offset ≤ (overlong.header "/w" 2).programOffset ∧
      ∃ l : HeaderLayout, l.LiesAt .big overlongSection 2 ∧ l.tableBytes.length = 17 := by
  have hsize : overlongSection.size < UInt64.size - 1 := by decide
  have hlies : overlong.LiesAt .big overlongSection 2 := ⟨by decide, by decide⟩
  have hread := read_of_liesAt overlong_valid hlies hsize 8
  obtain ⟨l, -, hat, -, -, hcursor, -, -, hiff⟩ := tables_end_by_program_iff hsize hread
  have hlength : l.tableBytes.length = 17 := by
    have hplace : (41 : Nat) = 42 - 18 + l.tableBytes.length := hcursor
    omega
  exact ⟨_, hsize, hread, hiff.mpr (by rw [hlength]; decide), l, hat, hlength⟩

/-- A header whose length leaves out the zero byte that ends its files. -/
def overlappingSection : Array UInt8 :=
  #[0x0F, 0x00, 0x00, 0x00, 0x02, 0x00, 0x06, 0x00, 0x00, 0x00, 0x01, 0x01, 0xFB, 0x0E, 0x01, 0x00,
    0x00, 0x01, 0x01]

/-- The byte in front of the cursor has ended the files, and is the first of an instruction. -/
theorem tables_end_by_program_fails_overlapping :
    ∃ header d', read "/work" true
        ⟨Cursor.ofBytes overlappingSection 0 .little 8, .empty none⟩ = .ok header d' ∧
      d'.cursor.offset = 17 ∧ header.programOffset = 16 ∧
      ¬d'.cursor.offset ≤ header.programOffset ∧
      ∃ last, Instruction.decode header (d'.atProgram header) = .ok .endSequence last := by
  obtain ⟨header, d', hread, hcursor, hprogram, hdecode⟩ : ∃ header d',
      read "/work" true ⟨Cursor.ofBytes overlappingSection 0 .little 8, .empty none⟩ =
        .ok header d' ∧ d'.cursor.offset = 17 ∧ header.programOffset = 16 ∧
      (Instruction.decode header (d'.atProgram header)).answer = .ok .endSequence :=
    EStateM.Result.exists_of_ran (by decide +kernel)
  have hbehind : ¬d'.cursor.offset ≤ header.programOffset := by
    rw [hcursor, hprogram]
    decide
  exact ⟨header, d', hread, hcursor, hprogram, hbehind,
    EStateM.Result.exists_of_answer_ok hdecode⟩

end Header
end DebugLine
