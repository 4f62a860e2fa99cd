import DebugLine.Machine.Position
import DebugLine.Proofs.Growth
import DebugLine.Proofs.HeaderLayout
import DebugLine.Proofs.Opening

/-!
# Machines stay inside their unit

A header that has been read puts its unit inside the section, and takes a byte for each of its
files. A machine never leaves the unit. Its table has at most as many files as the header and the
bytes of the program up to where the machine stands, and this is also true of each position that it
saves. So a position may be restored on every machine of the unit, whichever machine saved it.
-/

namespace DebugLine

/-- What is known of a header that has been read from `bytes`. -/
structure Header.Enclosed (bytes : Array UInt8) (h : Header) : Prop where
  maximumOperations_ne : h.maximumOperations ≠ 0
  lineRange_ne : h.lineRange ≠ 0
  endOffset_le : h.endOffset ≤ bytes.size
  initialFileCount_le : h.initialFileCount ≤ bytes.size

theorem HeaderLayout.enclosed_header {order : ByteOrder} {compDir : String} {check : Bool}
    {limit : Option Nat} {bytes : Array UInt8} {offset : Nat} {l : HeaderLayout}
    (hl : l.Valid order compDir check limit) (hat : l.LiesAt order bytes offset) :
    (l.header compDir offset).Enclosed bytes where
  maximumOperations_ne := hl.parameters.maximumOperations_ne
  lineRange_ne := hl.parameters.lineRange_ne
  endOffset_le := hat.unit_le
  initialFileCount_le := by
    have hfiles := length_lt_entryListBytes l.files
    have hinside := hl.inside_le
    have hunit := hat.unit_le
    simp only [insideBytes, List.length_append] at hinside
    change l.files.length ≤ bytes.size
    omega

/-- A place in the unit of `h`. There is a byte of the section for each file of the header, and one
behind the start for each further file. -/
structure Position.Within (h : Header) (bytes : Array UInt8) (p : Position) : Prop where
  offset_le : p.offset ≤ h.endOffset
  fileCount_le : p.fileCount ≤ p.offset + bytes.size

theorem FileTable.count_setCount_le (t : FileTable) (n : Nat) : (t.setCount n).count ≤ n :=
  (t.count_setCount n).trans_le (Nat.min_le_left _ _)

namespace Machine

/-- The machine runs the program of `h` and stands inside its unit. -/
structure Within (h : Header) (bytes : Array UInt8) (m : Machine) : Prop where
  header_eq : m.header = h
  bytes_eq : m.cursor.bytes = bytes
  limit_eq : m.cursor.limit = h.endOffset
  checkpoint : m.checkpoint.Within h bytes

variable {h : Header} {bytes : Array UInt8} {m m' : Machine}

theorem Within.onward (hm : m.Within h bytes) (hmove : m.Onward m')
    (hpace : m.toDecoder.Paced 0 m'.toDecoder) : m'.Within h bytes where
  header_eq := hmove.header_eq.trans hm.header_eq
  bytes_eq := hmove.decoder.cursor.bytes_eq.trans hm.bytes_eq
  limit_eq := hmove.decoder.cursor.limit_eq.trans hm.limit_eq
  checkpoint :=
    { offset_le := by
        have hle : m.cursor.offset ≤ m.cursor.limit :=
          hm.checkpoint.offset_le.trans_eq hm.limit_eq.symm
        have hle' := hmove.decoder.cursor.offset_le_limit hle
        rwa [hmove.decoder.cursor.limit_eq, hm.limit_eq] at hle'
      fileCount_le := by
        have hcount : m.files.count ≤ m.cursor.offset + bytes.size := hm.checkpoint.fileCount_le
        unfold Decoder.Paced at hpace
        change m'.files.count ≤ m'.cursor.offset + bytes.size
        omega }

theorem Within.ofDecode (hm : m.Within h bytes) {α : Type} {x : Decode α}
    (hdisciplined : Decoder.Disciplined x) (hpaced : Moves (Decoder.Paced 0) x) :
    (Run.ofDecode x m).state.Within h bytes := by
  apply hm.onward ((ofDecode_disciplined hdisciplined).moves m)
  have hpace := hpaced m.toDecoder
  unfold Run.ofDecode
  cases hx : x m.toDecoder <;>
  · rw [hx] at hpace
    exact hpace

theorem Within.execute (hm : m.Within h bytes) (instruction : Instruction) :
    (execute instruction m).state.Within h bytes :=
  hm.onward ((execute_disciplined instruction).moves m) (refl_of (Decoder.Paced 0) m.toDecoder)

variable (hh : h.Enclosed bytes)
include hh

/-- Moving to an offset cannot leave the unit, whatever the offset. -/
theorem within_of_seek {c : Cursor} {offset : Nat} (hheader : m.header = h)
    (hcursor : m.cursor = c.seek offset h.endOffset) (hbytes : c.bytes = bytes)
    (hcount : m.files.count ≤ m.cursor.offset + bytes.size) : m.Within h bytes where
  header_eq := hheader
  bytes_eq := by
    rw [hcursor]
    exact hbytes
  limit_eq := by
    rw [hcursor, Cursor.seek, hbytes]
    exact min_eq_left hh.endOffset_le
  checkpoint :=
    { offset_le := by
        change m.cursor.offset ≤ h.endOffset
        rw [hcursor]
        exact (min_le_right _ _).trans (min_le_left _ _)
      fileCount_le := hcount }

theorem Within.restored (hm : m.Within h bytes) {p : Position} (hp : p.Within h bytes) :
    (m.restored p).Within h bytes := by
  have hcursor : (m.restored p).cursor = m.cursor.seek p.offset h.endOffset := by
    rw [← hm.header_eq]
    rfl
  have hoffset : (m.restored p).cursor.offset = p.offset := by
    rw [hcursor, Cursor.seek, hm.bytes_eq]
    exact min_eq_left (hp.offset_le.trans (le_min le_rfl hh.endOffset_le))
  apply within_of_seek (m := m.restored p) hh hm.header_eq hcursor hm.bytes_eq
  rw [hoffset]
  exact (m.files.count_setCount_le p.fileCount).trans hp.fileCount_le

theorem within_rewound (hheader : m.header = h) (hbytes : m.cursor.bytes = bytes) :
    m.rewound.Within h bytes := by
  have hcount : (m.files.truncate h.initialFileCount).count ≤ h.initialFileCount :=
    (FileTable.count_setCount_le _ _).trans (min_le_right _ _)
  subst hheader
  apply within_of_seek (m := m.rewound) hh rfl rfl hbytes
  exact (hcount.trans hh.initialFileCount_le).trans (Nat.le_add_left _ _)

theorem Within.rewound (hm : m.Within h bytes) : m.rewound.Within h bytes :=
  within_rewound hh hm.header_eq hm.bytes_eq

omit hh in
theorem within_ofUnit (hbytes : bytes.size < UInt64.size - 1) {unit : CompileUnit}
    {settings : Settings} (hopen : ofUnit unit bytes settings = .ok (some m)) :
    m.header.Enclosed bytes ∧ m.Within m.header bytes := by
  obtain ⟨offset, header, d, hread, rfl⟩ := of_ofUnit hopen
  obtain ⟨l, hl, hat, rfl, rfl⟩ := Header.layout_of_read hbytes hread
  have hh := HeaderLayout.enclosed_header hl hat
  exact ⟨hh, within_rewound hh rfl rfl⟩

end Machine
end DebugLine
