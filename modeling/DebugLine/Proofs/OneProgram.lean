import DebugLine.Proofs.Clones
import DebugLine.Proofs.Opening

/-!
# Machines of one program

The copies of a machine go their own ways, and a position that is restored need not be one of their
own. They still run one program: the header, the section and its limits stay what they were, and no
copy comes to stand outside the program's limit.
-/

namespace DebugLine

namespace Machine

variable {start m m' : Machine}

/-- `m` runs the program of `start`, wherever it has been put. -/
structure Shares (start m : Machine) : Prop where
  header_eq : m.header = start.header
  bytes_eq : m.cursor.bytes = start.cursor.bytes
  limit_eq : m.cursor.limit = start.cursor.limit
  byteOrder_eq : m.cursor.byteOrder = start.cursor.byteOrder
  addressSize_eq : m.cursor.addressSize = start.cursor.addressSize
  offset_le : m.cursor.offset ≤ m.cursor.limit
  fileLimit_eq : m.files.limit = start.files.limit

namespace Shares

theorem onward (h : Shares start m) (hmove : m.Onward m') : Shares start m' := by
  have hcursor : m.cursor.Onward m'.cursor := hmove.decoder.cursor
  obtain ⟨-, -, -, hfiles⟩ := hmove.decoder.files
  exact
    { header_eq := hmove.header_eq.trans h.header_eq
      bytes_eq := hcursor.bytes_eq.trans h.bytes_eq
      limit_eq := hcursor.limit_eq.trans h.limit_eq
      byteOrder_eq := hcursor.byteOrder_eq.trans h.byteOrder_eq
      addressSize_eq := hcursor.addressSize_eq.trans h.addressSize_eq
      offset_le := hcursor.offset_le_limit h.offset_le
      fileLimit_eq := hfiles.trans h.fileLimit_eq }

theorem ofFresh (hstart : Fresh start) : Shares start start where
  header_eq := rfl
  bytes_eq := rfl
  limit_eq := rfl
  byteOrder_eq := rfl
  addressSize_eq := rfl
  offset_le := hstart.afterSteps_offset_le 0
  fileLimit_eq := rfl

theorem of_seek (hstart : Fresh start) (h : Shares start m) {offset : Nat}
    (hheader : m'.header = m.header)
    (hcursor : m'.cursor = m.cursor.seek offset m.header.endOffset)
    (hfiles : m'.files.limit = m.files.limit) : Shares start m' where
  header_eq := hheader.trans h.header_eq
  bytes_eq := by
    rw [hcursor]
    exact h.bytes_eq
  limit_eq := by
    rw [hcursor, Cursor.seek, h.header_eq, h.bytes_eq]
    exact hstart.limit_eq.symm
  byteOrder_eq := by
    rw [hcursor]
    exact h.byteOrder_eq
  addressSize_eq := by
    rw [hcursor]
    exact h.addressSize_eq
  offset_le := by
    rw [hcursor]
    exact min_le_right _ _
  fileLimit_eq := hfiles.trans h.fileLimit_eq

theorem limit_le_endOffset (hstart : Fresh start) (h : Shares start m) :
    m.cursor.limit ≤ m.header.endOffset := by
  rw [h.limit_eq, hstart.limit_eq, h.header_eq]
  exact min_le_left _ _

theorem limit_le_size (hstart : Fresh start) (h : Shares start m) :
    m.cursor.limit ≤ m.cursor.bytes.size := by
  rw [h.limit_eq, hstart.limit_eq, h.bytes_eq]
  exact min_le_right _ _

theorem seek_eq (hstart : Fresh start) (h : Shares start m) (h' : Shares start m')
    (hfailure : m'.failure = m.failure) :
    m'.cursor.seek m.cursor.offset m'.header.endOffset = m.cursor := by
  refine seek_eq_of_onward (h'.bytes_eq.trans h.bytes_eq.symm)
    (h'.byteOrder_eq.trans h.byteOrder_eq.symm) (h'.addressSize_eq.trans h.addressSize_eq.symm)
    hfailure ?_ h.offset_le
  rw [h.limit_eq, h'.header_eq, h.bytes_eq]
  exact hstart.limit_eq

end Shares

theorem Fresh.shares_invariant (hstart : Fresh start) : Invariant (Shares start) where
  step m h := h.onward (step_disciplined.moves m)
  restored _ _ h := h.of_seek hstart rfl rfl rfl
  rewound _ h := h.of_seek hstart rfl rfl rfl

end Machine

/-- Whatever is asked of a machine and its copies, and whatever positions they are put at, they run
one program. -/
theorem Clones.shares_after {start m : Machine} (hstart : Machine.Fresh start)
    {saved : List Position} {calls : List Call}
    (hm : m ∈ ((⟨[start], saved⟩ : Clones).after calls).machines) : start.Shares m := by
  have hfirst : (⟨[start], saved⟩ : Clones).Holds start.Shares fun _ => True := by
    refine ⟨fun t ht => ?_, fun _ _ => trivial⟩
    rw [List.mem_singleton.mp ht]
    exact .ofFresh hstart
  exact (hfirst.after hstart.shares_invariant.lasting calls).1.machines m hm

end DebugLine
