import DebugLine.Proofs.Preservation
import DebugLine.Proofs.Replay

/-!
# Starting over

There are two ways back to the start of a program: a reset, which hides the files that the header
does not name, and the first position, which shows as many files as there were then. They agree
because a machine never falls behind its start: the files of the header stay in front of its table,
and every position that it saves counts them. Behind either of them the machine answers like one
that has just been opened.
-/

namespace DebugLine

namespace FileTable

variable {t u : FileTable}

theorem extended_shown_iff (ht : t.hidden = []) :
    t.Extended u.shown ↔ t.visible.toList <+: u.visible.toList ∧ u.limit = t.limit := by
  constructor
  · intro h
    obtain ⟨_, _, _, hlimit⟩ := id h
    exact ⟨h.visible_isPrefix, hlimit⟩
  · rintro ⟨⟨added, hadded⟩, hlimit⟩
    exact ⟨added, hadded.symm, by rw [ht, List.drop_nil]; rfl, hlimit⟩

theorem setCount_setCount (t : FileTable) (n k : Nat) :
    (t.setCount n).setCount k = t.setCount k := by
  simp [setCount, stored]

theorem isPrefix_setCount {shown : List FileEntry} {n : Nat} (h : shown <+: t.visible.toList)
    (hn : shown.length ≤ n) : shown <+: (t.setCount n).visible.toList := by
  rw [visible_setCount, List.prefix_take_iff]
  exact ⟨h.trans (List.prefix_append _ _), hn⟩

end FileTable

/-- A position that does not lie in front of `start`, and shows at least its files. -/
structure Position.From (start : Machine) (p : Position) : Prop where
  offset_le : start.cursor.offset ≤ p.offset
  count_le : start.files.count ≤ p.fileCount

namespace Machine

variable {start m m' : Machine}

theorem Onward.shown (h : m.Onward m') : m.shown.Onward m'.shown where
  decoder :=
    { cursor := h.decoder.cursor
      files := (FileTable.extended_shown_iff rfl).mpr
        ⟨h.decoder.files.visible_isPrefix, h.decoder.files.choose_spec.2.2⟩ }
  header_eq := h.header_eq

theorem Fresh.onward_shown (h : Fresh start) : start.Onward start.shown := by
  rw [shown_of_hidden_eq_nil h.hidden_eq_nil]
  exact refl_of Onward start

theorem Fresh.onward_restored (h : Fresh start) (hm : start.Onward m.shown) {p : Position}
    (hp : p.From start) : start.Onward (m.restored p).shown := by
  obtain ⟨hvisible, hlimit⟩ := (FileTable.extended_shown_iff h.hidden_eq_nil).mp hm.decoder.files
  have hbytes : m.cursor.bytes = start.cursor.bytes := hm.decoder.cursor.bytes_eq
  have hend : min m.header.endOffset m.cursor.bytes.size = start.cursor.limit := by
    rw [h.limit_eq, hbytes, show m.header = start.header from hm.header_eq]
  have hstart : start.cursor.offset ≤ start.cursor.limit := by
    rw [h.offset_eq]
    exact min_le_right _ _
  refine ⟨⟨⟨hbytes, hend, hm.decoder.cursor.byteOrder_eq, hm.decoder.cursor.addressSize_eq, ?_,
    fun _ => min_le_right _ _⟩, ?_⟩, hm.header_eq⟩
  · exact le_min hp.offset_le (hend ▸ hstart)
  · exact (FileTable.extended_shown_iff h.hidden_eq_nil).mpr
      ⟨FileTable.isPrefix_setCount hvisible (Array.length_toList ▸ hp.count_le), hlimit⟩

theorem Fresh.onward_lasting (h : Fresh start) :
    Lasting (fun m => start.Onward m.shown) (Position.From start) (fun _ => True) where
  step m hm := by
    have hmove := trans_of Onward hm (step_disciplined.moves m).shown
    cases hs : step m with
    | ok found t =>
      rw [hs] at hmove
      exact ⟨hmove, fun _ _ => trivial⟩
    | error e t =>
      rw [hs] at hmove
      exact hmove
  checkpoint m hm := by
    refine ⟨hm.decoder.cursor.offset_le, ?_⟩
    have hlen := hm.decoder.files.visible_isPrefix.length_le
    rwa [Array.length_toList, Array.length_toList] at hlen
  restored m p hm hp := h.onward_restored hm hp
  rewound m hm := by
    rw [h.rewound_eq_restored hm]
    exact h.onward_restored hm ⟨le_rfl, le_rfl⟩

/-- Starting over leads to where the machine was opened, but for the failure that it keeps and the
files that it hides. -/
theorem Fresh.rewound_like_start (h : Fresh start) (hm : start.Onward m.shown) :
    m.rewound.cursor = { start.cursor with failure := m.failure } ∧
      m.rewound.header = start.header ∧ m.rewound.registers = start.registers ∧
      m.rewound.files.visible = start.files.visible := by
  have hbytes : m.cursor.bytes = start.cursor.bytes := hm.decoder.cursor.bytes_eq
  have horder : m.cursor.byteOrder = start.cursor.byteOrder := hm.decoder.cursor.byteOrder_eq
  have hsize : m.cursor.addressSize = start.cursor.addressSize := hm.decoder.cursor.addressSize_eq
  have hheader : m.header = start.header := hm.header_eq
  have hcursor : m.rewound.cursor =
      { start.cursor.seek start.header.programOffset start.header.endOffset with
        failure := m.failure } := by
    simp only [rewound, Cursor.seek, hbytes, horder, hsize, hheader, failure]
  refine ⟨?_, hheader, ?_, ?_⟩
  · rw [hcursor, h.cursor_eq]
  · rw [← h.registers_eq, ← hheader]
    rfl
  · have hstored : start.files.visible.toList <+: m.files.stored :=
      hm.decoder.files.visible_isPrefix.trans (List.prefix_append _ _)
    have htake : (m.files.setCount start.files.count).visible.toList =
        start.files.visible.toList := by
      rw [FileTable.visible_setCount]
      exact (List.prefix_iff_eq_take.mp hstored).symm
    rw [h.rewound_eq_restored hm]
    exact Array.toList_inj.mp htake

theorem restored_restored (m : Machine) (p : Position) :
    (m.restored p).restored p = m.restored p := by
  unfold restored
  simp only [FileTable.setCount_setCount]
  rfl

end Machine

namespace Session

open Machine (Fresh Standing)

variable {start : Machine} {r r' : Nat} {s t : Session}

theorem Alike.shown_eq (h : Alike start r r' s t) : s.machine.shown = t.machine.shown := by
  cases h with
  | running machines le le' saved passed => exact machines.shown_eq
  | stopped eq failed known => rw [eq]

theorem rewound_alike (hstart : Fresh start) (operations : List Operation)
    (hsound : ((ofMachine start).after operations).machine.failure = none) :
    Alike start 0 0 (ofMachine ((ofMachine start).after operations).machine.rewound)
      (ofMachine start) := by
  obtain ⟨n, reach, -, hon⟩ := (((Alike.ofFresh hstart).run hstart operations).2).onTrack hsound
  have hback : Standing start ((ofMachine start).after operations).machine.rewound 0 reach :=
    hon.standing.rewound hstart
  exact .running (.standing hback (.ofFresh hstart) (Nat.zero_le reach) le_rfl) le_rfl le_rfl rfl
    nofun

/-- Whatever has been done to a machine, a reset and a return to its first position lead to one
place, which is where it was opened, and doing either again changes nothing. If nothing has failed,
whatever is done from there is answered as by a machine that has just been opened, and shows the
same files. -/
theorem starts_over {unit : CompileUnit} {bytes : Array UInt8} {settings : Settings}
    (hopen : Machine.ofUnit unit bytes settings = .ok (some start))
    (operations : List Operation) :
    let m := ((ofMachine start).after operations).machine
    m.restored start.checkpoint = m.rewound ∧
    m.rewound.cursor = { start.cursor with failure := m.failure } ∧
    m.rewound.header = start.header ∧ m.rewound.registers = start.registers ∧
    m.rewound.files.visible = start.files.visible ∧
    m.rewound.rewound = m.rewound ∧
    (m.restored start.checkpoint).restored start.checkpoint = m.restored start.checkpoint ∧
    (m.failure = none → ∀ further : List Operation,
      (ofMachine m.rewound).answers further = (ofMachine start).answers further ∧
      ((ofMachine m.rewound).after further).machine.shown =
        ((ofMachine start).after further).machine.shown) := by
  intro m
  have hstart := Machine.fresh_of_ofUnit hopen
  have hfirst : (ofMachine start).Holds (fun m => start.Onward m.shown) (Position.From start) :=
    holds_ofMachine hstart.onward_shown
  have hm : start.Onward m.shown := (hfirst.after hstart.onward_lasting operations).machine
  have hback := hstart.rewound_eq_restored hm
  obtain ⟨hcursor, hheader, hregisters, hvisible⟩ := hstart.rewound_like_start hm
  have hagain : m.rewound.rewound = m.rewound := by
    rw [hstart.rewound_eq_restored (hstart.onward_lasting.rewound m hm), hback,
      Machine.restored_restored]
  refine ⟨hback.symm, hcursor, hheader, hregisters, hvisible, hagain,
    m.restored_restored start.checkpoint, fun hsound further => ?_⟩
  obtain ⟨hanswers, hlast⟩ := (rewound_alike hstart operations hsound).run hstart further
  exact ⟨hanswers, hlast.shown_eq⟩

/-- The machine has gone to the end of its program and back to a position where one of its files is
hidden. It starts over, shows one file and comes upon the others again. -/
theorem starts_over_definingFiles :
    ∃ start, Machine.ofUnit (definingFiles.unit 0) definingFiles.encode.toArray .unset =
        .ok (some start) ∧
      let m := ((ofMachine start).after
        [.checkpoint, .nextRow, .nextRow, .checkpoint, .rows 9, .restore 0, .restore 1]).machine
      m.failure = none ∧ m.files.visible.size = 2 ∧ m.files.hidden.length = 1 ∧
      m.restored start.checkpoint = m.rewound ∧ m.rewound.files.visible = start.files.visible ∧
      (ofMachine m.rewound).answers [.files, .checkpoint, .rows 9, .files, .restore 0, .seekPc 0] =
        (ofMachine start).answers
          [.files, .checkpoint, .rows 9, .files, .restore 0, .seekPc 0] := by
  obtain ⟨start, hopen, hsound, hvisible, hhidden⟩ : ∃ start,
      Machine.ofUnit (definingFiles.unit 0) definingFiles.encode.toArray .unset =
        .ok (some start) ∧
      let m := ((ofMachine start).after
        [.checkpoint, .nextRow, .nextRow, .checkpoint, .rows 9, .restore 0, .restore 1]).machine
      m.failure = none ∧ m.files.visible.size = 2 ∧ m.files.hidden.length = 1 :=
    Machine.exists_of_opened (by decide +kernel)
  obtain ⟨hback, -, -, -, hshown, -, -, hfresh⟩ := starts_over hopen
    [.checkpoint, .nextRow, .nextRow, .checkpoint, .rows 9, .restore 0, .restore 1]
  exact ⟨start, hopen, hsound, hvisible, hhidden, hback, hshown, (hfresh hsound _).1⟩

end Session
end DebugLine
