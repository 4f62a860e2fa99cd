import DebugLine.Proofs.Acceptance

/-!
# The layout of file entries

A file entry is a name, a zero byte and three numbers. Reading accepts exactly the entries whose
name is not empty and whose directory is known, where the table has room for one more. A list of
entries ends with an empty name.
-/

namespace DebugLine

/-- Bytes that name something: there are some, and none is zero. -/
def IsName (bytes : List UInt8) : Prop := bytes ≠ [] ∧ 0 ∉ bytes

theorem IsName.text_isEmpty {bytes : List UInt8} (h : IsName bytes) :
    (Utf8.decodeLossy bytes).isEmpty = false := by
  rw [Bool.eq_false_iff, ne_eq, String.isEmpty_iff, Utf8.decodeLossy_eq_empty_iff]
  exact h.1

/-- A file entry as it lies in a section: its name and the groups of its numbers. -/
structure EntryLayout where
  name : List UInt8
  directoryIndex : List UInt8
  modificationTime : List UInt8
  length : List UInt8

namespace EntryLayout

def bytes (e : EntryLayout) : List UInt8 :=
  e.name ++ [0] ++ (e.directoryIndex ++ (e.modificationTime ++ e.length))

def text (e : EntryLayout) : String := Utf8.decodeLossy e.name

/-- The directories of a table know where the file lies, or its name needs none of them. -/
def Located (directories : Array String) (e : EntryLayout) : Prop :=
  SourcePath.isAbsolute e.text = true ∨
    (Leb128.unsignedWord e.directoryIndex).toNat < directories.size

structure Valid (directories : Array String) (e : EntryLayout) : Prop where
  isName : IsName e.name
  directoryIndex : Leb128.IsUnsigned e.directoryIndex
  modificationTime : Leb128.IsUnsigned e.modificationTime
  length : Leb128.IsUnsigned e.length
  located : e.Located directories

/-- The name itself where it is absolute, and else the name in its directory. -/
def path (directories : Array String) (e : EntryLayout) : String :=
  if SourcePath.isAbsolute e.text then e.text
  else SourcePath.join (directories[(Leb128.unsignedWord e.directoryIndex).toNat]?.getD "") e.text

/-- The entry as a file table holds it. -/
def entry (directories : Array String) (e : EntryLayout) : FileEntry where
  path := e.path directories
  directoryIndex := Leb128.unsignedWord e.directoryIndex
  modificationTime := Leb128.unsignedWord e.modificationTime
  length := Leb128.unsignedWord e.length

end EntryLayout

/-- The bytes of a list of entries, with the empty name that ends it. -/
def entryListBytes (files : List EntryLayout) : List UInt8 := files.flatMap EntryLayout.bytes ++ [0]

theorem length_lt_entryListBytes (files : List EntryLayout) :
    files.length < (entryListBytes files).length := by
  induction files with
  | nil => simp [entryListBytes]
  | cons e files ih =>
    simp only [entryListBytes, List.flatMap_cons, List.length_append, List.length_cons,
      EntryLayout.bytes] at ih ⊢
    omega

namespace Decoder

variable {d d' : Decoder} {directories : Array String}

theorem located_of_resolve {e : EntryLayout} {path : String}
    (h : resolve directories (Leb128.unsignedWord e.directoryIndex) e.text = some path) :
    e.Located directories := by
  unfold resolve at h
  split_ifs at h with habsolute
  · exact .inl habsolute
  · obtain ⟨directory, hdirectory, -⟩ := Option.map_eq_some_iff.mp h
    exact .inr (Array.getElem?_eq_some_iff.mp hdirectory).1

theorem resolve_of_located {e : EntryLayout} (h : e.Located directories) :
    resolve directories (Leb128.unsignedWord e.directoryIndex) e.text =
      some (e.path directories) := by
  unfold resolve EntryLayout.path
  by_cases habsolute : SourcePath.isAbsolute e.text = true
  · rw [if_pos habsolute, if_pos habsolute]
  · have hindex := h.resolve_left habsolute
    rw [if_neg habsolute, if_neg habsolute, Array.getElem?_eq_getElem hindex]
    rfl

theorem readEntry_eq (directories : Array String) :
    readEntry directories = Decode.ofRead Cursor.text >>= fun name =>
      if name.isEmpty then pure false
      else Decode.ofRead Cursor.position >>= fun offset =>
        Decode.ofRead Cursor.uleb128 >>= fun index =>
          match resolve directories index name with
          | none =>
            Decode.ofRead (Cursor.fail (.directoryIndexOutOfRange offset index directories.size))
          | some path =>
            Decode.ofRead Cursor.uleb128 >>= fun time =>
              Decode.ofRead Cursor.uleb128 >>= fun length =>
                append ⟨path, index, time, length⟩ offset >>= fun _ => pure true := rfl

section Sound

variable (hsound : d.cursor.failure = none)
include hsound

theorem reads_empty_name (directories : Array String) :
    Reads (readEntry directories) d [0] false [] := by
  rw [readEntry_eq]
  refine .ofRead_bind (Cursor.text_accepts hsound) ⟨[], rfl, by simp, rfl⟩ ?_
  exact .pure false

theorem reads_entry {e : EntryLayout} (he : e.Valid directories) (hroom : d.files.HasRoom 1) :
    Reads (readEntry directories) d e.bytes true [e.entry directories] := by
  rw [readEntry_eq]
  refine .ofRead_bind (Cursor.text_accepts hsound) ⟨e.name, rfl, he.isName.2, rfl⟩ ?_
  rw [he.isName.text_isEmpty]
  refine .position_bind (.ofRead_bind (Cursor.uleb128_accepts hsound) ⟨he.directoryIndex, rfl⟩ ?_)
  rw [← EntryLayout.text, resolve_of_located he.located]
  refine .ofRead_bind (Cursor.uleb128_accepts hsound) ⟨he.modificationTime, rfl⟩ ?_
  rw [← List.append_nil e.length]
  refine .ofRead_bind (Cursor.uleb128_accepts hsound) ⟨he.length, rfl⟩ ?_
  exact .append_bind hroom (.pure true)

theorem of_readEntry {more : Bool} (h : readEntry directories d = .ok more d') :
    (more = false ∧ d.cursor.window = [0] ++ d'.cursor.window) ∨
      more = true ∧ ∃ e : EntryLayout, d.cursor.window = e.bytes ++ d'.cursor.window ∧
        e.Valid directories ∧ d.files.HasRoom 1 := by
  rw [readEntry_eq] at h
  obtain ⟨_, _, hwindow, ⟨name, rfl, hname, rfl⟩, h⟩ :=
    of_ofRead_bind (Cursor.text_accepts hsound) h
  by_cases hempty : name = []
  · subst hempty
    cases h
    exact .inl ⟨rfl, hwindow⟩
  · have hisName : IsName name := ⟨hempty, hname⟩
    rw [hisName.text_isEmpty] at h
    obtain ⟨_, _, -, ⟨rfl, rfl⟩, h⟩ := of_ofRead_bind Cursor.position_accepts h
    obtain ⟨index, _, hindexAt, ⟨hindex, rfl⟩, h⟩ :=
      of_ofRead_bind (Cursor.uleb128_accepts (by exact hsound)) h
    cases hresolve : resolve directories (Leb128.unsignedWord index) (Utf8.decodeLossy name) with
    | none =>
      rw [hresolve] at h
      exact absurd h ofRead_fail_ne_ok
    | some path =>
      rw [hresolve] at h
      obtain ⟨time, _, htimeAt, ⟨htime, rfl⟩, h⟩ :=
        of_ofRead_bind (Cursor.uleb128_accepts (by exact hsound)) h
      obtain ⟨length, _, hlengthAt, ⟨hlength, rfl⟩, h⟩ :=
        of_ofRead_bind (Cursor.uleb128_accepts (by exact hsound)) h
      obtain ⟨_, _, happend, h⟩ := bind_eq_ok.mp h
      cases h
      obtain ⟨hroom, rfl⟩ := append_eq_ok_iff.mp happend
      refine .inr ⟨rfl, ⟨name, index, time, length⟩, ?_,
        ⟨hisName, hindex, htime, hlength, located_of_resolve hresolve⟩, hroom⟩
      have hwindow' : d.cursor.window = name ++ [0] ++ (index ++ (time ++ (length ++ _))) :=
        hwindow.trans (congrArg _ (hindexAt.trans
          (congrArg _ (htimeAt.trans (congrArg _ hlengthAt)))))
      simpa [EntryLayout.bytes] using hwindow'

/-- Reading an entry accepts the empty name, and the entries that the table has room for. -/
theorem readEntry_eq_ok_iff {more : Bool} :
    readEntry directories d = .ok more d' ↔
      (more = false ∧ ∃ rest, d.cursor.window = [0] ++ rest ∧ d' = d.passed 1 []) ∨
        more = true ∧ ∃ (e : EntryLayout) (rest : List UInt8), d.cursor.window = e.bytes ++ rest ∧
          e.Valid directories ∧ d.files.HasRoom 1 ∧
          d' = d.passed e.bytes.length [e.entry directories] := by
  constructor
  · intro h
    rcases of_readEntry hsound h with ⟨rfl, hwindow⟩ | ⟨rfl, e, hwindow, he, hroom⟩
    · rw [reads_empty_name hsound directories _ hwindow] at h
      cases h
      exact .inl ⟨rfl, _, hwindow, rfl⟩
    · rw [reads_entry hsound he hroom _ hwindow] at h
      cases h
      exact .inr ⟨rfl, e, _, hwindow, he, hroom, rfl⟩
  · rintro (⟨rfl, rest, hwindow, rfl⟩ | ⟨rfl, e, rest, hwindow, he, hroom, rfl⟩)
    · exact reads_empty_name hsound directories rest hwindow
    · exact reads_entry hsound he hroom rest hwindow

theorem reads_entryList {files : List EntryLayout} (hfiles : ∀ e ∈ files, e.Valid directories)
    (hroom : d.files.HasRoom files.length) {most : Nat} (hmost : files.length < most) :
    Reads (readEntriesWithin directories most) d (entryListBytes files) ()
      (files.map (EntryLayout.entry directories)) := by
  obtain ⟨most, rfl⟩ := Nat.exists_eq_add_one_of_ne_zero (Nat.ne_zero_of_lt hmost)
  induction files generalizing d most with
  | nil => exact (reads_empty_name hsound directories).bind (.pure ())
  | cons e files ih =>
    obtain ⟨he, hfiles⟩ := List.forall_mem_cons.mp hfiles
    have hmost := Nat.lt_of_succ_lt_succ hmost
    obtain ⟨most, rfl⟩ := Nat.exists_eq_add_one_of_ne_zero (Nat.ne_zero_of_lt hmost)
    have hbytes : entryListBytes (e :: files) = e.bytes ++ entryListBytes files := by
      simp [entryListBytes]
    rw [hbytes]
    refine (reads_entry hsound he (hroom.mono (by simp))).bind ?_
    exact ih (by exact hsound) hfiles ((FileTable.hasRoom_push _ _ _).mpr hroom) most hmost

theorem of_readEntriesWithin {most : Nat} {u : Unit} (hroom : d.files.HasRoom 0)
    (hmost : d.cursor.window.length < most)
    (h : readEntriesWithin directories most d = .ok u d') :
    ∃ files : List EntryLayout, d.cursor.window = entryListBytes files ++ d'.cursor.window ∧
      (∀ e ∈ files, e.Valid directories) ∧ d.files.HasRoom files.length := by
  induction most generalizing d with
  | zero => exact absurd hmost (Nat.not_lt_zero _)
  | succ most ih =>
    obtain ⟨more, t, hentry, h⟩ := bind_eq_ok.mp h
    rcases (readEntry_eq_ok_iff hsound).mp hentry with
      ⟨rfl, rest, hwindow, rfl⟩ | ⟨rfl, e, rest, hwindow, he, hroom, rfl⟩
    · cases h
      refine ⟨[], ?_, by simp, hroom⟩
      simp [hwindow, entryListBytes]
    · have hpos : 0 < e.bytes.length := by simp [EntryLayout.bytes]
      have hrest : (d.passed e.bytes.length [e.entry directories]).cursor.window = rest := by
        simp [hwindow]
      obtain ⟨files, hfilesAt, hfiles, hroom⟩ := ih (by exact hsound)
        ((FileTable.hasRoom_push _ _ _).mpr hroom)
        (by rw [hrest]; rw [hwindow, List.length_append] at hmost; omega) h
      refine ⟨e :: files, ?_, List.forall_mem_cons.mpr ⟨he, hfiles⟩,
        (FileTable.hasRoom_push _ _ _).mp hroom⟩
      rw [hrest] at hfilesAt
      simp [hwindow, hfilesAt, entryListBytes]

/-- Reading entries stops behind the empty name that ends them, and not before. -/
theorem readEntries_eq_ok_iff (hroom : d.files.HasRoom 0) :
    readEntries directories d = .ok () d' ↔
      ∃ (files : List EntryLayout) (rest : List UInt8),
        d.cursor.window = entryListBytes files ++ rest ∧
        (∀ e ∈ files, e.Valid directories) ∧ d.files.HasRoom files.length ∧
        d' = d.passed (entryListBytes files).length
          (files.map (EntryLayout.entry directories)) := by
  have hlength := d.cursor.length_window_le
  have hreads {files : List EntryLayout} {rest : List UInt8}
      (hwindow : d.cursor.window = entryListBytes files ++ rest)
      (hfiles : ∀ e ∈ files, e.Valid directories) (hcount : d.files.HasRoom files.length) :
      readEntries directories d = .ok () (d.passed (entryListBytes files).length
        (files.map (EntryLayout.entry directories))) := by
    have hcount' := length_lt_entryListBytes files
    refine reads_entryList hsound hfiles hcount ?_ rest hwindow
    rw [hwindow, List.length_append] at hlength
    omega
  constructor
  · intro h
    obtain ⟨files, hwindow, hfiles, hcount⟩ := of_readEntriesWithin hsound hroom (by omega) h
    rw [hreads hwindow hfiles hcount] at h
    cases h
    exact ⟨files, _, hwindow, hfiles, hcount, rfl⟩
  · rintro ⟨files, rest, hwindow, hfiles, hcount, rfl⟩
    exact hreads hwindow hfiles hcount

end Sound

end Decoder
end DebugLine
