import DebugLine.Proofs.FailingSteps

/-!
# A file entry is read whole or not at all

At a cursor there stands the empty name that ends a list, a complete file entry, or neither. An
empty name is passed and nothing else happens. A complete entry is passed and appended where the
table has room. In every other case reading fails, and the table is as it was, whatever has been
passed by then.
-/

namespace DebugLine

namespace Cursor

variable {α : Type} {spec : List UInt8 → α → Prop} {x : Read α} {c : Cursor}

theorem Accepts.passed_iff (h : Accepts spec x c) {bytes rest : List UInt8} {a : α}
    (hwindow : c.window = bytes ++ rest) :
    x c = .ok a (c.passed bytes.length) ↔ spec bytes a := by
  rw [h a]
  constructor
  · rintro ⟨front, back, hfront, hspec, hpassed⟩
    have hlength : bytes.length = front.length := by
      have hoffset := congrArg offset hpassed
      simpa using hoffset
    obtain rfl := (List.append_inj (hwindow.symm.trans hfront) hlength).1
    exact hspec
  · intro hspec
    exact ⟨bytes, rest, hwindow, hspec, rfl⟩

end Cursor

namespace Decoder

open Leb128 (IsUnsigned unsignedWord)

/-- A complete entry stands at the cursor. Its name is not empty and ends before its first zero
byte, three numbers can be read behind it, and the path is the name itself where it is absolute, and
else the name joined to the directory with the first of the numbers. -/
structure EntryAt (directories : Array String) (c : Cursor) (e : EntryLayout) (entry : FileEntry) :
    Prop where
  isPrefix : e.bytes <+: c.window
  isName : IsName e.name
  directoryIndex : Cursor.uleb128 (c.passed (e.name.length + 1)) =
    .ok entry.directoryIndex (c.passed (e.name.length + 1 + e.directoryIndex.length))
  modificationTime : Cursor.uleb128 (c.passed (e.name.length + 1 + e.directoryIndex.length)) =
    .ok entry.modificationTime
      (c.passed (e.name.length + 1 + e.directoryIndex.length + e.modificationTime.length))
  length : Cursor.uleb128
      (c.passed (e.name.length + 1 + e.directoryIndex.length + e.modificationTime.length)) =
    .ok entry.length (c.passed e.bytes.length)
  path : SourcePath.isAbsolute e.text = true ∧ entry.path = e.text ∨
    SourcePath.isAbsolute e.text = false ∧ ∃ directory,
      directories[entry.directoryIndex.toNat]? = some directory ∧
      entry.path = SourcePath.join directory e.text

variable {d d' : Decoder} {c : Cursor} {directories : Array String} {e : EntryLayout}
  {entry : FileEntry}

theorem resolve_eq_some_iff {index : UInt64} {name path : String} :
    resolve directories index name = some path ↔
      SourcePath.isAbsolute name = true ∧ path = name ∨
        SourcePath.isAbsolute name = false ∧ ∃ directory,
          directories[index.toNat]? = some directory ∧ path = SourcePath.join directory name := by
  unfold resolve
  cases SourcePath.isAbsolute name <;> simp [eq_comm]

theorem entryAt_iff (hsound : c.failure = none) :
    EntryAt directories c e entry ↔
      e.bytes <+: c.window ∧ e.Valid directories ∧ entry = e.entry directories := by
  have hnumbers {k : Nat} {bytes rest : List UInt8} {word : UInt64}
      (h : (c.passed k).window = bytes ++ rest) :
      Cursor.uleb128 (c.passed k) = .ok word (c.passed (k + bytes.length)) ↔
        IsUnsigned bytes ∧ word = unsignedWord bytes := by
    rw [← Cursor.passed_passed]
    exact (Cursor.uleb128_accepts (by exact hsound)).passed_iff h
  have hlength : e.bytes.length = e.name.length + 1 + e.directoryIndex.length +
      e.modificationTime.length + e.length.length := by
    simp only [EntryLayout.bytes, List.length_append, List.length_singleton]
    omega
  by_cases hstarts : e.bytes <+: c.window
  · obtain ⟨rest, hrest⟩ := hstarts
    have hindexAt : (c.passed (e.name.length + 1)).window =
        e.directoryIndex ++ (e.modificationTime ++ (e.length ++ rest)) := by
      rw [Cursor.window_passed, ← hrest, EntryLayout.bytes, List.append_assoc]
      simp
    have htimeAt : (c.passed (e.name.length + 1 + e.directoryIndex.length)).window =
        e.modificationTime ++ (e.length ++ rest) := by
      rw [← Cursor.passed_passed, Cursor.window_passed, hindexAt, List.drop_left]
    have hlengthAt : (c.passed (e.name.length + 1 + e.directoryIndex.length +
        e.modificationTime.length)).window = e.length ++ rest := by
      rw [← Cursor.passed_passed, Cursor.window_passed, htimeAt, List.drop_left]
    obtain ⟨path, index, time, length⟩ := entry
    constructor
    · rintro ⟨hstarts, hname, hindexRead, htimeRead, hlengthRead, hpath⟩
      rw [hlength] at hlengthRead
      obtain ⟨hindex, rfl⟩ := (hnumbers hindexAt).mp hindexRead
      obtain ⟨htime, rfl⟩ := (hnumbers htimeAt).mp htimeRead
      obtain ⟨hlast, rfl⟩ := (hnumbers hlengthAt).mp hlengthRead
      have hresolve := resolve_eq_some_iff.mpr hpath
      have hlocated := located_of_resolve hresolve
      rw [resolve_of_located hlocated] at hresolve
      obtain rfl := Option.some.inj hresolve
      exact ⟨hstarts, ⟨hname, hindex, htime, hlast, hlocated⟩, rfl⟩
    · rintro ⟨hstarts, he, hentry⟩
      cases hentry
      refine ⟨hstarts, he.isName, (hnumbers hindexAt).mpr ⟨he.directoryIndex, rfl⟩,
        (hnumbers htimeAt).mpr ⟨he.modificationTime, rfl⟩, ?_,
        resolve_eq_some_iff.mp (resolve_of_located he.located)⟩
      rw [hlength]
      exact (hnumbers hlengthAt).mpr ⟨he.length, rfl⟩
  · exact ⟨fun h => absurd h.isPrefix hstarts, fun h => absurd h.1 hstarts⟩

theorem readEntry_eq_ok_true_iff (hsound : d.cursor.failure = none) :
    readEntry directories d = .ok true d' ↔ ∃ e entry, EntryAt directories d.cursor e entry ∧
      d.files.HasRoom 1 ∧ d' = ⟨d.cursor.passed e.bytes.length, d.files.push entry⟩ := by
  rw [readEntry_eq_ok_iff hsound]
  constructor
  · rintro (⟨hmore, -⟩ | ⟨-, e, rest, hwindow, he, hroom, rfl⟩)
    · cases hmore
    · exact ⟨e, e.entry directories, (entryAt_iff hsound).mpr ⟨⟨rest, hwindow.symm⟩, he, rfl⟩,
        hroom, rfl⟩
  · rintro ⟨e, entry, hentry, hroom, rfl⟩
    obtain ⟨⟨rest, hwindow⟩, he, rfl⟩ := (entryAt_iff hsound).mp hentry
    exact .inr ⟨rfl, e, rest, hwindow.symm, he, hroom, rfl⟩

theorem readEntry_eq_ok_false_iff (hsound : d.cursor.failure = none) :
    readEntry directories d = .ok false d' ↔
      d.cursor.window.head? = some 0 ∧ d' = ⟨d.cursor.passed 1, d.files⟩ := by
  rw [readEntry_eq_ok_iff hsound]
  constructor
  · rintro (⟨-, rest, hwindow, rfl⟩ | ⟨hmore, -⟩)
    · exact ⟨by rw [hwindow]; rfl, rfl⟩
    · cases hmore
  · rintro ⟨hhead, rfl⟩
    obtain ⟨rest, hwindow⟩ := List.head?_eq_some_iff.mp hhead
    exact .inl ⟨rfl, rest, hwindow, rfl⟩

theorem readEntry_of_full (hsound : d.cursor.failure = none)
    (hentry : EntryAt directories d.cursor e entry) {limit : Nat}
    (hfull : d.files.reachedLimit? = some limit) :
    let failure := .fileTableFull (d.cursor.offset + (e.name.length + 1)) limit
    readEntry directories d = .error failure
      ⟨{ d.cursor.passed e.bytes.length with failure := some failure }, d.files⟩ := by
  obtain ⟨rest, hrest⟩ := hentry.isPrefix
  have hname : d.cursor.window =
      (e.name ++ [0]) ++ (e.directoryIndex ++ (e.modificationTime ++ e.length) ++ rest) := by
    rw [← hrest, EntryLayout.bytes, List.append_assoc]
  have htext : Cursor.text d.cursor = .ok e.text (d.cursor.passed (e.name ++ [0]).length) :=
    ((Cursor.text_accepts hsound).passed_iff hname).mpr ⟨e.name, rfl, hentry.isName.2, rfl⟩
  rw [List.length_append, List.length_singleton] at htext
  have hresolve : resolve directories entry.directoryIndex e.text = some entry.path :=
    resolve_eq_some_iff.mpr hentry.path
  rw [readEntry_eq, bind_of_ok (ofRead_of_ok htext), EntryLayout.text, hentry.isName.text_isEmpty,
    if_neg Bool.false_ne_true]
  refine (bind_of_ok (ofRead_of_ok rfl)).trans ((bind_of_ok
    (ofRead_of_ok hentry.directoryIndex)).trans ?_)
  rw [← EntryLayout.text, hresolve]
  refine (bind_of_ok (ofRead_of_ok hentry.modificationTime)).trans ((bind_of_ok
    (ofRead_of_ok hentry.length)).trans (bind_of_error ?_))
  exact (append_of_limit (by exact hfull)).trans
    (ofRead_of_error (Cursor.fail_of_sound (by exact hsound) _))

/-- Reading passes an empty name, or passes and appends a complete entry, or leaves the table alone
and fails with what the cursor records. -/
theorem readEntry_whole_or_nothing (directories : Array String)
    (hsound : d.cursor.failure = none) :
    (∀ d', readEntry directories d = .ok false d' ↔
      d.cursor.window.head? = some 0 ∧ d' = ⟨d.cursor.passed 1, d.files⟩) ∧
    (∀ d', readEntry directories d = .ok true d' ↔
      ∃ e entry, EntryAt directories d.cursor e entry ∧ d.files.HasRoom 1 ∧
        d' = ⟨d.cursor.passed e.bytes.length,
          { d.files with
            visible := d.files.visible.push entry, hidden := d.files.hidden.tail }⟩) ∧
    (d.cursor.window.head? ≠ some 0 →
      ¬(d.files.HasRoom 1 ∧ ∃ e entry, EntryAt directories d.cursor e entry) →
      ∃ failure c', readEntry directories d = .error failure ⟨c', d.files⟩ ∧
        c'.failure = some failure) := by
  refine ⟨fun d' => readEntry_eq_ok_false_iff hsound, fun d' => readEntry_eq_ok_true_iff hsound,
    fun hnamed hincomplete => ?_⟩
  cases h : readEntry directories d with
  | ok more d' =>
    cases more with
    | false => exact absurd ((readEntry_eq_ok_false_iff hsound).mp h).1 hnamed
    | true =>
      obtain ⟨e, entry, hentry, hroom, -⟩ := (readEntry_eq_ok_true_iff hsound).mp h
      exact absurd ⟨hroom, e, entry, hentry⟩ hincomplete
  | error failure d' =>
    have hfiles := readEntry_failsClean directories h
    have hrecorded := (readEntry_disciplined directories).records.error h
    exact ⟨failure, d'.cursor, by rw [← hfiles], hrecorded⟩

/-- An entry whose first number is longer than it need be, and the end of a list behind it. -/
def paddedEntry : Cursor :=
  .ofBytes #[0x62, 0x00, 0x81, 0x00, 0x07, 0x00, 0x00] 0 .little 8

/-- The entry takes the place of a hidden one, and is refused where the table may show no more. -/
theorem readEntry_whole_or_nothing_padded :
    paddedEntry.failure = none ∧
    readEntry #["/w", "/inc"] ⟨paddedEntry, ⟨#[⟨"/w/a", 0, 0, 0⟩], [⟨"/w/c", 0, 0, 0⟩], some 2⟩⟩ =
      .ok true ⟨paddedEntry.passed 6, ⟨#[⟨"/w/a", 0, 0, 0⟩, ⟨"/inc/b", 1, 7, 0⟩], [], some 2⟩⟩ ∧
    ∃ failure c', readEntry #["/w", "/inc"] ⟨paddedEntry, ⟨#[⟨"/w/a", 0, 0, 0⟩], [], some 1⟩⟩ =
      .error failure ⟨c', ⟨#[⟨"/w/a", 0, 0, 0⟩], [], some 1⟩⟩ ∧ c'.failure = some failure := by
  have hsound : paddedEntry.failure = none := rfl
  have hentry : EntryAt #["/w", "/inc"] paddedEntry ⟨[0x62], [0x81, 0x00], [0x07], [0x00]⟩
      ⟨"/inc/b", 1, 7, 0⟩ :=
    ⟨by decide, by simp [IsName], by rfl, by rfl, by rfl,
      .inr ⟨by decide, "/inc", by decide, by decide⟩⟩
  refine ⟨hsound, ?_, ?_⟩
  · exact ((readEntry_whole_or_nothing _ (by exact hsound)).2.1 _).mpr
      ⟨_, _, hentry, by simp [FileTable.HasRoom, FileTable.count], rfl⟩
  · refine (readEntry_whole_or_nothing _ (by exact hsound)).2.2 (by decide) fun h => ?_
    exact absurd (h.1 1 rfl) (by decide)

end Decoder
end DebugLine
