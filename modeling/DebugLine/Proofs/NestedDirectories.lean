import DebugLine.Assembly
import DebugLine.Proofs.EntryReading
import DebugLine.Proofs.HeaderLayout
import DebugLine.Proofs.NormalPaths

/-!
# A name in a nested directory

A name leads on from where its directory leads. So a name in a directory that itself lies in another
one gives the same path in two stages as in one: the directory is normalized in between, and still
leads to the same place. The files of a header are resolved in two stages, the include directory
first.
-/

namespace DebugLine

namespace SourcePath

variable {outer directory name name' : String}

theorem isRooted_joined (directory : String) (hname : isRooted name.toList = false) :
    isRooted (joined directory name) = isRooted directory.toList := by
  unfold joined
  split_ifs with hempty
  · rw [hname, String.isEmpty_iff.mp hempty]
    rfl
  · have hne : directory.toList ≠ [] := fun hnil => hempty (by simpa using hnil)
    obtain ⟨c, cs, hcs⟩ := List.exists_cons_of_ne_nil hne
    rw [hcs]
    rfl

theorem place_joined (directory : String) (hname : isRooted name.toList = false)
    (stack : List Component) :
    place (joined directory name) stack = place name.toList (place directory.toList stack) := by
  have hfrom (stack : List Component) :
      place name.toList stack = (components name.toList).foldl enter stack := by
    rw [place, hname]
    rfl
  rw [hfrom, place, isRooted_joined directory hname]
  by_cases hempty : directory.isEmpty = true
  · rw [joined, if_pos hempty, String.isEmpty_iff.mp hempty]
    rfl
  · rw [joined, if_neg hempty, components_append, List.foldl_append]
    rfl

theorem isRooted_join (directory : String) (hname : isRooted name.toList = false) :
    isRooted (join directory name).toList = isRooted directory.toList := by
  rw [toList_join, isRooted_normalize, isRooted_joined directory hname]

theorem place_join (directory : String) (hname : isRooted name.toList = false)
    (stack : List Component) :
    place (join directory name).toList stack =
      place name.toList (place directory.toList stack) := by
  rw [toList_join, place_normalize, place_joined directory hname]

theorem join_congr (directory : String) (hname : isRooted name.toList = false)
    (hname' : isRooted name'.toList = false)
    (h : ∀ stack, place name.toList stack = place name'.toList stack) :
    join directory name = join directory name' := by
  have hroot := (isRooted_joined directory hname).trans (isRooted_joined directory hname').symm
  refine (join_eq_iff hroot).mpr fun stack => ?_
  rw [place_joined directory hname, place_joined directory hname', h]

/-- It does not matter which of two directories a name is joined to first. -/
theorem join_assoc (outer : String) (hdirectory : isRooted directory.toList = false)
    (hname : isRooted name.toList = false) :
    join (join outer directory) name = join outer (join directory name) := by
  have hjoin : isRooted (join directory name).toList = false :=
    (isRooted_join directory hname).trans hdirectory
  have hroot : isRooted (joined (join outer directory) name) =
      isRooted (joined outer (join directory name)) := by
    rw [isRooted_joined _ hname, isRooted_join outer hdirectory, isRooted_joined _ hjoin]
  refine (join_eq_iff hroot).mpr fun stack => ?_
  rw [place_joined _ hname, place_join outer hdirectory, place_joined _ hjoin,
    place_join directory hname]

theorem toList_append_slash (hdirectory : directory ≠ "") (name : String) :
    (directory ++ "/" ++ name).toList = joined directory name := by
  rw [joined, if_neg (mt String.isEmpty_iff.mp hdirectory), String.toList_append,
    String.toList_append, List.append_assoc]
  rfl

theorem join_append_slash (outer : String) (hne : directory ≠ "")
    (hdirectory : isRooted directory.toList = false) (hname : isRooted name.toList = false) :
    join outer (directory ++ "/" ++ name) = join outer (join directory name) := by
  have htext := toList_append_slash hne name
  refine join_congr outer ?_ ((isRooted_join directory hname).trans hdirectory) fun stack => ?_
  · rw [htext, isRooted_joined directory hname, hdirectory]
  · rw [htext, toList_join, place_normalize]

theorem isRooted_of_isAbsolute_eq_false (h : isAbsolute name = false) :
    isRooted name.toList = false := by
  by_contra hroot
  have habsolute := isAbsolute_of_isRooted (Bool.eq_true_of_not_eq_false hroot)
  rw [String.ofList_toList, h] at habsolute
  cases habsolute

end SourcePath

open SourcePath (isRooted isAbsolute join)

/-- Where an entry names a relative file in a relative include directory, the path is the one that
both names together give in the compilation directory. -/
def HeaderLayout.FoundAtOnce (compDir : String) (l : HeaderLayout) (e : EntryLayout)
    (path : String) : Prop :=
  ∀ i directory, (Leb128.unsignedWord e.directoryIndex).toNat = i + 1 →
    l.directories[i]? = some directory → isAbsolute (Utf8.decodeLossy directory) = false →
    isAbsolute e.text = false →
    path = join compDir (Utf8.decodeLossy directory ++ "/" ++ e.text)

variable {order : ByteOrder} {compDir : String} {check : Bool} {limit : Option Nat}

theorem HeaderLayout.Valid.foundAtOnce {l : HeaderLayout} (hl : l.Valid order compDir check limit)
    (e : EntryLayout) : l.FoundAtOnce compDir e (e.path (l.includeDirectories compDir)) := by
  intro i directory hindex hdirectory hrelative htext
  have hlisted : (l.includeDirectories compDir)[i + 1]? =
      some (join compDir (Utf8.decodeLossy directory)) := by
    simp [includeDirectories, hdirectory, Header.directoryPath, hrelative]
  have hname : IsName directory := hl.directories directory (List.mem_of_getElem? hdirectory)
  have hne : Utf8.decodeLossy directory ≠ "" := mt Utf8.decodeLossy_eq_empty_iff.mp hname.1
  have hroot := SourcePath.isRooted_of_isAbsolute_eq_false hrelative
  have hroot' := SourcePath.isRooted_of_isAbsolute_eq_false htext
  rw [EntryLayout.path, htext, if_neg Bool.false_ne_true, hindex, hlisted, Option.getD_some,
    SourcePath.join_assoc compDir hroot hroot',
    SourcePath.join_append_slash compDir hne hroot hroot']

namespace Header

open Decoder (readEntry EntryAt)

/-- A relative name in a relative directory gives one path, whether the directory is joined to the
compilation directory before or after, or both names are joined to it as they are written. So the
files of a header, and those that are read with its directories later, get the paths that they
would get at once. -/
theorem files_found_at_once (compDir : String) :
    (∀ directory name, directory ≠ "" → isRooted directory.toList = false →
      isRooted name.toList = false →
      join (join compDir directory) name = join compDir (directory ++ "/" ++ name) ∧
      join compDir (directory ++ "/" ++ name) = join compDir (join directory name)) ∧
    ∀ check limit (bytes : Array UInt8) offset order addressSize header d,
      bytes.size < UInt64.size - 1 →
      read compDir check ⟨Cursor.ofBytes bytes offset order addressSize, .empty limit⟩ =
        .ok header d →
      ∃ l : HeaderLayout, l.Valid order compDir check limit ∧ l.LiesAt order bytes offset ∧
        List.Forall₂ (fun e entry => l.FoundAtOnce compDir e entry.path)
          l.files d.files.visible.toList ∧
        ∀ t t', readEntry header.includeDirectories t = .ok true t' → ∃ e entry,
          EntryAt header.includeDirectories t.cursor e entry ∧ t'.files = t.files.push entry ∧
            l.FoundAtOnce compDir e entry.path := by
  constructor
  · intro directory name hne hdirectory hname
    have hslash := SourcePath.join_append_slash compDir hne hdirectory hname
    exact ⟨(SourcePath.join_assoc compDir hdirectory hname).trans hslash.symm, hslash⟩
  · intro check limit bytes offset order addressSize header d hbytes hread
    obtain ⟨l, hl, hat, rfl, rfl⟩ := layout_of_read hbytes hread
    refine ⟨l, hl, hat, ?_, fun t t' hentry => ?_⟩
    · change List.Forall₂ _ l.files (l.files.map _)
      rw [List.forall₂_map_right_iff]
      exact List.forall₂_same.mpr fun e _ => hl.foundAtOnce e
    · have hsound := Decoder.sound_of_readEntry hentry
      obtain ⟨e, entry, hentryAt, -, rfl⟩ := (Decoder.readEntry_eq_ok_true_iff hsound).mp hentry
      obtain ⟨-, -, rfl⟩ := (Decoder.entryAt_iff hsound).mp hentryAt
      exact ⟨e, _, hentryAt, rfl, hl.foundAtOnce e⟩

/-- A file next to an include directory that lies next to the compilation directory. -/
def neighbouring : Assembly :=
  { Assembly.empty with directories := ["../lib/./x"], files := [("../..//a.c", 1)] }

/-- The directory leaves the compilation directory, and the name leaves all that the directory
descends to. -/
theorem files_found_at_once_neighbouring :
    join (join "C:/src" "../lib/./x") "../..//a.c" =
      join "C:/src" ("../lib/./x" ++ "/" ++ "../..//a.c") ∧
    ∃ header d,
      read "C:/src" true ⟨Cursor.ofBytes neighbouring.encode.toArray 0 .little 8, .empty none⟩ =
        .ok header d ∧
      d.files.visible.map FileEntry.path = #["C:/a.c"] ∧
      ∃ l : HeaderLayout, l.LiesAt .little neighbouring.encode.toArray 0 ∧
        List.Forall₂ (fun e entry => l.FoundAtOnce "C:/src" e entry.path)
          l.files d.files.visible.toList := by
  obtain ⟨hstages, hfound⟩ := files_found_at_once "C:/src"
  have hjoin := hstages "../lib/./x" "../..//a.c" (by decide) (by decide) (by decide)
  obtain ⟨header, d, hread, hpaths⟩ : ∃ header d,
      read "C:/src" true ⟨Cursor.ofBytes neighbouring.encode.toArray 0 .little 8, .empty none⟩ =
        .ok header d ∧ d.files.visible.map FileEntry.path = #["C:/a.c"] :=
    EStateM.Result.exists_of_ran (by decide +kernel)
  obtain ⟨l, -, hat, hfiles, -⟩ := hfound _ _ _ _ _ _ _ _ (by decide) hread
  exact ⟨hjoin.1, header, d, hread, hpaths, l, hat, hfiles⟩

end Header
end DebugLine
