import DebugLine.Proofs.Admission
import DebugLine.Proofs.Opening
import DebugLine.Proofs.SourcePaths
import DebugLine.Proofs.UnitLayout

/-!
# Which paths are absolute

Every file that a machine stores, shown or hidden, got its path from a name that was resolved in the
include directories of the header. So where the compilation directory is absolute, every path is
absolute that was not joined from a name that leads off a drive.
-/

namespace DebugLine

variable {directories : Array String} {compDir : String}

namespace Header

/-- The include directories are the compilation directory and those that were named. -/
def ListsDirectories (compDir : String) (directories : Array String) : Prop :=
  ∃ names : List String, (∀ name ∈ names, name ≠ "") ∧
    directories = (compDir :: names.map (directoryPath compDir)).toArray

theorem of_readDirectoriesWithin {most : Nat} {c c' : Cursor} {rest : List String}
    (h : readDirectoriesWithin compDir most c = .ok rest c') :
    ∃ names : List String, (∀ name ∈ names, name ≠ "") ∧
      rest = names.map (directoryPath compDir) := by
  induction most generalizing c rest with
  | zero =>
    cases h
    exact ⟨[], by simp, rfl⟩
  | succ most ih =>
    obtain ⟨name, t, -, h⟩ := bind_eq_ok.mp h
    split_ifs at h with hname
    · cases h
      exact ⟨[], by simp, rfl⟩
    · obtain ⟨rest, u, hrest, h⟩ := bind_eq_ok.mp h
      cases h
      obtain ⟨names, hnames, rfl⟩ := ih hrest
      refine ⟨name :: names, List.forall_mem_cons.mpr ⟨?_, hnames⟩, rfl⟩
      simpa [String.isEmpty_iff] using hname

theorem of_readInside_names {check : Bool} {offset unitLength endOffset : Nat} {format : Format}
    {d d' : Decoder} {header : Header} (hd : d.files.stored = [])
    (h : readInside compDir check offset format unitLength endOffset d = .ok header d') :
    ListsDirectories compDir header.includeDirectories ∧
      d'.files.NamedIn header.includeDirectories := by
  obtain ⟨version, _, -, h⟩ := Decoder.ofRead_bind_eq_ok h
  obtain ⟨⟨headerLength, programOffset⟩, _, -, h⟩ := Decoder.ofRead_bind_eq_ok h
  obtain ⟨parameters, _, -, h⟩ := Decoder.ofRead_bind_eq_ok h
  obtain ⟨lengths, _, -, h⟩ := Decoder.ofRead_bind_eq_ok h
  obtain ⟨rest, _, hrest, h⟩ := Decoder.ofRead_bind_eq_ok h
  obtain ⟨names, hnames, rfl⟩ := of_readDirectoriesWithin hrest
  obtain ⟨_, t, hentries, h⟩ := bind_eq_ok.mp h
  cases h
  have hempty (directories : Array String) : d.files.NamedIn directories := by
    simp [FileTable.NamedIn, hd]
  refine ⟨⟨names, hnames, rfl⟩, ?_⟩
  exact (Decoder.readEntries_preserves (FileTable.namedIn_admits _)).of_ok hentries (hempty _)

theorem of_read_names {check : Bool} {d d' : Decoder} {header : Header}
    (hd : d.files.stored = []) (h : read compDir check d = .ok header d') :
    ListsDirectories compDir header.includeDirectories ∧
      d'.files.NamedIn header.includeDirectories := by
  obtain ⟨offset, _, -, h⟩ := Decoder.ofRead_bind_eq_ok h
  obtain ⟨⟨format, unitLength⟩, _, -, h⟩ := Decoder.ofRead_bind_eq_ok h
  obtain ⟨endOffset, _, -, h⟩ := Decoder.ofRead_bind_eq_ok h
  exact of_readInside_names (by exact hd) h

end Header

namespace Machine

/-- The header lists its directories, and every file that the machine stores is named in them. -/
structure Named (compDir : String) (m : Machine) : Prop where
  directories : Header.ListsDirectories compDir m.header.includeDirectories
  files : m.files.NamedIn m.header.includeDirectories

theorem named_step : Moves (Preserved (Named compDir)) step := by
  refine (step_keeps (R := fun _ => True) (fun m hm => ?_) fun m instruction hm =>
    ⟨⟨hm.directories, hm.files⟩, fun _ _ => trivial⟩).moves
  have hdecode :=
    Instruction.decode_preserves (FileTable.namedIn_admits m.header.includeDirectories)
  exact ⟨hm.directories, hdecode m.toDecoder hm.files⟩

theorem named_invariant : Invariant (Named compDir) where
  step := named_step
  restored m position h := ⟨h.directories, by
    simpa [FileTable.NamedIn, restored] using h.files⟩
  rewound m h := ⟨h.directories, by
    simpa [FileTable.NamedIn, rewound, FileTable.truncate] using h.files⟩

theorem named_of_ofUnit {unit : CompileUnit} {bytes : Array UInt8} {settings : Settings}
    {start : Machine} (h : ofUnit unit bytes settings = .ok (some start)) :
    start.Named unit.directory := by
  obtain ⟨offset, header, d, hread, rfl⟩ := of_ofUnit h
  obtain ⟨hdirectories, hfiles⟩ := Header.of_read_names rfl hread
  exact named_invariant.rewound _ ⟨hdirectories, hfiles⟩

end Machine

open SourcePath (isAbsolute isRooted join LeadsOffDrive KeepsDrive)

theorem Header.ListsDirectories.absolute {directory : String}
    (h : ListsDirectories compDir directories) (hcompDir : isAbsolute compDir = true)
    (hmem : directory ∈ directories) :
    isAbsolute directory = true ∨ ∃ name, name ≠ "" ∧ isAbsolute name = false ∧
      directory = join compDir name ∧ LeadsOffDrive compDir name := by
  obtain ⟨names, hnames, rfl⟩ := h
  simp only [List.mem_toArray, List.mem_cons, List.mem_map] at hmem
  rcases hmem with rfl | ⟨name, hname, rfl⟩
  · exact .inl hcompDir
  · unfold directoryPath
    cases habsolute : isAbsolute name with
    | true => exact .inl habsolute
    | false =>
      by_cases hleads : LeadsOffDrive compDir name
      · exact .inr ⟨name, hnames name hname, habsolute, rfl, hleads⟩
      · exact .inl ((SourcePath.isAbsolute_join_iff hcompDir).mpr hleads)

theorem FileEntry.NamedIn.absolute {e : FileEntry} (h : e.NamedIn directories) :
    isAbsolute e.path = true ∨ ∃ directory name,
      directories[e.directoryIndex.toNat]? = some directory ∧ name ≠ "" ∧
        isAbsolute name = false ∧ e.path = join directory name ∧
        (isAbsolute directory = true → LeadsOffDrive directory name) := by
  obtain ⟨name, hname, hresolve⟩ := h
  unfold Decoder.resolve at hresolve
  split_ifs at hresolve with habsolute
  · cases hresolve
    exact .inl habsolute
  · obtain ⟨directory, hdirectory, hpath⟩ := Option.map_eq_some_iff.mp hresolve
    by_cases hleads : isAbsolute directory = true → LeadsOffDrive directory name
    · exact .inr ⟨directory, name, hdirectory, hname, by simpa using habsolute, hpath.symm, hleads⟩
    · obtain ⟨hdirectory, hstays⟩ := Classical.not_imp.mp hleads
      rw [← hpath]
      exact .inl ((SourcePath.isAbsolute_join_iff hdirectory).mpr hstays)

namespace Session

/-- In a unit whose compilation directory is absolute, whatever is done to a machine, a path is
absolute unless it was joined from a name that leads off the drive of its directory. From a
directory at the root no name does so, and on a drive none that keeps the drive. -/
theorem paths_absolute {unit : CompileUnit} {bytes : Array UInt8} {settings : Settings}
    {start : Machine} (hcompDir : isAbsolute unit.directory = true)
    (hopen : Machine.ofUnit unit bytes settings = .ok (some start)) (operations : List Operation) :
    let m := ((ofMachine start).after operations).machine
    (∀ directory ∈ m.header.includeDirectories, isAbsolute directory = true ∨
      ∃ name, name ≠ "" ∧ isAbsolute name = false ∧ directory = join unit.directory name ∧
        LeadsOffDrive unit.directory name) ∧
    (∀ e ∈ m.files.visible, isAbsolute e.path = true ∨
      ∃ directory name, m.header.includeDirectories[e.directoryIndex.toNat]? = some directory ∧
        name ≠ "" ∧ isAbsolute name = false ∧ e.path = join directory name ∧
        (isAbsolute directory = true → LeadsOffDrive directory name)) ∧
    ∀ directory name, isAbsolute directory = true →
      (isAbsolute (join directory name) = true ↔ ¬LeadsOffDrive directory name) ∧
      (isRooted directory.toList = true ∨ KeepsDrive directory name →
        ¬LeadsOffDrive directory name) := by
  intro m
  have hm : m.Named unit.directory :=
    after_preserved Machine.named_invariant _ (Machine.named_of_ofUnit hopen) operations
  refine ⟨fun directory hmem => hm.directories.absolute hcompDir hmem, fun e he => ?_,
    fun directory name hdirectory => ⟨SourcePath.isAbsolute_join_iff hdirectory, ?_⟩⟩
  · exact (hm.files e (List.mem_append_left _ (Array.mem_toList_iff.mpr he))).absolute
  · rintro (hroot | hkeeps)
    · exact fun hleads => Bool.false_ne_true (hleads.1.symm.trans hroot)
    · exact hkeeps.not_leadsOffDrive hdirectory

/-- The header names a file that lies above the drive, and the program defines one in a directory
next to the compilation directory. -/
def climbing : Assembly :=
  [.copy, .defineFile "b.c" 1 0 0, .endSequence].foldl Assembly.emit
    { Assembly.empty with directories := ["../lib"], files := [("../../a.c", 0)] }

def climbingUnit : CompileUnit := { climbing.unit 0 with compDir := some "C:/src" }

/-- The path of the first file is not absolute, so its name led off the drive. The directory of the
second is on the drive, and its name keeps to it. -/
theorem paths_absolute_climbing :
    ∃ start, isAbsolute climbingUnit.directory = true ∧
      Machine.ofUnit climbingUnit climbing.encode.toArray .unset = .ok (some start) ∧
      let m := ((ofMachine start).after [.rows 2, .reset, .seekPc 0, .nextRow]).machine
      m.files.visible.map FileEntry.path = #["a.c", "C:/lib/b.c"] ∧
      (∃ directory name, m.header.includeDirectories[0]? = some directory ∧
        "a.c" = join directory name ∧ LeadsOffDrive directory name) ∧
      ¬LeadsOffDrive "C:/lib" "b.c" := by
  have hcompDir : isAbsolute climbingUnit.directory = true := by decide
  obtain ⟨start, hopen, hfiles, hdirectories, hpaths⟩ : ∃ start,
      Machine.ofUnit climbingUnit climbing.encode.toArray .unset = .ok (some start) ∧
      let m := ((ofMachine start).after [.rows 2, .reset, .seekPc 0, .nextRow]).machine
      m.files.visible = #[⟨"a.c", 0, 0, 0⟩, ⟨"C:/lib/b.c", 1, 0, 0⟩] ∧
      m.header.includeDirectories = #["C:/src", "C:/lib"] ∧
      m.files.visible.map FileEntry.path = #["a.c", "C:/lib/b.c"] :=
    Machine.exists_of_opened (by decide +kernel)
  obtain ⟨-, hentries, hjoined⟩ :=
    paths_absolute hcompDir hopen [.rows 2, .reset, .seekPc 0, .nextRow]
  refine ⟨start, hcompDir, hopen, hpaths, ?_, ?_⟩
  · obtain habsolute | ⟨directory, name, hdirectory, -, -, hpath, hleads⟩ :=
      hentries ⟨"a.c", 0, 0, 0⟩ (by simp [hfiles])
    · exact absurd habsolute (by decide)
    · refine ⟨directory, name, hdirectory, hpath, hleads ?_⟩
      rw [hdirectories] at hdirectory
      cases hdirectory
      decide
  · refine (hjoined "C:/lib" "b.c" (by decide)).2 (.inr ⟨?_, .inr (by decide)⟩)
    intro front hfront
    rw [← List.mem_inits] at hfront
    revert front
    decide

/-- A file whose name climbs off the drive of the compilation directory has a path that is not
absolute. -/
theorem paths_absolute_fails_climbing :
    ∃ start, Machine.ofUnit climbingUnit climbing.encode.toArray .unset = .ok (some start) ∧
      isAbsolute climbingUnit.directory = true ∧
      (∃ e ∈ start.files.visible, isAbsolute e.path = false) ∧
      isAbsolute "C:/src" = true ∧ isAbsolute "../../a.c" = false ∧
      isAbsolute (join "C:/src" "../../a.c") = false :=
  Machine.exists_of_opened (by decide +kernel)

end Session
end DebugLine
