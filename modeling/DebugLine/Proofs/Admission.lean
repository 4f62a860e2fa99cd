import DebugLine.Proofs.HeaderReading
import DebugLine.Proofs.Preservation

/-!
# Which files enter a table

A file enters a table only under a path that its name resolves to, and only where there is room for
it. What such a file does not break holds of the table of a header, and of that of a program.
-/

namespace DebugLine

variable {directories : Array String} {F : FileTable → Prop}

/-- The path of the entry is a name, resolved in the directory with the index that it gives. -/
def FileEntry.NamedIn (directories : Array String) (e : FileEntry) : Prop :=
  ∃ name, name ≠ "" ∧ Decoder.resolve directories e.directoryIndex name = some e.path

namespace FileTable

variable {t : FileTable} {entry : FileEntry}

/-- Every stored file is named in the directories. -/
def NamedIn (directories : Array String) (t : FileTable) : Prop :=
  ∀ e ∈ t.stored, e.NamedIn directories

/-- No more files are stored than may be visible. -/
def Bounded (t : FileTable) : Prop := ∀ most, t.limit = some most → t.stored.length ≤ most

/-- A file that is named in the directories, and that there is room for, does not break `F`. -/
def Admits (directories : Array String) (F : FileTable → Prop) : Prop :=
  ∀ t entry, t.HasRoom 1 → entry.NamedIn directories → F t → F (t.push entry)

theorem stored_push (t : FileTable) (entry : FileEntry) :
    (t.push entry).stored = t.visible.toList ++ entry :: t.hidden.tail := by
  simp [stored, push]

theorem namedIn_admits (directories : Array String) : Admits directories (NamedIn directories) := by
  intro t entry _ hentry ht e he
  rw [stored_push, List.mem_append, List.mem_cons] at he
  rcases he with he | rfl | he
  · exact ht e (List.mem_append_left _ he)
  · exact hentry
  · exact ht e (List.mem_append_right _ (List.mem_of_mem_tail he))

/-- A file takes the place of a hidden one, or comes behind all visible ones. -/
theorem length_stored_push (t : FileTable) (entry : FileEntry) :
    (t.push entry).stored.length = max (t.count + 1) t.stored.length := by
  rw [stored_push, stored, List.length_append, List.length_cons, List.length_tail,
    List.length_append, Array.length_toList, count]
  omega

theorem Bounded.push (ht : t.Bounded) (hroom : t.HasRoom 1) : (t.push entry).Bounded := by
  intro most hmost
  rw [length_stored_push]
  exact max_le (hroom most hmost) (ht most hmost)

theorem bounded_admits (directories : Array String) : Admits directories Bounded :=
  fun _ _ hroom _ ht => ht.push hroom

theorem Bounded.count_le (ht : t.Bounded) {most : Nat} (hmost : t.limit = some most) :
    t.count ≤ most :=
  t.count_le_length_stored.trans (ht most hmost)

end FileTable

namespace Decoder

theorem ofRead_preserves {α : Type} (x : Read α) :
    Moves (Preserved fun d : Decoder => F d.files) (Decode.ofRead x) := by
  intro d hd
  unfold Decode.ofRead
  cases x d.cursor <;> exact hd

theorem append_preserves (hF : FileTable.Admits directories F) {entry : FileEntry}
    (hentry : entry.NamedIn directories) (offset : Nat) :
    Moves (Preserved fun d => F d.files) (append entry offset) := by
  intro d hd
  cases hlimit : d.files.reachedLimit? with
  | some limit =>
    rw [append_of_limit hlimit]
    exact ofRead_preserves _ d hd
  | none =>
    rw [append_of_room hlimit]
    exact hF d.files entry (FileTable.reachedLimit?_eq_none_iff.mp hlimit) hentry hd

theorem readEntry_preserves (hF : FileTable.Admits directories F) :
    Moves (Preserved fun d => F d.files) (readEntry directories) := by
  apply (ofRead_preserves _).bind
  intro name
  split_ifs with hname
  · exact .pure false
  · apply (ofRead_preserves _).bind
    intro offset
    apply (ofRead_preserves _).bind
    intro index
    cases hpath : resolve directories index name with
    | none => exact ofRead_preserves _
    | some path =>
      have hname : name ≠ "" := by simpa [String.isEmpty_iff] using hname
      exact (ofRead_preserves _).bind fun _ => (ofRead_preserves _).bind fun _ =>
        (append_preserves hF ⟨name, hname, hpath⟩ _).bind fun _ => .pure true

theorem readEntriesWithin_preserves (hF : FileTable.Admits directories F) (most : Nat) :
    Moves (Preserved fun d => F d.files) (readEntriesWithin directories most) := by
  induction most with
  | zero => exact .pure ()
  | succ most ih =>
    apply (readEntry_preserves hF).bind
    intro more
    split_ifs
    · exact ih
    · exact .pure ()

theorem readEntries_preserves (hF : FileTable.Admits directories F) :
    Moves (Preserved fun d => F d.files) (readEntries directories) :=
  Moves.get.bind fun _ => readEntriesWithin_preserves hF _

end Decoder

theorem Header.read_preserves (hF : ∀ directories, FileTable.Admits directories F)
    (compDir : String) (check : Bool) :
    Moves (Preserved fun d : Decoder => F d.files) (read compDir check) :=
  (Decoder.ofRead_preserves _).bind fun _ => (Decoder.ofRead_preserves _).bind fun ⟨_, _⟩ =>
    (Decoder.ofRead_preserves _).bind fun _ => (Decoder.ofRead_preserves _).bind fun _ =>
      (Decoder.ofRead_preserves _).bind fun ⟨_, _⟩ => (Decoder.ofRead_preserves _).bind fun _ =>
        (Decoder.ofRead_preserves _).bind fun _ => (Decoder.ofRead_preserves _).bind fun _ =>
          (Decoder.readEntries_preserves (hF _)).bind fun _ => Moves.get.bind fun _ => .pure _

theorem Instruction.decode_preserves {h : Header}
    (hF : FileTable.Admits h.includeDirectories F) :
    Moves (Preserved fun d => F d.files) (decode h) :=
  decode_moves (fun _ => Decoder.ofRead_preserves _) (Decoder.readEntry_preserves hF)

end DebugLine
