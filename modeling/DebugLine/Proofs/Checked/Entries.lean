import DebugLine.Proofs.Checked.Leb128
import DebugLine.Proofs.Growth

/-!
# Checked file entries

In memory a file table is an array of all entries and the number of those that are visible. The
visible ones are a slice of the array, which is in bounds because no operation shows more entries
than there are. A path is judged absolute by its first three bytes, if it has that many.
-/

namespace DebugLine

variable {α β : Type}

namespace Checked

/-- All entries, and how many of them are visible. -/
structure Table where
  entries : Array FileEntry
  length : Nat
  limit : Option Nat
  deriving Repr, DecidableEq

namespace Table

/-- How a file table lies in memory. -/
def ofTable (t : FileTable) : Table := ⟨t.stored.toArray, t.count, t.limit⟩

def visible (t : Table) : Option (Array FileEntry) := Word.slice t.entries 0 t.length

/-- The file with this number, counted from one. -/
def get? (t : Table) (index : UInt64) : Option (Option FileEntry) :=
  if index = 0 then some none
  else do return (← t.visible)[index.toNat - 1]?

def setLength (t : Table) (n : Nat) : Table := { t with length := min n t.entries.size }

def truncate (t : Table) (n : Nat) : Table := { t with length := min t.length n }

/-- Puts `entry` behind the visible entries, over one that is there or at the end. -/
def push (t : Table) (entry : FileEntry) : Option Table := do
  let entries :=
    if t.length < t.entries.size then t.entries.setIfInBounds t.length entry
    else t.entries.push entry
  return { t with entries, length := ← Word.add 64 t.length 1 }

theorem length_ofTable_le (t : FileTable) : (ofTable t).length ≤ (ofTable t).entries.size := by
  simp [ofTable, FileTable.stored, FileTable.count]

theorem visible_ofTable (t : FileTable) : (ofTable t).visible = some t.visible := by
  rw [visible, Word.slice_of_le (Nat.zero_le _) (length_ofTable_le t)]
  simp [ofTable, FileTable.stored, FileTable.count]

theorem get?_ofTable (t : FileTable) (index : UInt64) :
    (ofTable t).get? index = some (t.get? index) := by
  rw [get?, FileTable.get?, visible_ofTable]
  split_ifs <;> rfl

theorem ofTable_setCount (t : FileTable) (n : Nat) :
    ofTable (t.setCount n) = (ofTable t).setLength n := by
  simp [ofTable, setLength, FileTable.count, FileTable.setCount, FileTable.stored]

theorem ofTable_truncate (t : FileTable) (n : Nat) :
    ofTable (t.truncate n) = (ofTable t).truncate n := by
  rw [FileTable.truncate, ofTable_setCount]
  simp [ofTable, setLength, truncate, FileTable.count, FileTable.stored]

theorem push_ofTable {t : FileTable} (h : t.count + 1 < 2 ^ 64) (entry : FileEntry) :
    (ofTable t).push entry = some (ofTable (t.push entry)) := by
  obtain ⟨visible, hidden, limit⟩ := t
  have hadd : Word.add 64 visible.size 1 = some (visible.size + 1) := Word.add_of_lt h
  simp only [push, ofTable, FileTable.count, hadd]
  cases hidden with
  | nil =>
    have hpush : visible.push entry = (visible.toList ++ [entry]).toArray := by
      apply Array.ext'
      simp
    simp [FileTable.stored, FileTable.push, hpush]
  | cons first hidden => simp [FileTable.stored, FileTable.push, List.set_append_right]

end Table

/-- One of the letters of ASCII. -/
def isLetter (b : UInt8) : Bool := (Char.ofNat b.toNat).isAlpha

/-- Whether a path is absolute: whether it is rooted, or its first three bytes name a drive. -/
def isAbsolute (path : String) : Option Bool := do
  let bytes := path.toUTF8.data
  if SourcePath.isRooted path.toList then return true
  else if bytes.size < 3 then return false
  else
    let drive ← bytes[0]?
    let colon ← bytes[1]?
    let separator ← bytes[2]?
    return isLetter drive && colon == 0x3A && (separator == 0x5C || separator == 0x2F)

theorem toNat_ofNat_of_byte (b : UInt8) : (Char.ofNat b.toNat).val.toNat = b.toNat := by
  have hlt := b.toNat_lt
  have hvalid : b.toNat.isValidChar := .inl (by omega)
  rw [Char.ofNat, dif_pos hvalid]
  rfl

theorem utf8EncodeChar_of_ascii {c : Char} (h : c.val.toNat < 128) :
    String.utf8EncodeChar c = [UInt8.ofNat c.val.toNat] := by
  rw [String.utf8EncodeChar]
  exact if_pos (by omega)

/-- A byte of ASCII in front of text is its first character. -/
theorem eq_cons_of_ascii {cs : List Char} {b : UInt8} {rest : List UInt8} (hb : b.toNat < 128)
    (h : cs.flatMap String.utf8EncodeChar = b :: rest) :
    ∃ cs', cs = Char.ofNat b.toNat :: cs' ∧ cs'.flatMap String.utf8EncodeChar = rest := by
  have hlead : Utf8.lead b = .whole (Char.ofNat b.toNat) := by
    rw [Utf8.lead, if_pos hb]
  have hdecode := Utf8.decode_flatMap cs
  rw [h, Utf8.decode] at hdecode
  simp only [Utf8.decodeFrom, hlead] at hdecode
  cases cs with
  | nil => simp at hdecode
  | cons c cs' =>
    simp only [List.map_cons, List.cons.injEq, Option.some.injEq] at hdecode
    obtain ⟨rfl, -⟩ := hdecode
    have hvalue := toNat_ofNat_of_byte b
    rw [List.flatMap_cons, utf8EncodeChar_of_ascii (by omega), List.singleton_append,
      List.cons.injEq] at h
    exact ⟨cs', rfl, h.2⟩

theorem lt_of_isAlpha {c : Char} (h : c.isAlpha = true) : c.val.toNat < 128 := by
  obtain hupper | hlower := Bool.or_eq_true_iff.mp h
  · have hlast : c.val ≤ 'Z'.val := (of_decide_eq_true hupper).2
    exact (UInt32.le_iff_toNat_le.mp hlast).trans_lt (by decide)
  · have hlast : c.val ≤ 'z'.val := of_decide_eq_true (Bool.and_eq_true_iff.mp hlower).2
    exact (UInt32.le_iff_toNat_le.mp hlast).trans_lt (by decide)

/-- A path that starts with the name of a drive. -/
def NamesDrive (path : List Char) (drive separator : Char) (rest : List Char) : Prop :=
  path = drive :: ':' :: separator :: rest ∧ drive.isAlpha = true ∧
    (separator = '\\' ∨ separator = '/')

theorem isAbsolute_iff (path : String) :
    SourcePath.isAbsolute path = true ↔
      SourcePath.isRooted path.toList = true ∨
        ∃ drive separator rest, NamesDrive path.toList drive separator rest := by
  unfold SourcePath.isAbsolute SourcePath.isRooted NamesDrive
  generalize path.toList = cs
  split
  · simp
  · rename_i drive separator rest hrooted
    have hdrive : drive ≠ '/' := fun h => hrooted h
    simp [hdrive]
  · rename_i hrooted hdrive
    simp only [Bool.false_eq_true, false_iff, not_or, not_exists]
    constructor
    · intro hhead
      cases cs with
      | nil => simp at hhead
      | cons c cs => exact hrooted cs (by simpa using hhead)
    · rintro drive separator rest ⟨rfl, -⟩
      exact hdrive drive separator rest rfl

theorem NamesDrive.bytes_eq {path rest : List Char} {drive separator : Char}
    (h : NamesDrive path drive separator rest) :
    path.flatMap String.utf8EncodeChar =
      UInt8.ofNat drive.val.toNat :: 0x3A :: UInt8.ofNat separator.val.toNat ::
        rest.flatMap String.utf8EncodeChar := by
  obtain ⟨rfl, hdrive, hseparator⟩ := h
  have hlt : separator.val.toNat < 128 := by
    rcases hseparator with rfl | rfl <;> decide
  simp only [List.flatMap_cons, utf8EncodeChar_of_ascii (lt_of_isAlpha hdrive),
    utf8EncodeChar_of_ascii hlt, utf8EncodeChar_of_ascii (show ':'.val.toNat < 128 by decide),
    List.singleton_append]
  rfl

/-- A path starts with the name of a drive where its bytes do. -/
theorem namesDrive_iff {path : List Char} {drive colon separator : UInt8} {rest : List UInt8}
    (h : path.flatMap String.utf8EncodeChar = drive :: colon :: separator :: rest) :
    (isLetter drive && colon == 0x3A && (separator == 0x5C || separator == 0x2F)) = true ↔
      ∃ drive separator rest, NamesDrive path drive separator rest := by
  simp only [Bool.and_eq_true, Bool.or_eq_true, beq_iff_eq]
  constructor
  · rintro ⟨⟨hdrive, rfl⟩, hseparator⟩
    have hlt : drive.toNat < 128 := by
      have hlt := lt_of_isAlpha hdrive
      rwa [toNat_ofNat_of_byte] at hlt
    have hlt' : separator.toNat < 128 := by
      rcases hseparator with rfl | rfl <;> decide
    obtain ⟨path, rfl, hcolon⟩ := eq_cons_of_ascii hlt h
    obtain ⟨path, rfl, hsep⟩ := eq_cons_of_ascii (by decide) hcolon
    obtain ⟨path, rfl, -⟩ := eq_cons_of_ascii hlt' hsep
    refine ⟨Char.ofNat drive.toNat, Char.ofNat separator.toNat, path, ⟨rfl, hdrive, ?_⟩⟩
    rcases hseparator with rfl | rfl
    · exact .inl rfl
    · exact .inr rfl
  · rintro ⟨driveChar, separatorChar, tail, hnames⟩
    rw [hnames.bytes_eq] at h
    obtain ⟨rfl, rfl, rfl, -⟩ := by simpa only [List.cons.injEq] using h
    obtain ⟨-, hdrive, hseparator⟩ := hnames
    refine ⟨⟨?_, rfl⟩, ?_⟩
    · have hlt := lt_of_isAlpha hdrive
      have hbyte : (UInt8.ofNat driveChar.val.toNat).toNat = driveChar.val.toNat := by
        rw [UInt8.toNat_ofNat']
        omega
      rw [isLetter, hbyte]
      exact (congrArg Char.isAlpha (Char.ofNat_toNat driveChar)).trans hdrive
    · rcases hseparator with rfl | rfl
      · exact .inl rfl
      · exact .inr rfl

theorem isAbsolute_eq (path : String) : isAbsolute path = some (SourcePath.isAbsolute path) := by
  have hbytes := Utf8.toUTF8_toList path
  have habsolute := isAbsolute_iff path
  unfold isAbsolute
  generalize path.toUTF8.data = bytes at hbytes
  dsimp only
  split_ifs with hrooted hshort
  · rw [habsolute.mpr (.inl hrooted)]
    rfl
  · have hfalse : SourcePath.isAbsolute path = false := by
      rw [Bool.eq_false_iff, ne_eq, habsolute, not_or]
      refine ⟨hrooted, ?_⟩
      rintro ⟨drive, separator, rest, hnames⟩
      have hlength := congrArg List.length (hbytes.trans hnames.bytes_eq)
      simp only [Array.length_toList, List.length_cons] at hlength
      omega
    rw [hfalse]
    rfl
  · obtain ⟨bytes⟩ := bytes
    obtain _ | ⟨drive, _ | ⟨colon, _ | ⟨separator, rest⟩⟩⟩ := bytes
    · simp at hshort
    · simp at hshort
    · simp at hshort
    · change some (isLetter drive && colon == 0x3A && (separator == 0x5C || separator == 0x2F)) = _
      congr 1
      rw [Bool.eq_iff_iff, habsolute, or_iff_right hrooted]
      exact namesDrive_iff hbytes.symm

/-- A cursor and the file table that it fills. -/
structure Decoder where
  cursor : Cursor
  files : Table
  deriving Repr, DecidableEq

def Decoder.ofDecoder (d : DebugLine.Decoder) : Decoder := ⟨d.cursor, .ofTable d.files⟩

/-- Reading leaves the file table alone. -/
def ofRead (read : Checked Cursor α) : Checked Decoder α :=
  ExceptT.mk <| StateT.mk fun d => do
    let (answer, cursor) ← read.run.run d.cursor
    return (answer, { d with cursor })

def resolve (directories : Array String) (index : UInt64) (name : String) :
    Option (Option String) := do
  if ← isAbsolute name then return some name
  else return directories[index.toNat]?.map fun directory => SourcePath.join directory name

def append (entry : FileEntry) (offset : Nat) : Checked Decoder Unit := do
  let files := (← get).files
  match files.limit.filter (fun limit => limit ≤ files.length) with
  | some limit => ofRead (fail (.fileTableFull offset limit))
  | none =>
    let files ← files.push entry
    modify fun d => { d with files }

def readEntry (directories : Array String) : Checked Decoder Bool := do
  let name ← ofRead text
  if name.isEmpty then
    return false
  else
    let offset := (← get).cursor.offset
    let directoryIndex ← ofRead uleb128
    match ← resolve directories directoryIndex name with
    | none => ofRead (fail (.directoryIndexOutOfRange offset directoryIndex directories.size))
    | some path =>
      let modificationTime ← ofRead uleb128
      let length ← ofRead uleb128
      append { path, directoryIndex, modificationTime, length } offset
      return true

/-- Reads file entries up to an empty name. Having to read more than `most` has no result. -/
def readEntriesWithin (directories : Array String) : (most : Nat) → Checked Decoder Unit
  | 0 => liftM (none : Option Unit)
  | most + 1 => do
    if ← readEntry directories then
      readEntriesWithin directories most

def readEntries (directories : Array String) : Checked Decoder Unit := do
  readEntriesWithin directories ((← get).cursor.remaining + 1)

theorem resolve_eq (directories : Array String) (index : UInt64) (name : String) :
    resolve directories index name = some (DebugLine.Decoder.resolve directories index name) := by
  unfold resolve DebugLine.Decoder.resolve
  rw [isAbsolute_eq]
  cases SourcePath.isAbsolute name <;> rfl

section Decoding

variable {d : DebugLine.Decoder} {x : Checked Cursor α} {y : Read α}

theorem agrees_ofRead (h : Agrees (fun c => c) x y d.cursor) :
    Agrees Decoder.ofDecoder (ofRead x) (Decode.ofRead y) d := by
  unfold Agrees
  change (do
    let (answer, cursor) ← x.run.run d.cursor
    return (answer, { Decoder.ofDecoder d with cursor }) : Option _) = _
  rw [h.run_eq, Decode.ofRead]
  cases y d.cursor <;> rfl

/-- A read, and then what comes behind it, where the cursor is still inside the section. -/
theorem agrees_ofRead_bind {f : α → Checked Decoder β} {g : α → Decode β} (hx : Mirrors x y)
    (hc : d.cursor.InBounds)
    (hf : ∀ a c', y d.cursor = .ok a c' → c'.InBounds →
      Agrees Decoder.ofDecoder (f a) (g a) { d with cursor := c' }) :
    Agrees Decoder.ofDecoder (ofRead x >>= f) (Decode.ofRead y >>= g) d := by
  apply (agrees_ofRead (hx.agrees d.cursor hc)).bind
  intro a t hok
  obtain ⟨c', hread, rfl⟩ := DebugLine.Decoder.ofRead_eq_ok hok
  exact hf a c' hread (hx.inBounds hc hread)

theorem agrees_append (hc : d.cursor.InBounds) (hroom : d.files.count + 1 < 2 ^ 64)
    (entry : FileEntry) (offset : Nat) :
    Agrees Decoder.ofDecoder (append entry offset) (DebugLine.Decoder.append entry offset) d := by
  have hlimit : (Decoder.ofDecoder d).files.limit.filter
      (fun limit => limit ≤ (Decoder.ofDecoder d).files.length) = d.files.reachedLimit? := rfl
  apply Agrees.get_bind
  simp only [hlimit]
  cases d.files.reachedLimit? with
  | some limit => exact agrees_ofRead ((mirrors_fail _).agrees _ hc)
  | none =>
    apply Agrees.done_bind (Table.push_ofTable hroom entry)
    rfl

theorem agrees_readEntry (hc : d.cursor.InBounds) (hroom : d.files.count + 1 < 2 ^ 64)
    (directories : Array String) :
    Agrees Decoder.ofDecoder (readEntry directories)
      (DebugLine.Decoder.readEntry directories) d := by
  apply agrees_ofRead_bind mirrors_text hc
  intro name c' _ hc'
  split_ifs with hempty
  · exact .pure false
  · apply Agrees.get_bind_left
    apply agrees_ofRead_bind mirrors_uleb128 hc'
    intro index c' _ hc'
    apply Agrees.done_bind (resolve_eq directories index name)
    cases DebugLine.Decoder.resolve directories index name with
    | none => exact agrees_ofRead ((mirrors_fail _).agrees _ hc')
    | some path =>
      apply agrees_ofRead_bind mirrors_uleb128 hc'
      intro modificationTime c' _ hc'
      apply agrees_ofRead_bind mirrors_uleb128 hc'
      intro length c' _ hc'
      apply (agrees_append hc' (by exact hroom) _ _).bind
      intro _ _ _
      exact .pure true

/-- Each entry takes a byte, so neither the bound is reached nor is there ever a file too many. -/
theorem agrees_readEntriesWithin (hc : d.cursor.InBounds) (hcount : d.files.count ≤ d.cursor.offset)
    {most : Nat} (hmost : d.cursor.remaining < most) (directories : Array String) :
    Agrees Decoder.ofDecoder (readEntriesWithin directories most)
      (DebugLine.Decoder.readEntriesWithin directories most) d := by
  induction most generalizing d with
  | zero => exact absurd hmost (Nat.not_lt_zero _)
  | succ most ih =>
    have hroom : d.files.count + 1 < 2 ^ 64 := by
      have := hc.offset_le
      have := hc.limit_le
      have := hc.size_lt
      omega
    apply (agrees_readEntry hc hroom directories).bind
    intro more t hok
    have hmove := (DebugLine.Decoder.readEntry_disciplined directories).moves d
    have hpace := DebugLine.Decoder.readEntry_paced directories d
    rw [hok] at hmove hpace
    have hlt := DebugLine.Decoder.readEntry_progress hok
    have ht := hc.onward hmove.cursor
    have hlimit := hmove.cursor.limit_eq
    simp only [EStateM.Result.state_ok] at hlimit ht
    split_ifs
    · apply ih ht
      · unfold DebugLine.Decoder.Paced at hpace
        simp only [EStateM.Result.state_ok] at hpace
        omega
      · rw [Cursor.remaining] at hmost ⊢
        have := ht.offset_le
        omega
    · exact .pure ()

theorem agrees_readEntries (hc : d.cursor.InBounds) (hcount : d.files.count ≤ d.cursor.offset)
    (directories : Array String) :
    Agrees Decoder.ofDecoder (readEntries directories)
      (DebugLine.Decoder.readEntries directories) d := by
  apply Agrees.get_bind
  exact agrees_readEntriesWithin hc hcount (Nat.lt_succ_self _) directories

end Decoding

end Checked
end DebugLine
