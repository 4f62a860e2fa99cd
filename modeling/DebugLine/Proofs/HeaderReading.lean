import DebugLine.Proofs.HeaderFields

/-!
# Reading a header front to back

Reading a header moves on, records its failure and sees no hidden file, except that entering the
unit limits what may be read from then on. What has been read is in order: nothing that the machine
cannot divide or count by gets into a header, and the program lies inside the unit, which lies
inside the section.
-/

namespace DebugLine.Header

variable {compDir : String} {check : Bool}

theorem readInitialLength_disciplined (offset : Nat) :
    Cursor.Disciplined (readInitialLength offset) := by
  apply Cursor.uint32_disciplined.bind
  intro value
  split_ifs
  · exact (Cursor.number_disciplined _).bind fun _ => .pure _
  · exact (Cursor.require_disciplined _ _).bind fun _ => .pure _

theorem readVersion_disciplined (offset : Nat) : Cursor.Disciplined (readVersion offset) :=
  Cursor.uint16_disciplined.bind fun _ => (Cursor.require_disciplined _ _).bind fun _ => .pure _

theorem readProgramStart_disciplined (offset unitEnd : Nat) (format : Format) :
    Cursor.Disciplined (readProgramStart offset unitEnd format) :=
  (Cursor.number_disciplined _).bind fun _ => Cursor.position_disciplined.bind fun _ =>
    (Cursor.require_disciplined _ _).bind fun _ => .pure _

theorem readMaximumOperations_disciplined (version : UInt16) :
    Cursor.Disciplined (readMaximumOperations version) := by
  unfold readMaximumOperations
  split_ifs
  · exact Cursor.uint8_disciplined
  · exact .pure 1

theorem readParameters_disciplined (offset : Nat) (version : UInt16) :
    Cursor.Disciplined (readParameters offset version) := by
  have huint8 := Cursor.uint8_disciplined
  have hrequire (p : Prop) [Decidable p] (e : LineError) := Cursor.require_disciplined p e
  exact huint8.bind fun _ => (readMaximumOperations_disciplined version).bind fun _ =>
    huint8.bind fun _ => huint8.bind fun _ => huint8.bind fun _ => (hrequire _ _).bind fun _ =>
      (hrequire _ _).bind fun _ => huint8.bind fun _ => (hrequire _ _).bind fun _ => .pure _

theorem checkLengths_disciplined (offset : Nat) (lengths : List UInt8) :
    Cursor.Disciplined (checkLengths offset lengths) := by
  unfold checkLengths
  cases mismatch? 1 lengths with
  | none => exact .pure ()
  | some found => exact Cursor.fail_disciplined _

theorem readOpcodeLengths_disciplined (offset : Nat) (check : Bool) (opcodeBase : UInt8) :
    Cursor.Disciplined (readOpcodeLengths offset check opcodeBase) := by
  apply (Cursor.times_disciplined Cursor.uint8_disciplined _).bind
  intro lengths
  split_ifs
  · exact (checkLengths_disciplined offset lengths).bind fun _ => .pure lengths
  · exact .pure lengths

theorem readDirectoriesWithin_disciplined (compDir : String) (most : Nat) :
    Cursor.Disciplined (readDirectoriesWithin compDir most) := by
  induction most with
  | zero => exact .pure []
  | succ most ih =>
    apply Cursor.text_disciplined.bind
    intro name
    split_ifs
    · exact .pure []
    · exact ih.bind fun _ => .pure _

theorem readDirectories_disciplined (compDir : String) :
    Cursor.Disciplined (readDirectories compDir) :=
  Cursor.get_bind_disciplined fun _ => readDirectoriesWithin_disciplined compDir _

theorem readInside_disciplined (compDir : String) (check : Bool) (offset : Nat) (format : Format)
    (unitLength endOffset : Nat) :
    Decoder.Disciplined (readInside compDir check offset format unitLength endOffset) :=
  (Decoder.ofRead_disciplined (readVersion_disciplined offset)).bind fun version =>
    (Decoder.ofRead_disciplined (readProgramStart_disciplined offset endOffset format)).bind
      fun ⟨_, _⟩ =>
    (Decoder.ofRead_disciplined (readParameters_disciplined offset version)).bind fun _ =>
    (Decoder.ofRead_disciplined (readOpcodeLengths_disciplined offset check _)).bind fun _ =>
    (Decoder.ofRead_disciplined (readDirectories_disciplined compDir)).bind fun _ =>
    (Decoder.readEntries_disciplined _).bind fun _ => .get_bind (fun _ => rfl) fun _ => .pure _

section Entering

variable {c c' : Cursor} {offset unitLength unitEnd : Nat}

theorem enterUnit_eq_ok (h : enterUnit offset unitLength c = .ok unitEnd c') :
    unitEnd = endOf c.offset unitLength ∧ unitEnd ≤ c.bytes.size ∧ c' = c.limitTo unitEnd := by
  obtain ⟨_, _, hget, h⟩ := bind_eq_ok.mp h
  cases hget
  obtain ⟨hle, h⟩ := Cursor.of_require_bind h
  obtain ⟨_, _, hset, hpure⟩ := bind_eq_ok.mp h
  cases hset
  cases hpure
  exact ⟨rfl, hle, rfl⟩

theorem enterUnit_records (offset unitLength : Nat) :
    Records Cursor.failure (enterUnit offset unitLength) where
  ok h := by
    obtain ⟨-, -, rfl⟩ := enterUnit_eq_ok h
    rfl
  error h := by
    rcases bind_eq_error.mp h with hget | ⟨_, _, hget, h⟩
    · cases hget
    · cases hget
      rcases bind_eq_error.mp h with hrequire | ⟨_, _, -, h⟩
      · exact (Cursor.require_disciplined _ _).records.error hrequire
      · rcases bind_eq_error.mp h with hset | ⟨_, _, -, hpure⟩
        · cases hset
        · cases hpure

end Entering

theorem read_records (compDir : String) (check : Bool) :
    Records (fun d : Decoder => d.cursor.failure) (read compDir check) :=
  (Decoder.ofRead_records Cursor.position_disciplined.records).bind fun offset =>
    (Decoder.ofRead_records (readInitialLength_disciplined offset).records).bind fun ⟨_, _⟩ =>
      (Decoder.ofRead_records (enterUnit_records offset _)).bind fun _ =>
        (readInside_disciplined _ _ _ _ _ _).records

/-- Reading a header is reading its initial length, entering its unit and reading the rest there. -/
theorem read_eq_ok {d d' : Decoder} {header : Header} (h : read compDir check d = .ok header d') :
    ∃ format unitLength unitEnd c₁ c₂,
      readInitialLength d.cursor.offset d.cursor = .ok (format, unitLength) c₁ ∧
      enterUnit d.cursor.offset unitLength c₁ = .ok unitEnd c₂ ∧
      readInside compDir check d.cursor.offset format unitLength unitEnd { d with cursor := c₂ } =
        .ok header d' := by
  obtain ⟨_, _, hposition, h⟩ := Decoder.ofRead_bind_eq_ok h
  cases hposition
  obtain ⟨⟨format, unitLength⟩, c₁, hlength, h⟩ := Decoder.ofRead_bind_eq_ok h
  obtain ⟨unitEnd, c₂, henter, h⟩ := Decoder.ofRead_bind_eq_ok h
  exact ⟨format, unitLength, unitEnd, c₁, c₂, hlength, henter, h⟩

/-- A header has been read from the section alone, and its files have been appended. -/
theorem bytes_and_files_of_read {d d' : Decoder} {header : Header}
    (h : read compDir check d = .ok header d') :
    d'.cursor.bytes = d.cursor.bytes ∧ d.files.Extended d'.files := by
  obtain ⟨format, unitLength, unitEnd, c₁, c₂, hlength, henter, hinside⟩ := read_eq_ok h
  obtain ⟨-, -, rfl⟩ := enterUnit_eq_ok henter
  have hfirst := (readInitialLength_disciplined d.cursor.offset).moves d.cursor
  have hrest := (readInside_disciplined compDir check d.cursor.offset format unitLength
    unitEnd).moves { d with cursor := c₁.limitTo unitEnd }
  rw [hlength] at hfirst
  rw [hinside] at hrest
  exact ⟨hrest.cursor.bytes_eq.trans hfirst.bytes_eq, hrest.files⟩

theorem length_of_times {α : Type} {item : Read α} {n : Nat} {c c' : Cursor} {items : List α}
    (h : Cursor.times item n c = .ok items c') : items.length = n := by
  induction n generalizing c items with
  | zero =>
    cases h
    rfl
  | succ n ih =>
    obtain ⟨x, t, -, h⟩ := bind_eq_ok.mp h
    obtain ⟨xs, u, hxs, hpure⟩ := bind_eq_ok.mp h
    cases hpure
    rw [List.length_cons, ih hxs]

section Fields

variable {c c' : Cursor} {offset : Nat}

theorem version_of_readVersion {version : UInt16} (h : readVersion offset c = .ok version c') :
    2 ≤ version ∧ version ≤ 4 := by
  obtain ⟨_, _, -, h⟩ := bind_eq_ok.mp h
  obtain ⟨hversion, hpure⟩ := Cursor.of_require_bind h
  cases hpure
  exact hversion

theorem le_of_readProgramStart {unitEnd : Nat} {format : Format} {start : Nat × Nat}
    (h : readProgramStart offset unitEnd format c = .ok start c') : start.2 ≤ unitEnd := by
  obtain ⟨headerLength, _, -, h⟩ := bind_eq_ok.mp h
  obtain ⟨position, _, -, h⟩ := bind_eq_ok.mp h
  obtain ⟨hle, hpure⟩ := Cursor.of_require_bind h
  cases hpure
  exact hle

theorem readParameters_valid {version : UInt16} {p : LineParameters}
    (h : readParameters offset version c = .ok p c') : ValidParameters version p := by
  have hsound : c.failure = none := by
    obtain ⟨minimum, t, hminimum, -⟩ := bind_eq_ok.mp h
    exact (Cursor.uint8_eq_ok hminimum).1
  obtain ⟨_, _, -, ⟨_, -, -, hvalid⟩, -⟩ :=
    (readParameters_accepts hsound offset version p c').mp h
  exact hvalid

theorem length_of_readOpcodeLengths {opcodeBase : UInt8} {lengths : List UInt8}
    (h : readOpcodeLengths offset check opcodeBase c = .ok lengths c') :
    lengths.length = opcodeBase.toNat - 1 := by
  obtain ⟨read, _, hread, h⟩ := bind_eq_ok.mp h
  have hlengths : read = lengths := by
    split_ifs at h
    · obtain ⟨_, _, -, hpure⟩ := bind_eq_ok.mp h
      cases hpure
      rfl
    · cases h
      rfl
  rw [← hlengths, length_of_times hread]

end Fields

/-- What is known of a header that has been read from a section of `size` bytes. -/
structure WellFormed (compDir : String) (size : Nat) (h : Header) : Prop where
  version_supported : 2 ≤ h.version ∧ h.version ≤ 4
  parameters : ValidParameters h.version h.toLineParameters
  length_eq : h.standardOpcodeLengths.length = h.opcodeBase.toNat - 1
  compDir_eq : h.includeDirectories[0]? = some compDir
  programOffset_le : h.programOffset ≤ h.endOffset
  endOffset_le : h.endOffset ≤ size

theorem wellFormed_of_readInside {d d' : Decoder} {header : Header} {format : Format}
    {offset unitLength endOffset size : Nat} (hend : endOffset ≤ size)
    (h : readInside compDir check offset format unitLength endOffset d = .ok header d') :
    header.WellFormed compDir size ∧ header.initialFileCount = d'.files.count := by
  obtain ⟨version, _, hversion, h⟩ := Decoder.ofRead_bind_eq_ok h
  obtain ⟨⟨headerLength, programOffset⟩, _, hstart, h⟩ := Decoder.ofRead_bind_eq_ok h
  obtain ⟨parameters, _, hparameters, h⟩ := Decoder.ofRead_bind_eq_ok h
  obtain ⟨lengths, _, hlengths, h⟩ := Decoder.ofRead_bind_eq_ok h
  obtain ⟨directories, _, -, h⟩ := Decoder.ofRead_bind_eq_ok h
  obtain ⟨_, _, -, h⟩ := bind_eq_ok.mp h
  cases h
  exact ⟨⟨version_of_readVersion hversion, readParameters_valid hparameters,
    length_of_readOpcodeLengths hlengths, rfl, le_of_readProgramStart hstart, hend⟩, rfl⟩

/-- A header that has been read is in order, and counts the files that are visible behind it. -/
theorem wellFormed_of_read {d d' : Decoder} {header : Header}
    (h : read compDir check d = .ok header d') :
    header.WellFormed compDir d.cursor.bytes.size ∧
      header.initialFileCount = d'.files.count := by
  obtain ⟨format, unitLength, unitEnd, c₁, c₂, hlength, henter, hinside⟩ := read_eq_ok h
  have hfirst := (readInitialLength_disciplined d.cursor.offset).moves d.cursor
  rw [hlength] at hfirst
  have hend : unitEnd ≤ d.cursor.bytes.size := hfirst.bytes_eq ▸ (enterUnit_eq_ok henter).2.1
  exact wellFormed_of_readInside hend hinside

end DebugLine.Header
