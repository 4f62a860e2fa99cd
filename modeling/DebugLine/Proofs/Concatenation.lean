import DebugLine.Proofs.Relocation
import DebugLine.Proofs.RowMeaning
import DebugLine.Proofs.UnitLayout

/-!
# Programs one behind the other

The end of a sequence leaves nothing behind in the registers. So a program that ends with one and
another program behind it give, in one unit, the rows that each gives in a unit of its own, and
define the files that each of them defines.
-/

namespace DebugLine

theorem Row.executeAll_of_endSequence {p : LineParameters} {instructions : List Instruction}
    (h : instructions.getLast? = some .endSequence) (r : Row) :
    (executeAll p instructions r).1 = initial p.defaultIsStmt := by
  obtain ⟨before, rfl⟩ := List.getLast?_eq_some_iff.mp h
  rw [executeAll_append]
  rfl

/-- `start` gives the rows of `startFirst` and then those of `startSecond`, with a failure so many
bytes behind. The final file table has the files of the header, then those that the first program
defines, then those that the second one defines. -/
structure Machine.RunsBoth (distance : Nat) (entries : List FileEntry)
    (startFirst startSecond start : Machine) : Prop where
  rows_eq : start.rows.1 = startFirst.rows.1 ++
    startSecond.rows.1.map (Except.mapError (LineError.shift distance))
  exists_files : ∃ definedFirst definedSecond,
    startFirst.rows.2.files = ⟨(entries ++ definedFirst).toArray, [], none⟩ ∧
    startSecond.rows.2.files = ⟨(entries ++ definedSecond).toArray, [], none⟩ ∧
    start.rows.2.files = ⟨(entries ++ definedFirst ++ definedSecond).toArray, [], none⟩

namespace UnitLayout

open Machine (ofUnit)

variable {u : UnitLayout} {unit : CompileUnit} {settings : Settings} {front back : List UInt8}
  {first second : List UInt8} {compDir : String} {check : Bool} {limit : Option Nat}

theorem listing_concatenated (front back : List UInt8)
    (hfirst : (u.withProgram unit.byteOrder first).Valid unit.byteOrder compDir check none)
    (hsecond : (u.withProgram unit.byteOrder second).Valid unit.byteOrder compDir check none)
    (hboth : (u.withProgram unit.byteOrder (first ++ second)).Valid unit.byteOrder compDir check
      none) (hsize : unit.addressSize ∈ addressSizes) :
    let startFirst := (u.withProgram unit.byteOrder first).machine unit none front back
    let startSecond := (u.withProgram unit.byteOrder second).machine unit none front back
    let start := (u.withProgram unit.byteOrder (first ++ second)).machine unit none front back
    startFirst.listing.failure = none →
      (∃ n, start.instructions = startFirst.instructions ++
        startSecond.instructions.map (Instruction.renumber n)) ∧
      start.listing.failure = startSecond.listing.failure.map (LineError.shift first.length) ∧
      ∃ definedFirst definedSecond,
        startFirst.listing.decoder.files = start.files.pushAll definedFirst ∧
        startSecond.listing.decoder.files = start.files.pushAll definedSecond ∧
        start.listing.decoder.files = start.files.pushAll (definedFirst ++ definedSecond) := by
  intro startFirst startSecond start hdecodes
  have hwindowFirst : startFirst.cursor.window = first := hfirst.window_machine front back
  have hwindowSecond : startSecond.cursor.window = second := hsecond.window_machine front back
  have hwindow : start.cursor.window = first ++ second := hboth.window_machine front back
  obtain ⟨steps, hspells⟩ := Listing.exists_spellsAll_window (h := startFirst.header)
    (d := startFirst.toDecoder) rfl hsize hdecodes
  obtain ⟨hinstructionsFirst, -, hdecoderFirst⟩ := Listing.ofDecoder_of_spellsAll_window
    (hfirst.sound front back) hsize hspells
  rw [hwindowFirst] at hspells hdecoderFirst
  -- The second unit is coded like the first, so its program starts with what the first one spells.
  obtain ⟨listed, hlisted, hlisting⟩ := Listing.ofDecoder_of_spellsAll (d := start.toDecoder)
    (h := start.header) rfl hsize hspells hwindow
  have hrelocated : Relocated first.length startSecond.toDecoder
      (start.toDecoder.passed first.length (definedFiles steps)) :=
    { sound := hsecond.sound front back
      sound' := (hboth.sound front back).passed_front hwindow
      window_eq := by
        rw [Decoder.cursor_passed, Cursor.window_passed, hwindow, List.drop_left, hwindowSecond]
      offset_eq := rfl
      byteOrder_eq := rfl
      addressSize_eq := rfl }
  obtain ⟨hinstructions, hfailure, added, hfilesSecond, hfiles⟩ :=
    Listing.ofDecoder_relocated startSecond.header start.header hrelocated rfl rfl
      (FileTable.limit_pushAll _ _)
  have hinstructionsBoth : start.instructions = startFirst.instructions ++
      startSecond.instructions.map (Instruction.renumber (Apart.distance startSecond.files
        (start.files.pushAll (definedFiles steps)))) := by
    rw [Machine.instructions, Machine.listing, hlisting, List.map_append, hlisted, hinstructions,
      ← hinstructionsFirst]
    rfl
  refine ⟨⟨_, hinstructionsBoth⟩, ?_, definedFiles steps, added, ?_, hfilesSecond, ?_⟩
  · rw [Machine.listing, hlisting]
    exact hfailure
  · rw [Machine.listing, hdecoderFirst]
    rfl
  · rw [Machine.listing, hlisting, FileTable.pushAll_append]
    exact hfiles

theorem Valid.registers_of_ended
    (h : (u.withProgram unit.byteOrder first).Valid unit.byteOrder compDir check limit)
    (front back : List UInt8) :
    let start := (u.withProgram unit.byteOrder first).machine unit limit front back
    first = [] ∨ start.instructions.getLast? = some .endSequence →
      (Row.executeAll u.header.parameters start.instructions
        (Row.initial u.header.parameters.defaultIsStmt)).1 =
          Row.initial u.header.parameters.defaultIsStmt := by
  rintro start (rfl | hends)
  · have hend : start.atEnd = true :=
      (h.sound front back).isEmpty_of_window (h.window_machine front back)
    rw [Machine.instructions, Machine.listing_of_atEnd hend]
    rfl
  · exact Row.executeAll_of_endSequence hends _

theorem runsBoth (front back : List UInt8)
    (hfirst : (u.withProgram unit.byteOrder first).Valid unit.byteOrder compDir check none)
    (hsecond : (u.withProgram unit.byteOrder second).Valid unit.byteOrder compDir check none)
    (hboth : (u.withProgram unit.byteOrder (first ++ second)).Valid unit.byteOrder compDir check
      none) (hsize : unit.addressSize ∈ addressSizes) :
    let startFirst := (u.withProgram unit.byteOrder first).machine unit none front back
    startFirst.ErrorFree → (first = [] ∨ startFirst.instructions.getLast? = some .endSequence) →
      startFirst.RunsBoth first.length (u.header.entries unit.directory)
        ((u.withProgram unit.byteOrder second).machine unit none front back)
        ((u.withProgram unit.byteOrder (first ++ second)).machine unit none front back) := by
  intro startFirst hdecodes hends
  have hlisting := Machine.failure_listing_of_errorFree rfl hdecodes
  obtain ⟨⟨n, hinstructions⟩, hfailure, definedFirst, definedSecond, hfilesFirst, hfilesSecond,
    hfiles⟩ := listing_concatenated front back hfirst hsecond hboth hsize hlisting
  have hregisters := hfirst.registers_of_ended front back hends
  refine ⟨?_, definedFirst, definedSecond, ?_, ?_, ?_⟩
  · rw [Machine.rows_eq_listed rfl, Machine.rows_eq_listed rfl, Machine.rows_eq_listed rfl]
    have hshift : Except.mapError (LineError.shift first.length) ∘ Except.ok (α := Row) =
        Except.ok := rfl
    have hfailures (failure : Option LineError) :
        (failure.map (LineError.shift first.length)).toList.map (Except.error (α := Row)) =
          (failure.toList.map .error).map (Except.mapError (LineError.shift first.length)) := by
      cases failure <;> rfl
    simp only [startFirst, Machine.listedItems, hinstructions, hfailure, hlisting,
      Row.executeAll_append, Instruction.executeAll_renumber, List.map_append, List.map_map, hshift,
      hfailures, Option.toList_none, List.map_nil, List.append_nil, List.append_assoc,
      toLineParameters_machine, registers_machine, parameters_withProgram]
    rw [hregisters]
  · rw [Machine.rows_eq_listed rfl]
    exact hfilesFirst.trans (pushAll_files_machine _)
  · rw [Machine.rows_eq_listed rfl]
    exact hfilesSecond.trans (pushAll_files_machine _)
  · rw [Machine.rows_eq_listed rfl, List.append_assoc]
    exact hfiles.trans (pushAll_files_machine _)

/-- The rows of two programs, one behind the other, where the first one is decoded to its end and is
empty or ends with the end of a sequence: the rows of the first and those of the second, with the
failure of the second as far behind as the first is long. The final file table has the files of the
header, then those of the first, then those of the second. -/
theorem rows_concatenated (hoffset : unit.stmtList = some front.length)
    (hsize : unit.addressSize ∈ addressSizes) (hlimit : settings.fileLimit = none)
    (hvalid : (u.withProgram unit.byteOrder (first ++ second)).Valid unit.byteOrder unit.directory
      settings.checksOpcodeLengths none)
    (hfits : ((u.withProgram unit.byteOrder (first ++ second)).among unit.byteOrder front
      back).size < UInt64.size - 1) {startFirst : Machine}
    (hopen : ofUnit unit ((u.withProgram unit.byteOrder first).among unit.byteOrder front back)
      settings = .ok (some startFirst))
    (hdecodes : startFirst.ErrorFree)
    (hends : first = [] ∨ startFirst.instructions.getLast? = some .endSequence) :
    ∃ startSecond start,
      ofUnit unit ((u.withProgram unit.byteOrder second).among unit.byteOrder front back) settings =
        .ok (some startSecond) ∧
      ofUnit unit ((u.withProgram unit.byteOrder (first ++ second)).among unit.byteOrder front back)
        settings = .ok (some start) ∧
      start.rows.1 = startFirst.rows.1 ++
        startSecond.rows.1.map (Except.mapError (LineError.shift first.length)) ∧
      ∃ definedFirst definedSecond,
        startFirst.rows.2.files =
          ⟨(u.header.entries unit.directory ++ definedFirst).toArray, [], none⟩ ∧
        startSecond.rows.2.files =
          ⟨(u.header.entries unit.directory ++ definedSecond).toArray, [], none⟩ ∧
        start.rows.2.files =
          ⟨(u.header.entries unit.directory ++ definedFirst ++ definedSecond).toArray, [],
            none⟩ := by
  rw [← hlimit] at hvalid
  obtain ⟨hfirst, hopenFirst⟩ :=
    hvalid.ofUnit_of_le hoffset hsize hfits (List.prefix_append first second).length_le
  obtain ⟨hsecond, hopenSecond⟩ :=
    hvalid.ofUnit_of_le hoffset hsize hfits (List.suffix_append first second).length_le
  have hopenBoth := ofUnit_among hoffset hsize hvalid hfits
  rw [hopen] at hopenFirst
  rw [hlimit] at hvalid hfirst hsecond hopenFirst hopenSecond hopenBoth
  cases hopenFirst
  have hruns := runsBoth front back hfirst hsecond hvalid hsize hdecodes hends
  exact ⟨_, _, hopenSecond, hopenBoth, hruns.rows_eq, hruns.exists_files⟩

/-- A row, a file next to the directory, and the end of the sequence. -/
def endedProgram : List UInt8 :=
  [3, 4, 2, 8, 1, 0, 9, 3, 0x2E, 0x2E, 0x2F, 0x62, 0, 0, 0, 0, 0, 1, 1]

/-- A row, a file and an operand that is cut off. -/
def cutOffProgram : List UInt8 := [32, 0, 6, 3, 0x63, 0, 0, 0, 0, 2, 0x80]

theorem rows_concatenated_cutOff :
    let whole (program : List UInt8) :=
      (spaced.withProgram .little program).among .little [0xAA] [0]
    let unit : CompileUnit := ⟨some 1, some "/w", 8, .little⟩
    let high : Row := { Row.initial true with address := 8, line := 5 }
    let ended : Row := { high with endSequence := true }
    let low : Row := { Row.initial true with address := 1, line := 4 }
    (spaced.withProgram .little (endedProgram ++ cutOffProgram)).Valid .little "/w" true none ∧
      (whole (endedProgram ++ cutOffProgram)).size < UInt64.size - 1 ∧
      ∃ startFirst startSecond start,
        ofUnit unit (whole endedProgram) .unset = .ok (some startFirst) ∧
        startFirst.ErrorFree ∧ startFirst.instructions =
          [.advanceLine 4, .advancePc 8, .copy, .defineFile 2, .endSequence] ∧
        startFirst.rows.1 = [.ok high, .ok ended] ∧
        ofUnit unit (whole cutOffProgram) .unset = .ok (some startSecond) ∧
        startSecond.rows.1 = [.ok low, .error (.unexpectedEnd 48 1 0)] ∧
        ofUnit unit (whole (endedProgram ++ cutOffProgram)) .unset = .ok (some start) ∧
        start.rows.1 = startFirst.rows.1 ++
          startSecond.rows.1.map (Except.mapError (LineError.shift 19)) ∧
        start.rows.1 = [.ok high, .ok ended, .ok low, .error (.unexpectedEnd 67 1 0)] ∧
        start.rows.2.files.visible.map FileEntry.path = #["/w/a", "/b", "/w/c"] := by
  intro whole unit high ended low
  have hvalid : (spaced.withProgram .little (endedProgram ++ cutOffProgram)).Valid .little "/w" true
      none := spaced_valid.withProgram (by decide)
  have hfits : (whole (endedProgram ++ cutOffProgram)).size < UInt64.size - 1 := by decide
  obtain ⟨startFirst, hfirst, hrowsFirst, hinstructions⟩ : ∃ startFirst,
      ofUnit unit (whole endedProgram) .unset = .ok (some startFirst) ∧
      startFirst.rows.1 = [high, ended].map .ok ∧ startFirst.instructions =
        [.advanceLine 4, .advancePc 8, .copy, .defineFile 2, .endSequence] :=
    Machine.exists_of_opened (by decide +kernel)
  obtain ⟨machineSecond, hopenSecond, hrowsSecond⟩ : ∃ m,
      ofUnit unit (whole cutOffProgram) .unset = .ok (some m) ∧
      m.rows.1 = [.ok low, .error (.unexpectedEnd 48 1 0)] :=
    Machine.exists_of_opened (by decide +kernel)
  obtain ⟨machineBoth, hopenBoth, hpaths⟩ : ∃ m,
      ofUnit unit (whole (endedProgram ++ cutOffProgram)) .unset = .ok (some m) ∧
      m.rows.2.files.visible.map FileEntry.path = #["/w/a", "/b", "/w/c"] :=
    Machine.exists_of_opened (by decide +kernel)
  have hdecodes := Machine.errorFree_of_rows hrowsFirst
  obtain ⟨startSecond, start, hsecond, hboth, hrows, -⟩ := @rows_concatenated spaced unit .unset
    [0xAA] [0] endedProgram cutOffProgram rfl (by decide) rfl hvalid hfits startFirst hfirst
    hdecodes (.inr (by rw [hinstructions]; rfl))
  cases hopenSecond.symm.trans hsecond
  cases hopenBoth.symm.trans hboth
  have hvalues := hrows
  rw [hrowsFirst, hrowsSecond] at hvalues
  exact ⟨hvalid, hfits, startFirst, machineSecond, machineBoth, hfirst, hdecodes, hinstructions,
    hrowsFirst, hsecond, hrowsSecond, hboth, hrows, hvalues, hpaths⟩

/-- Whatever section a header is read from, another program may follow the one of its unit, unless
the tables of the header reach into the program. -/
theorem exists_runsBoth_of_read {bytes : Array UInt8} {offset : Nat} {header : Header} {d : Decoder}
    (hoffset : unit.stmtList = some offset) (hsize : unit.addressSize ∈ addressSizes)
    (hlimit : settings.fileLimit = none) (hbytes : bytes.size < UInt64.size - 1)
    (hread : Header.read unit.directory settings.checksOpcodeLengths
      (Machine.decoderAt unit bytes settings offset) = .ok header d)
    (htables : d.cursor.offset ≤ header.programOffset) :
    ∃ (front : List UInt8) (u : UnitLayout) (back : List UInt8) (startFirst : Machine),
      bytes = u.among unit.byteOrder front back ∧
      ofUnit unit bytes settings = .ok (some startFirst) ∧
      startFirst.cursor.window = u.program ∧
      ∀ second : List UInt8, startFirst.ErrorFree →
        (u.program = [] ∨ startFirst.instructions.getLast? = some .endSequence) →
        let both := u.withProgram unit.byteOrder (u.program ++ second)
        both.header.unitLength < u.header.format.lengthBound →
        (both.among unit.byteOrder front back).size < UInt64.size - 1 →
        ∃ startSecond start,
          ofUnit unit ((u.withProgram unit.byteOrder second).among unit.byteOrder front back)
            settings = .ok (some startSecond) ∧
          ofUnit unit (both.among unit.byteOrder front back) settings = .ok (some start) ∧
          startFirst.RunsBoth u.program.length (u.header.entries unit.directory) startSecond
            start := by
  obtain ⟨front, u, back, rfl, hfront, hvalid, hopen⟩ :=
    exists_machine_of_read hoffset hsize hbytes hread htables
  refine ⟨front, u, back, _, rfl, hopen, hvalid.window_machine front back, ?_⟩
  intro second hdecodes hends both hlength hfits
  have hboth := hvalid.withProgram hlength
  obtain ⟨hsecond, hopenSecond⟩ :=
    hboth.ofUnit_of_le hfront hsize hfits (List.suffix_append u.program second).length_le
  have hopenBoth := ofUnit_among hfront hsize hboth hfits
  rw [hlimit] at hvalid hsecond hboth hdecodes hends hopenSecond hopenBoth ⊢
  have hself := withProgram_program hvalid
  have hruns := runsBoth front back (hself.symm ▸ hvalid) hsecond hboth hsize
  rw [hself] at hruns
  exact ⟨_, _, hopenSecond, hopenBoth, hruns hdecodes hends⟩

end UnitLayout

/-- The programs of assembled units may follow one another as well. -/
theorem Assembly.runsBoth {a : Assembly} {first second : List UInt8}
    (h : (a.withProgram (first ++ second)).Valid)
    (hdecodes : (a.withProgram first).machine.ErrorFree)
    (hends : first = [] ∨
      (a.withProgram first).machine.instructions.getLast? = some .endSequence) :
    (a.withProgram first).machine.RunsBoth first.length a.entries (a.withProgram second).machine
      (a.withProgram (first ++ second)).machine := by
  have hfirst := h.withProgram_of_le (List.prefix_append first second).length_le
  have hsecond := h.withProgram_of_le (List.suffix_append first second).length_le
  have hsize : (a.unit 0).addressSize ∈ addressSizes := h.addressSize_mem
  have hentries : a.unitLayout.header.entries compDir = a.entries :=
    @layout_entries (a.withProgram (first ++ second)) h
  have hfirstValid := unitLayout_valid hfirst
  have hsecondValid := unitLayout_valid hsecond
  have hvalid := unitLayout_valid h
  rw [unitLayout_withProgram] at hfirstValid hsecondValid hvalid
  have hruns := UnitLayout.runsBoth [] [] hfirstValid hsecondValid hvalid hsize
  rw [← machine_unitLayout hfirst, unitLayout_withProgram] at hdecodes hends ⊢
  rw [← machine_unitLayout hsecond, ← machine_unitLayout h, unitLayout_withProgram,
    unitLayout_withProgram, ← hentries]
  exact hruns hdecodes hends

end DebugLine
