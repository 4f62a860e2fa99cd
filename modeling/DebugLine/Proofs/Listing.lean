import DebugLine.Assembly
import DebugLine.Proofs.Opening
import DebugLine.Proofs.Table

/-!
# Decoding first, executing afterwards

A machine executes each instruction before it decodes the next one. The registers have no say in
what is decoded, so the machine gives the rows, and comes to the state, that it would if its whole
program were listed first and executed afterwards.
-/

namespace DebugLine

theorem Instruction.remaining_decode_lt {h : Header} {d d' : Decoder} {instruction : Instruction}
    (hok : decode h d = .ok instruction d') (hd : d.cursor.isEmpty = false) :
    d'.cursor.remaining < d.cursor.remaining := by
  have hlt := decode_progress hok
  have hmove := (decode_disciplined h).moves d
  rw [hok] at hmove
  have hlimit : d'.cursor.limit = d.cursor.limit := hmove.cursor.limit_eq
  simp only [Cursor.isEmpty, Cursor.remaining, beq_eq_false_iff_ne] at hd ⊢
  omega

namespace Listing

open Instruction (decode)

variable {h : Header} {d d' : Decoder} {instruction : Instruction} {e : LineError}

theorem within_of_isEmpty (hd : d.cursor.isEmpty = true) (most : Nat) :
    within h most d = ⟨[], none, d⟩ := by
  cases most <;> simp [within, hd]

theorem within_of_error (hd : d.cursor.isEmpty = false) (herr : decode h d = .error e d')
    (most : Nat) : within h (most + 1) d = ⟨[], some e, d'⟩ := by
  simp [within, hd, herr]

theorem within_of_ok (hd : d.cursor.isEmpty = false) (hok : decode h d = .ok instruction d')
    (most : Nat) :
    within h (most + 1) d =
      { within h most d' with
        instructions := (instruction, d'.cursor.offset) :: (within h most d').instructions } := by
  simp [within, hd, hok]

theorem exists_eq_succ {most : Nat} (hd : d.cursor.isEmpty = false)
    (hmost : d.cursor.remaining ≤ most) : ∃ k, most = k + 1 := by
  apply Nat.exists_eq_add_one_of_ne_zero
  rintro rfl
  simp [Cursor.isEmpty, Nat.le_zero.mp hmost] at hd

/-- Any two bounds that the unread bytes meet give the same listing. -/
theorem within_eq {a b : Nat} (ha : d.cursor.remaining ≤ a) (hb : d.cursor.remaining ≤ b) :
    within h a d = within h b d := by
  induction a generalizing b d with
  | zero =>
    have hd : d.cursor.isEmpty = true := by simpa [Cursor.isEmpty] using ha
    rw [within_of_isEmpty hd, within_of_isEmpty hd]
  | succ a ih =>
    cases hd : d.cursor.isEmpty with
    | true => rw [within_of_isEmpty hd, within_of_isEmpty hd]
    | false =>
      obtain ⟨b, rfl⟩ := exists_eq_succ hd hb
      cases hnext : decode h d with
      | error e t => rw [within_of_error hd hnext, within_of_error hd hnext]
      | ok instruction t =>
        have hlt := Instruction.remaining_decode_lt hnext hd
        have hrest : within h a t = within h b t := ih (by omega) (by omega)
        rw [within_of_ok hd hnext, within_of_ok hd hnext, hrest]

theorem ofDecoder_of_isEmpty (hd : d.cursor.isEmpty = true) : ofDecoder h d = ⟨[], none, d⟩ :=
  within_of_isEmpty hd _

theorem ofDecoder_of_error (hd : d.cursor.isEmpty = false) (herr : decode h d = .error e d') :
    ofDecoder h d = ⟨[], some e, d'⟩ := by
  obtain ⟨k, hk⟩ := exists_eq_succ hd le_rfl
  rw [ofDecoder, hk, within_of_error hd herr]

theorem ofDecoder_of_ok (hd : d.cursor.isEmpty = false) (hok : decode h d = .ok instruction d') :
    ofDecoder h d =
      { ofDecoder h d' with
        instructions := (instruction, d'.cursor.offset) :: (ofDecoder h d').instructions } := by
  obtain ⟨k, hk⟩ := exists_eq_succ hd le_rfl
  have hlt := Instruction.remaining_decode_lt hok hd
  rw [ofDecoder, hk, within_of_ok hd hok, ofDecoder, within_eq (by omega) le_rfl]

end Listing

namespace Machine

open Instruction (decode)

variable {start m m' : Machine} {instruction : Instruction} {d : Decoder} {e : LineError}

/-- The instructions from where the machine stands, as far as they can be decoded. -/
def listing (m : Machine) : Listing := Listing.ofDecoder m.header m.toDecoder

def instructions (m : Machine) : List Instruction := m.listing.instructions.map Prod.fst

/-- The machine behind an instruction that it has decoded up to `d` and then executed. -/
def executed (m : Machine) (instruction : Instruction) (d : Decoder) : Machine :=
  { m with
    toDecoder := d
    registers := (m.registers.execute m.header.toLineParameters instruction).1 }

theorem step_of_decode_ok (hm : m.failure = none) (hend : m.atEnd = false)
    (hok : decode m.header m.toDecoder = .ok instruction d) :
    step m = .ok (m.registers.execute m.header.toLineParameters instruction).2
      (m.executed instruction d) := by
  have hdecode : Run.ofDecode (decode m.header) m = .ok instruction { m with toDecoder := d } := by
    simp [Run.ofDecode, hok]
  rw [step_of_not_atEnd hm hend, bind_of_ok hdecode]
  rfl

theorem step_of_decode_error (hm : m.failure = none) (hend : m.atEnd = false)
    (herr : decode m.header m.toDecoder = .error e d) :
    step m = .error e { m with toDecoder := d } := by
  rw [step_of_not_atEnd hm hend]
  apply bind_of_error
  simp [Run.ofDecode, herr]

/-- Induction along the instructions of the program. -/
theorem instruction_induction {P : (m : Machine) → m.failure = none → Prop}
    (ended : ∀ m hm, m.atEnd = true → P m hm)
    (fails : ∀ m hm e d, m.atEnd = false → decode m.header m.toDecoder = .error e d → P m hm)
    (executes : ∀ m hm instruction d hnext, m.atEnd = false →
      decode m.header m.toDecoder = .ok instruction d → P (m.executed instruction d) hnext →
      P m hm)
    (m : Machine) (hm : m.failure = none) : P m hm := by
  induction hn : m.cursor.remaining using Nat.strong_induction_on generalizing m with
  | _ n ih =>
    cases hend : m.atEnd with
    | true => exact ended m hm hend
    | false =>
      cases hdecode : decode m.header m.toDecoder with
      | error e d => exact fails m hm e d hend hdecode
      | ok instruction d =>
        have hnext : (m.executed instruction d).failure = none :=
          ((Instruction.decode_disciplined _).records.ok hdecode).trans hm
        have hlt : (m.executed instruction d).cursor.remaining < n :=
          hn ▸ Instruction.remaining_decode_lt hdecode hend
        exact executes m hm instruction d hnext hend hdecode (ih _ hlt _ hnext rfl)

/-- The rows of the listed instructions, and the failure that ended the listing, if one did. -/
def listedItems (m : Machine) : List (Except LineError Row) :=
  (Row.executeAll m.header.toLineParameters m.instructions m.registers).2.map .ok ++
    m.listing.failure.toList.map .error

/-- The machine that has listed its program and then executed it. -/
def listedMachine (m : Machine) : Machine :=
  { m with
    toDecoder := m.listing.decoder
    registers := (Row.executeAll m.header.toLineParameters m.instructions m.registers).1 }

section Listed

variable (hend : m.atEnd = false)

theorem listing_of_atEnd (hend : m.atEnd = true) : m.listing = ⟨[], none, m.toDecoder⟩ :=
  Listing.ofDecoder_of_isEmpty hend

theorem listedItems_of_atEnd (hend : m.atEnd = true) : m.listedItems = [] := by
  simp [listedItems, instructions, listing_of_atEnd hend, Row.executeAll]

theorem listedMachine_of_atEnd (hend : m.atEnd = true) : m.listedMachine = m := by
  simp [listedMachine, instructions, listing_of_atEnd hend, Row.executeAll]

include hend

theorem listing_of_error (herr : decode m.header m.toDecoder = .error e d) :
    m.listing = ⟨[], some e, d⟩ :=
  Listing.ofDecoder_of_error hend herr

theorem listedItems_of_error (herr : decode m.header m.toDecoder = .error e d) :
    m.listedItems = [.error e] := by
  simp [listedItems, instructions, listing_of_error hend herr, Row.executeAll]

theorem listedMachine_of_error (herr : decode m.header m.toDecoder = .error e d) :
    m.listedMachine = { m with toDecoder := d } := by
  simp [listedMachine, instructions, listing_of_error hend herr, Row.executeAll]

theorem listing_of_ok (hok : decode m.header m.toDecoder = .ok instruction d) :
    m.listing =
      { (m.executed instruction d).listing with
        instructions :=
          (instruction, d.cursor.offset) :: (m.executed instruction d).listing.instructions } :=
  Listing.ofDecoder_of_ok hend hok

theorem instructions_of_ok (hok : decode m.header m.toDecoder = .ok instruction d) :
    m.instructions = instruction :: (m.executed instruction d).instructions := by
  simp [instructions, listing_of_ok hend hok]

theorem listedItems_of_ok (hok : decode m.header m.toDecoder = .ok instruction d) :
    m.listedItems =
      (m.registers.execute m.header.toLineParameters instruction).2.toList.map .ok ++
        (m.executed instruction d).listedItems := by
  simp [listedItems, instructions_of_ok hend hok, listing_of_ok hend hok, Row.executeAll, executed]

theorem listedMachine_of_ok (hok : decode m.header m.toDecoder = .ok instruction d) :
    m.listedMachine = (m.executed instruction d).listedMachine := by
  simp [listedMachine, instructions_of_ok hend hok, listing_of_ok hend hok, Row.executeAll,
    executed]

end Listed

/-- A listing without a failure reaches the end of the program. -/
theorem listedMachine_atEnd (hm : m.failure = none) (hlisting : m.listing.failure = none) :
    m.listedMachine.atEnd = true := by
  induction m, hm using instruction_induction with
  | ended m hm hend => rwa [listedMachine_of_atEnd hend]
  | fails m hm e d hend herr =>
    rw [listing_of_error hend herr] at hlisting
    cases hlisting
  | executes m hm instruction d hnext hend hok ih =>
    rw [listing_of_ok hend hok] at hlisting
    rw [listedMachine_of_ok hend hok]
    exact ih hlisting

theorem rows_of_silent (h : step m = .ok none m') : m.rows = m'.rows := by
  have hrow := nextRow_of_silent h
  cases hnext : nextRow m' with
  | error e t => rw [rows_of_error hnext, rows_of_error (hrow.trans hnext)]
  | ok found t =>
    cases found with
    | none => rw [rows_of_none hnext, rows_of_none (hrow.trans hnext)]
    | some row => rw [rows_of_row hnext, rows_of_row (hrow.trans hnext)]

theorem rows_eq_listed (hm : m.failure = none) : m.rows = (m.listedItems, m.listedMachine) := by
  induction m, hm using instruction_induction with
  | ended m hm hend =>
    rw [rows_of_none (nextRow_of_atEnd hm hend), listedItems_of_atEnd hend,
      listedMachine_of_atEnd hend]
  | fails m hm e d hend herr =>
    rw [rows_of_error (nextRow_of_fails (step_of_decode_error hm hend herr)),
      listedItems_of_error hend herr, listedMachine_of_error hend herr]
  | executes m hm instruction d hnext hend hok ih =>
    have hstep := step_of_decode_ok hm hend hok
    rw [listedItems_of_ok hend hok, listedMachine_of_ok hend hok]
    cases hrow : (m.registers.execute m.header.toLineParameters instruction).2 with
    | none =>
      rw [hrow] at hstep
      rw [rows_of_silent hstep, ih]
      rfl
    | some row =>
      rw [hrow] at hstep
      rw [rows_of_row (nextRow_of_emits hstep), ih]
      rfl

/-- What a caller collects who steps a machine until it is at its end or a step fails, at most
`most` times. -/
def stepsWithin : (most : Nat) → Machine → List (Except LineError Row) × Machine
  | 0, m => ([], m)
  | most + 1, m =>
    if m.atEnd then ([], m)
    else
      match step m with
      | .error e m => ([.error e], m)
      | .ok row m =>
        let (items, last) := stepsWithin most m
        (row.toList.map .ok ++ items, last)

theorem stepsWithin_eq_listed (hm : m.failure = none) {most : Nat}
    (hmost : m.cursor.remaining ≤ most) :
    m.stepsWithin most = (m.listedItems, m.listedMachine) := by
  induction m, hm using instruction_induction generalizing most with
  | ended m hm hend =>
    rw [listedItems_of_atEnd hend, listedMachine_of_atEnd hend]
    cases most <;> simp [stepsWithin, hend]
  | fails m hm e d hend herr =>
    obtain ⟨most, rfl⟩ := Listing.exists_eq_succ hend hmost
    simp [stepsWithin, hend, step_of_decode_error hm hend herr, listedItems_of_error hend herr,
      listedMachine_of_error hend herr]
  | executes m hm instruction d hnext hend hok ih =>
    obtain ⟨most, rfl⟩ := Listing.exists_eq_succ hend hmost
    have hlt := Instruction.remaining_decode_lt hok hend
    have hrest : (m.executed instruction d).cursor.remaining ≤ most :=
      Nat.le_of_lt_succ (hlt.trans_le hmost)
    simp [stepsWithin, hend, step_of_decode_ok hm hend hok, ih hrest, listedItems_of_ok hend hok,
      listedMachine_of_ok hend hok]

/-- A step that fails executes nothing. -/
theorem registers_of_step_error (h : step m = .error e m') : m'.registers = m.registers := by
  cases hm : m.failure with
  | some first =>
    rw [step_of_failure hm] at h
    cases h
    rfl
  | none =>
    cases hend : m.atEnd with
    | true =>
      rw [step_of_atEnd hm hend] at h
      cases h
    | false =>
      rw [step_of_not_atEnd hm hend] at h
      rcases bind_eq_error.mp h with hdecode | ⟨instruction, t, -, hexecute⟩
      · obtain ⟨d, -, rfl⟩ := ofDecode_eq_error hdecode
        rfl
      · cases hexecute

/-- A program gives the rows, and leads to the registers and the files, of its instructions decoded
first and executed afterwards, whether rows are asked for or single steps. What cannot be decoded
executes nothing. -/
theorem rows_of_listing {unit : CompileUnit} {bytes : Array UInt8} {settings : Settings}
    (hopen : ofUnit unit bytes settings = .ok (some start)) :
    let listing := Listing.ofDecoder start.header (start.toDecoder.atProgram start.header)
    let executed := Row.executeAll start.header.toLineParameters
      (listing.instructions.map Prod.fst) (Row.initial start.header.defaultIsStmt)
    let items := executed.2.map .ok ++ listing.failure.toList.map .error
    let last : Machine := { start with toDecoder := listing.decoder, registers := executed.1 }
    start.rows = (items, last) ∧
    (∀ most, start.cursor.remaining ≤ most → start.stepsWithin most = (items, last)) ∧
    (listing.failure = none → last.atEnd = true) ∧
    ∀ m e m', step m = .error e m' → m'.registers = m.registers := by
  have hstart := fresh_of_ofUnit hopen
  have hdecoder : start.toDecoder.atProgram start.header = start.toDecoder := by
    rw [Decoder.atProgram, hstart.cursor_eq]
  rw [hdecoder, hstart.registers_eq]
  exact ⟨rows_eq_listed hstart.sound, fun most hmost => stepsWithin_eq_listed hstart.sound hmost,
    listedMachine_atEnd hstart.sound, fun m e m' => registers_of_step_error⟩

/-- A program that defines a file next to its directory between two rows, and is cut off within an
operand. -/
def cutOff : Assembly :=
  [.setAddress 0x10, .copy, .defineFile "../b" 0 0 0, .setFile 1, .special 33,
    .raw [2, 0x80]].foldl Assembly.emit Assembly.empty

theorem rows_of_listing_cutOff :
    let instructions : List Instruction :=
      [.setAddress 0x10, .copy, .defineFile 1, .setFile 1, .special 33]
    let first : Row := { Row.initial true with address := 0x10 }
    let last : Row := { Row.initial true with address := 0x11, line := 2 }
    ∃ start, ofUnit (cutOff.unit 0) cutOff.encode.toArray .unset = .ok (some start) ∧
      start.cursor.remaining ≤ 28 ∧
      Row.executeAll start.header.toLineParameters instructions (Row.initial true) =
        (last, [first, last]) ∧
      let items := [.ok first, .ok last, .error (.unexpectedEnd 58 1 0)]
      start.rows.1 = items ∧ start.rows.2.registers = last ∧
        start.rows.2.files.visible.map FileEntry.path = #["/b"] ∧
        (start.stepsWithin 28).1 = items := by
  intro instructions first last
  obtain ⟨start, hopen, hremaining, hinstructions, hfailure, hpaths, hdefault, hexecuted⟩ :
      ∃ start, ofUnit (cutOff.unit 0) cutOff.encode.toArray .unset = .ok (some start) ∧
        let listing := Listing.ofDecoder start.header (start.toDecoder.atProgram start.header)
        start.cursor.remaining ≤ 28 ∧
        listing.instructions.map Prod.fst = instructions ∧
        listing.failure = some (.unexpectedEnd 58 1 0) ∧
        listing.decoder.files.visible.map FileEntry.path = #["/b"] ∧
        start.header.defaultIsStmt = true ∧
        Row.executeAll start.header.toLineParameters instructions (Row.initial true) =
          (last, [first, last]) :=
    exists_of_opened (by decide +kernel)
  obtain ⟨hrows, hsteps, -, -⟩ := rows_of_listing hopen
  rw [hinstructions, hfailure, hdefault, hexecuted] at hrows hsteps
  refine ⟨start, hopen, hremaining, hexecuted, congrArg (·.1) hrows,
    congrArg (·.2.registers) hrows, ?_, congrArg (·.1) (hsteps 28 hremaining)⟩
  rw [hrows]
  exact hpaths

end Machine
end DebugLine
