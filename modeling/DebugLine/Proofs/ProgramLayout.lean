import DebugLine.Proofs.InstructionLayout
import DebugLine.Proofs.Listing

/-!
# Programs as sequences of instructions

A program that is decoded to its end is a sequence of spelled instructions, one after another. What
stands behind a part of it has no say in how that part is decoded, and the part leaves nothing but
its files.
-/

namespace DebugLine

namespace Cursor

variable {c : Cursor}

theorem isEmpty_eq_false {bytes rest : List UInt8} (hwindow : c.window = bytes ++ rest)
    (hpos : 0 < bytes.length) : c.isEmpty = false := by
  have hlength := c.length_window_le
  rw [hwindow, List.length_append] at hlength
  simp only [isEmpty, beq_eq_false_iff_ne]
  omega

theorem window_of_isEmpty (h : c.isEmpty = true) : c.window = [] := by
  have hlength := c.length_window_le
  rw [isEmpty, beq_iff_eq] at h
  exact List.eq_nil_of_length_eq_zero (by omega)

/-- The cursor lies inside the bytes that it may read, and nothing has failed. -/
structure Sound (c : Cursor) : Prop where
  failure_eq : c.failure = none
  offset_le : c.offset ≤ c.limit
  limit_le : c.limit ≤ c.bytes.size

theorem Sound.passed (h : c.Sound) {n : Nat} (hn : n ≤ c.window.length) : (c.passed n).Sound where
  failure_eq := h.failure_eq
  offset_le := by
    have hle := h.offset_le
    rw [length_window h.limit_le, remaining] at hn
    rw [offset_passed, limit_passed]
    omega
  limit_le := h.limit_le

theorem Sound.passed_front (h : c.Sound) {bytes rest : List UInt8}
    (hwindow : c.window = bytes ++ rest) : (c.passed bytes.length).Sound := by
  apply h.passed
  rw [hwindow]
  exact (List.prefix_append _ _).length_le

theorem Sound.isEmpty_of_window (h : c.Sound) (hwindow : c.window = []) : c.isEmpty = true := by
  have hlength := length_window h.limit_le
  rw [hwindow] at hlength
  exact beq_iff_eq.mpr hlength.symm

end Cursor

/-- The files that instructions define, in order. -/
def definedFiles (steps : List (Instruction × List FileEntry)) : List FileEntry :=
  steps.flatMap Prod.snd

@[simp] theorem definedFiles_append (first second : List (Instruction × List FileEntry)) :
    definedFiles (first ++ second) = definedFiles first ++ definedFiles second := by
  simp [definedFiles]

namespace Coding

variable (c : Coding)

/-- The bytes spell these instructions one after another, each with the files that it defines, where
`t` is the file table in front of the first. -/
inductive SpellsAll :
    FileTable → List UInt8 → List (Instruction × List FileEntry) → Prop
  | nil {t : FileTable} : SpellsAll t [] []
  | cons {t : FileTable} {bytes more : List UInt8} {i : Instruction} {added : List FileEntry}
      {steps : List (Instruction × List FileEntry)} (first : c.Spells t bytes i added)
      (rest : SpellsAll (t.pushAll added) more steps) :
      SpellsAll t (bytes ++ more) ((i, added) :: steps)

variable {c} {t : FileTable} {bytes more : List UInt8}
  {steps later : List (Instruction × List FileEntry)}

theorem SpellsAll.append (h : c.SpellsAll t bytes steps)
    (hlater : c.SpellsAll (t.pushAll (definedFiles steps)) more later) :
    c.SpellsAll t (bytes ++ more) (steps ++ later) := by
  induction h with
  | nil => exact hlater
  | @cons t bytes rest i added steps hfirst _ ih =>
    rw [definedFiles, List.flatMap_cons, FileTable.pushAll_append] at hlater
    rw [List.append_assoc]
    exact .cons hfirst (ih hlater)

end Coding

namespace Decoder

@[simp] theorem coding_passed (d : Decoder) (h : Header) (n : Nat) (added : List FileEntry) :
    (d.passed n added).coding h = d.coding h := rfl

end Decoder

namespace Listing

open Instruction (decode)

variable {h : Header} {d : Decoder}

/-- Induction along the instructions that are decoded. -/
theorem decoder_induction {P : Decoder → Prop} (ended : ∀ d, d.cursor.isEmpty = true → P d)
    (fails : ∀ d e d', d.cursor.isEmpty = false → decode h d = .error e d' → P d)
    (decodes : ∀ d i d', d.cursor.isEmpty = false → decode h d = .ok i d' → P d' → P d)
    (d : Decoder) : P d := by
  induction hn : d.cursor.remaining using Nat.strong_induction_on generalizing d with
  | _ n ih =>
    cases hempty : d.cursor.isEmpty with
    | true => exact ended d hempty
    | false =>
      cases hdecode : decode h d with
      | error e d' => exact fails d e d' hempty hdecode
      | ok i d' =>
        exact decodes d i d' hempty hdecode
          (ih _ (hn ▸ Instruction.remaining_decode_lt hdecode hempty) d' rfl)

/-- Instructions that are spelled at the front of the window are listed first, and the listing goes
on behind them. -/
theorem ofDecoder_of_spellsAll {bytes rest : List UInt8}
    {steps : List (Instruction × List FileEntry)} (hsound : d.cursor.failure = none)
    (hsize : d.cursor.addressSize ∈ addressSizes)
    (hspells : (d.coding h).SpellsAll d.files bytes steps)
    (hwindow : d.cursor.window = bytes ++ rest) :
    ∃ listed : List (Instruction × Nat), listed.map Prod.fst = steps.map Prod.fst ∧
      ofDecoder h d =
        { ofDecoder h (d.passed bytes.length (definedFiles steps)) with
          instructions := listed ++
            (ofDecoder h (d.passed bytes.length (definedFiles steps))).instructions } := by
  generalize hc : d.coding h = c at hspells
  generalize ht : d.files = t at hspells
  induction hspells generalizing d with
  | nil => exact ⟨[], rfl, rfl⟩
  | @cons t bytes more i added steps hfirst hrest ih =>
    subst hc ht
    rw [List.append_assoc] at hwindow
    have hdecode := Instruction.reads_of_spells hsound hsize hfirst _ hwindow
    have hempty := Cursor.isEmpty_eq_false hwindow hfirst.length_pos
    obtain ⟨listed, hlisted, hlater⟩ := ih (d := d.passed bytes.length added) hsound hsize
      (by simp [hwindow]) rfl rfl
    have hdefined : added ++ definedFiles steps = definedFiles ((i, added) :: steps) := rfl
    rw [Decoder.passed_passed, ← List.length_append, hdefined] at hlater
    refine ⟨(i, d.cursor.offset + bytes.length) :: listed, by simp [hlisted], ?_⟩
    rw [ofDecoder_of_ok hempty hdecode, hlater]
    rfl

/-- Where a listing comes to the end, the program splits at the start and behind each instruction
into two sequences of instructions. -/
theorem exists_spellsAll (hsound : d.cursor.failure = none)
    (hsize : d.cursor.addressSize ∈ addressSizes) (hlisting : (ofDecoder h d).failure = none)
    {boundary : Nat}
    (hboundary : boundary ∈ d.cursor.offset :: (ofDecoder h d).instructions.map Prod.snd) :
    ∃ before first after second, d.cursor.window = before ++ after ∧
      boundary = d.cursor.offset + before.length ∧
      (d.coding h).SpellsAll d.files before first ∧
      (d.coding h).SpellsAll (d.files.pushAll (definedFiles first)) after second := by
  induction d using decoder_induction (h := h) generalizing boundary with
  | ended d hempty =>
    rw [ofDecoder_of_isEmpty hempty, List.map_nil, List.mem_singleton] at hboundary
    exact ⟨[], [], [], [], Cursor.window_of_isEmpty hempty, hboundary, .nil, .nil⟩
  | fails d e d' hempty herr =>
    rw [ofDecoder_of_error hempty herr] at hlisting
    cases hlisting
  | decodes d i d' hempty hok ih =>
    obtain ⟨bytes, rest, added, hwindow, hspells, rfl⟩ :=
      (Instruction.decode_accepts hsound hsize i d').mp hok
    rw [ofDecoder_of_ok hempty hok] at hlisting hboundary
    have hrest : (d.passed bytes.length added).cursor.window = rest := by simp [hwindow]
    have hlater := @ih hsound hsize hlisting
    rw [hrest] at hlater
    rcases List.mem_cons.mp hboundary with rfl | hboundary
    · obtain ⟨before, first, after, second, rfl, -, hbefore, hafter⟩ :=
        hlater (List.mem_cons_self ..)
      exact ⟨[], [], _, _, hwindow, rfl, .nil, .cons hspells (hbefore.append hafter)⟩
    · obtain ⟨before, first, after, second, rfl, hat, hbefore, hafter⟩ := hlater hboundary
      refine ⟨bytes ++ before, (i, added) :: first, after, second, ?_, ?_,
        .cons hspells hbefore, ?_⟩
      · rw [hwindow, List.append_assoc]
      · rw [hat, List.length_append, ← Nat.add_assoc]
        rfl
      · rw [definedFiles, List.flatMap_cons, FileTable.pushAll_append]
        exact hafter

theorem exists_spellsAll_window (hsound : d.cursor.failure = none)
    (hsize : d.cursor.addressSize ∈ addressSizes) (hlisting : (ofDecoder h d).failure = none) :
    ∃ steps, (d.coding h).SpellsAll d.files d.cursor.window steps := by
  obtain ⟨before, first, after, second, hwindow, -, hbefore, hafter⟩ :=
    exists_spellsAll hsound hsize hlisting (List.mem_cons_self ..)
  rw [hwindow]
  exact ⟨first ++ second, hbefore.append hafter⟩

theorem ofDecoder_of_spellsAll_window {steps : List (Instruction × List FileEntry)}
    (hsound : d.cursor.Sound) (hsize : d.cursor.addressSize ∈ addressSizes)
    (hspells : (d.coding h).SpellsAll d.files d.cursor.window steps) :
    (ofDecoder h d).instructions.map Prod.fst = steps.map Prod.fst ∧
      (ofDecoder h d).failure = none ∧
      (ofDecoder h d).decoder = d.passed d.cursor.window.length (definedFiles steps) := by
  obtain ⟨listed, hlisted, hlisting⟩ :=
    ofDecoder_of_spellsAll hsound.failure_eq hsize hspells (List.append_nil _).symm
  have hend : (d.passed d.cursor.window.length (definedFiles steps)).cursor.isEmpty = true :=
    (hsound.passed le_rfl).isEmpty_of_window (by rw [Cursor.window_passed, List.drop_length])
  rw [ofDecoder_of_isEmpty hend, List.append_nil] at hlisting
  rw [hlisting]
  exact ⟨hlisted, rfl, rfl⟩

end Listing

namespace Machine

variable {m : Machine} {steps : List (Instruction × List FileEntry)}

theorem failure_listing_of_errorFree (hm : m.failure = none) (h : m.ErrorFree) :
    m.listing.failure = none := by
  cases hfailure : m.listing.failure with
  | none => rfl
  | some e =>
    refine absurd ?_ (h e)
    rw [rows_eq_listed hm, listedItems, hfailure]
    simp

theorem rows_of_spellsAll (hsound : m.cursor.Sound) (hsize : m.cursor.addressSize ∈ addressSizes)
    (hspells : (m.coding m.header).SpellsAll m.files m.cursor.window steps) :
    let executed := Row.executeAll m.header.toLineParameters (steps.map Prod.fst) m.registers
    m.rows.1 = executed.2.map .ok ∧ m.rows.2.registers = executed.1 ∧
      m.rows.2.files = m.files.pushAll (definedFiles steps) := by
  obtain ⟨hinstructions, hfailure, hdecoder⟩ :=
    Listing.ofDecoder_of_spellsAll_window hsound hsize hspells
  rw [rows_eq_listed hsound.failure_eq]
  simp only [listedItems, listedMachine, instructions, listing, hinstructions, hfailure, hdecoder]
  exact ⟨List.append_nil _, trivial, rfl⟩

end Machine
end DebugLine
