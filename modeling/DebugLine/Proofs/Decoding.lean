import DebugLine.Instruction.Decode
import DebugLine.Proofs.Reading

/-!
# Decoding appends files and sees only visible ones

A decoder reads, and now and then appends a file. What it appends takes the place of the hidden
entries one after another, and the hidden entries decide nothing. An instruction takes at least the
byte of its opcode.
-/

namespace DebugLine

variable {α β : Type}

namespace FileTable

/-- The table without the entries that it hides. -/
def shown (t : FileTable) : FileTable := { t with hidden := [] }

/-- `t'` shows the files of `t` and further ones, which took the places of hidden entries. -/
def Extended (t t' : FileTable) : Prop :=
  ∃ added : List FileEntry, t'.visible.toList = t.visible.toList ++ added ∧
    t'.hidden = t.hidden.drop added.length ∧ t'.limit = t.limit

instance : IsPreorder FileTable Extended where
  refl t := ⟨[], by simp, rfl, rfl⟩
  trans := by
    rintro t u v ⟨new, hvis, hhid, hlim⟩ ⟨newer, hvis', hhid', hlim'⟩
    refine ⟨new ++ newer, by rw [hvis', hvis, List.append_assoc], ?_, hlim'.trans hlim⟩
    rw [hhid', hhid, List.drop_drop, List.length_append]

theorem extended_push (t : FileTable) (entry : FileEntry) : Extended t (t.push entry) :=
  ⟨[entry], visible_push t entry, by simp [push], rfl⟩

theorem Extended.visible_isPrefix {t t' : FileTable} (h : Extended t t') :
    t.visible.toList <+: t'.visible.toList := by
  obtain ⟨added, hvis, -⟩ := h
  exact ⟨added, hvis.symm⟩

theorem Extended.hidden_eq_nil {t t' : FileTable} (h : Extended t t') (ht : t.hidden = []) :
    t'.hidden = [] := by
  obtain ⟨added, -, hhid, -⟩ := h
  rw [hhid, ht, List.drop_nil]

/-- Appending what is stored already changes nothing that is stored. -/
theorem Extended.stored_eq {t t' : FileTable} (h : Extended t t')
    (hpre : t'.visible.toList <+: t.stored) : t'.stored = t.stored := by
  obtain ⟨added, hvis, hhid, -⟩ := h
  obtain ⟨rest, hrest⟩ := hpre
  rw [hvis, stored, List.append_assoc, List.append_cancel_left_eq] at hrest
  simp only [stored, hvis, hhid, ← hrest, List.drop_left, List.append_assoc]

theorem reachedLimit?_shown (t : FileTable) : t.shown.reachedLimit? = t.reachedLimit? := rfl

theorem stored_of_hidden_eq_nil {t : FileTable} (h : t.hidden = []) :
    t.stored = t.visible.toList := by
  rw [stored, h, List.append_nil]

end FileTable

namespace Decoder

/-- The decoder without the files that its table hides. -/
def shown (d : Decoder) : Decoder := { d with files := d.files.shown }

structure Onward (d d' : Decoder) : Prop where
  cursor : d.cursor.Onward d'.cursor
  files : d.files.Extended d'.files

instance : IsPreorder Decoder Onward where
  refl _ := ⟨refl_of Cursor.Onward _, refl_of FileTable.Extended _⟩
  trans _ _ _ h h' :=
    ⟨trans_of Cursor.Onward h.cursor h'.cursor, trans_of FileTable.Extended h.files h'.files⟩

/-- Decoding that moves on, appends files, records its failure and sees no hidden file. -/
abbrev Disciplined (x : Decode α) : Prop := Regular Onward (fun d => d.cursor.failure) shown x

theorem ofRead_ignores (x : Read α) : Ignores shown (Decode.ofRead x) := by
  intro d
  have hcursor : d.shown.cursor = d.cursor := rfl
  unfold Decode.ofRead
  rw [hcursor]
  cases x d.cursor <;> rfl

theorem ofRead_eq_ok {x : Read α} {d d' : Decoder} {a : α} (h : Decode.ofRead x d = .ok a d') :
    ∃ c, x d.cursor = .ok a c ∧ d' = { d with cursor := c } := by
  unfold Decode.ofRead at h
  cases hx : x d.cursor with
  | ok b c =>
    simp only [hx, EStateM.Result.ok.injEq] at h
    exact ⟨c, by rw [h.1], h.2.symm⟩
  | error e c => simp [hx] at h

theorem ofRead_bind_eq_ok {x : Read α} {f : α → Decode β} {d d' : Decoder} {b : β}
    (h : (Decode.ofRead x >>= f) d = .ok b d') :
    ∃ a c, x d.cursor = .ok a c ∧ f a { d with cursor := c } = .ok b d' := by
  obtain ⟨a, t, ht, h⟩ := bind_eq_ok.mp h
  obtain ⟨c, hc, rfl⟩ := ofRead_eq_ok ht
  exact ⟨a, c, hc, h⟩

theorem ofRead_eq_error {x : Read α} {d d' : Decoder} {e : LineError}
    (h : Decode.ofRead x d = .error e d') :
    ∃ c, x d.cursor = .error e c ∧ d' = { d with cursor := c } := by
  unfold Decode.ofRead at h
  cases hx : x d.cursor with
  | ok b c => simp [hx] at h
  | error first c =>
    simp only [hx, EStateM.Result.error.injEq] at h
    exact ⟨c, by rw [h.1], h.2.symm⟩

theorem ofRead_records {x : Read α} (h : Records Cursor.failure x) :
    Records (fun d : Decoder => d.cursor.failure) (Decode.ofRead x) where
  ok := by
    intro d a d' hok
    obtain ⟨c, hc, rfl⟩ := ofRead_eq_ok hok
    exact h.ok hc
  error := by
    intro d e d' herr
    obtain ⟨c, hc, rfl⟩ := ofRead_eq_error herr
    exact h.error hc

theorem ofRead_disciplined {x : Read α} (h : Cursor.Disciplined x) :
    Disciplined (Decode.ofRead x) where
  moves d := by
    have hmove := h.moves d.cursor
    unfold Decode.ofRead
    cases hx : x d.cursor <;>
    · rw [hx] at hmove
      exact ⟨hmove, refl_of FileTable.Extended _⟩
  records := ofRead_records h.records
  ignores := ofRead_ignores x

theorem append_disciplined (entry : FileEntry) (offset : Nat) :
    Disciplined (append entry offset) := by
  refine .get_bind (fun d => by simp only [shown, FileTable.reachedLimit?_shown]) fun d => ?_
  cases d.files.reachedLimit? with
  | some limit => exact ofRead_disciplined (Cursor.fail_disciplined _)
  | none =>
    exact
      { moves := fun d => ⟨refl_of Cursor.Onward _, d.files.extended_push entry⟩
        records :=
          { ok := by intro d u d' h; cases h; rfl
            error := by intro d e d' h; cases h }
        ignores := fun d => rfl }

theorem readEntry_disciplined (directories : Array String) :
    Disciplined (readEntry directories) := by
  apply (ofRead_disciplined Cursor.text_disciplined).bind
  intro name
  split_ifs
  · exact .pure false
  · apply (ofRead_disciplined Cursor.position_disciplined).bind
    intro offset
    apply (ofRead_disciplined Cursor.uleb128_disciplined).bind
    intro index
    cases resolve directories index name with
    | none => exact ofRead_disciplined (Cursor.fail_disciplined _)
    | some path =>
      exact (ofRead_disciplined Cursor.uleb128_disciplined).bind fun _ =>
        (ofRead_disciplined Cursor.uleb128_disciplined).bind fun _ =>
          (append_disciplined _ _).bind fun _ => .pure true

theorem readEntriesWithin_disciplined (directories : Array String) (most : Nat) :
    Disciplined (readEntriesWithin directories most) := by
  induction most with
  | zero => exact .pure ()
  | succ most ih =>
    apply (readEntry_disciplined directories).bind
    intro more
    split_ifs
    · exact ih
    · exact .pure ()

theorem readEntries_disciplined (directories : Array String) :
    Disciplined (readEntries directories) :=
  .get_bind (fun _ => rfl) fun _ => readEntriesWithin_disciplined directories _

end Decoder

namespace Instruction

open Decoder (Disciplined ofRead_disciplined)

theorem readKnown_disciplined (opcode : StandardOpcode) :
    Cursor.Disciplined (readKnown opcode) := by
  cases opcode with
  | advanceLine => exact Cursor.sleb128_disciplined.bind fun _ => .pure _
  | fixedAdvancePc => exact Cursor.uint16_disciplined.bind fun _ => .pure _
  | advancePc | setFile | setColumn | setIsa =>
    exact Cursor.uleb128_disciplined.bind fun _ => .pure _
  | copy | negateStmt | setBasicBlock | constAddPc | setPrologueEnd | setEpilogueBegin =>
    exact .pure _

theorem readStandard_disciplined (h : Header) (opcode : UInt8) :
    Cursor.Disciplined (readStandard h opcode) := by
  unfold readStandard
  cases StandardOpcode.ofCode? opcode with
  | some known => exact readKnown_disciplined known
  | none =>
    exact ((Cursor.times_disciplined Cursor.uleb128_disciplined _).bind fun _ => .pure ()).bind
      fun _ => .pure _

theorem readOperands_disciplined (h : Header) (offset : Nat) (length : UInt64) (opcode : UInt8) :
    Disciplined (readOperands h offset length opcode) := by
  unfold readOperands
  cases ExtendedOpcode.ofCode? opcode with
  | none => exact .pure _
  | some known =>
    cases known with
    | endSequence => exact .pure _
    | setAddress => exact (ofRead_disciplined Cursor.address_disciplined).bind fun _ => .pure _
    | setDiscriminator =>
      exact (ofRead_disciplined Cursor.uleb128_disciplined).bind fun _ => .pure _
    | defineFile =>
      apply (Decoder.readEntry_disciplined _).bind
      intro read
      split_ifs
      · exact .get_bind (fun _ => rfl) fun _ => .pure _
      · exact ofRead_disciplined (Cursor.fail_disciplined _)

theorem readExtended_disciplined (h : Header) (offset : Nat) :
    Disciplined (readExtended h offset) :=
  (ofRead_disciplined Cursor.uleb128_disciplined).bind fun length =>
    (ofRead_disciplined Cursor.position_disciplined).bind fun _ =>
      (ofRead_disciplined Cursor.uint8_disciplined).bind fun opcode =>
        (readOperands_disciplined h offset length opcode).bind fun instruction =>
          (ofRead_disciplined Cursor.position_disciplined).bind fun _ =>
            (ofRead_disciplined (Cursor.require_disciplined _ _)).bind fun _ =>
              (ofRead_disciplined (Cursor.skip_disciplined _)).bind fun _ => .pure instruction

/-- What follows the opcode of an instruction. -/
theorem decode_rest_disciplined (h : Header) (offset : Nat) (opcode : UInt8) :
    Disciplined (if h.opcodeBase ≤ opcode then pure (special opcode)
      else if opcode = 0 then readExtended h offset else readStandard h opcode) := by
  split_ifs
  · exact .pure _
  · exact readExtended_disciplined h offset
  · exact ofRead_disciplined (readStandard_disciplined h opcode)

theorem decode_disciplined (h : Header) : Disciplined (decode h) :=
  (ofRead_disciplined Cursor.position_disciplined).bind fun offset =>
    (ofRead_disciplined Cursor.uint8_disciplined).bind fun opcode =>
      decode_rest_disciplined h offset opcode

section Moves

variable {r : Decoder → Decoder → Prop} [IsPreorder Decoder r] {h : Header}
variable (hread : ∀ {γ : Type} {x : Read γ}, Cursor.Disciplined x → Moves r (Decode.ofRead x))
variable (hentry : Moves r (Decoder.readEntry h.includeDirectories))
include hread hentry

theorem readOperands_moves (offset : Nat) (length : UInt64) (opcode : UInt8) :
    Moves r (readOperands h offset length opcode) := by
  unfold readOperands
  cases ExtendedOpcode.ofCode? opcode with
  | none => exact .pure _
  | some known =>
    cases known with
    | endSequence => exact .pure _
    | setAddress => exact (hread Cursor.address_disciplined).bind fun _ => .pure _
    | setDiscriminator => exact (hread Cursor.uleb128_disciplined).bind fun _ => .pure _
    | defineFile =>
      apply hentry.bind
      intro read
      split_ifs
      · exact Moves.get.bind fun _ => .pure _
      · exact hread (Cursor.fail_disciplined _)

theorem readExtended_moves (offset : Nat) : Moves r (readExtended h offset) :=
  (hread Cursor.uleb128_disciplined).bind fun length =>
    (hread Cursor.position_disciplined).bind fun _ =>
      (hread Cursor.uint8_disciplined).bind fun opcode =>
        (readOperands_moves hread hentry offset length opcode).bind fun instruction =>
          (hread Cursor.position_disciplined).bind fun _ =>
            (hread (Cursor.require_disciplined _ _)).bind fun _ =>
              (hread (Cursor.skip_disciplined _)).bind fun _ => .pure instruction

/-- Only an entry of a file does more in a decoder than reading does. -/
theorem decode_moves : Moves r (decode h) := by
  apply (hread Cursor.position_disciplined).bind
  intro offset
  apply (hread Cursor.uint8_disciplined).bind
  intro opcode
  split_ifs
  · exact .pure _
  · exact readExtended_moves hread hentry offset
  · exact hread (readStandard_disciplined h opcode)

end Moves

/-- A decoded instruction took at least the byte of its opcode. -/
theorem decode_progress {h : Header} {d d' : Decoder} {instruction : Instruction}
    (hok : decode h d = .ok instruction d') : d.cursor.offset < d'.cursor.offset := by
  obtain ⟨offset, u, hu, hok⟩ := bind_eq_ok.mp hok
  cases hu
  obtain ⟨opcode, v, hv, hok⟩ := bind_eq_ok.mp hok
  obtain ⟨c, hc, rfl⟩ := Decoder.ofRead_eq_ok hv
  obtain ⟨-, rfl⟩ := Cursor.uint8_eq_ok hc
  have hrest := (decode_rest_disciplined h d.cursor.offset opcode).moves
    { d with cursor := { d.cursor with offset := d.cursor.offset + 1 } }
  rw [hok] at hrest
  exact hrest.cursor.offset_le

end Instruction
end DebugLine
