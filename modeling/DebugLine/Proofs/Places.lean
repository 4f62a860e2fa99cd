import DebugLine.Proofs.Listing
import DebugLine.Proofs.Replay

/-!
# Where operations leave a machine

Whatever is done to a machine, as long as nothing fails it stands where a fresh one comes by single
steps. So the files that it shows are those of the header and one for each instruction on the way
that defines a file.
-/

namespace DebugLine

variable {α β : Type}

/-- Whether the instruction appends a file. -/
def Instruction.definesFile : Instruction → Bool
  | .defineFile _ => true
  | _ => false

theorem Cursor.fail_yields (p : α → Cursor → Prop) (e : LineError) :
    Yields p (Cursor.fail e : Read α) := by
  intro c a c' hok
  unfold Cursor.fail at hok
  cases hc : c.failure <;> simp [hc] at hok

namespace Decoder

/-- A decoding that succeeds with the value `a` shows `added a` files more. -/
def Adds (added : α → Nat) (x : Decode α) : Prop :=
  ∀ ⦃d a d'⦄, x d = .ok a d' → d'.files.count = d.files.count + added a

theorem Adds.pure {added : α → Nat} {a : α} (h : added a = 0) : Adds added (Pure.pure a) := by
  intro d b d' hok
  cases hok
  rw [h, Nat.add_zero]

theorem Adds.bind {added : β → Nat} {x : Decode α} {f : α → Decode β} (hx : Adds (fun _ => 0) x)
    (hf : ∀ a, Adds added (f a)) : Adds added (x >>= f) := by
  intro d b d' hok
  obtain ⟨a, t, ht, hok⟩ := bind_eq_ok.mp hok
  rw [hf a hok, hx ht, Nat.add_zero]

theorem Adds.bind_keeping {added : α → Nat} {x : Decode α} {f : α → Decode α} (hx : Adds added x)
    (hf : ∀ a, Adds (fun _ => 0) (f a)) (hkeep : ∀ a, Yields (fun b _ => b = a) (f a)) :
    Adds added (x >>= f) := by
  intro d b d' hok
  obtain ⟨a, t, ht, hok⟩ := bind_eq_ok.mp hok
  rw [hkeep a hok, hf a hok, Nat.add_zero, hx ht]

theorem Adds.ofRead_of_yields {added : α → Nat} {x : Read α}
    (hx : Yields (fun a _ => added a = 0) x) : Adds added (Decode.ofRead x) := by
  intro d a d' hok
  obtain ⟨c, hc, rfl⟩ := ofRead_eq_ok hok
  rw [hx hc, Nat.add_zero]

theorem Adds.ofRead (x : Read α) : Adds (fun _ => 0) (Decode.ofRead x) :=
  .ofRead_of_yields fun _ _ _ _ => rfl

theorem append_adds (entry : FileEntry) (offset : Nat) :
    Adds (fun _ => 1) (append entry offset) := by
  intro d u d' hok
  obtain ⟨t, v, hget, hok⟩ := bind_eq_ok.mp hok
  cases hget
  cases hlimit : d.files.reachedLimit? with
  | some limit =>
    rw [hlimit] at hok
    obtain ⟨c, hc, -⟩ := ofRead_eq_ok hok
    exact (Cursor.fail_yields (fun _ _ => False) _ hc).elim
  | none =>
    rw [hlimit] at hok
    cases hok
    simp [FileTable.count, FileTable.push]

theorem readEntry_adds (directories : Array String) :
    Adds Bool.toNat (readEntry directories) := by
  refine (Adds.ofRead Cursor.text).bind fun name => ?_
  split_ifs
  · exact .pure rfl
  · refine (Adds.ofRead Cursor.position).bind fun offset =>
      (Adds.ofRead Cursor.uleb128).bind fun index => ?_
    cases resolve directories index name with
    | none => exact .ofRead_of_yields (Cursor.fail_yields _ _)
    | some path =>
      refine (Adds.ofRead Cursor.uleb128).bind fun modificationTime =>
        (Adds.ofRead Cursor.uleb128).bind fun length => ?_
      intro d more d' hok
      obtain ⟨u, t, ht, hpure⟩ := bind_eq_ok.mp hok
      cases hpure
      exact append_adds _ _ ht

end Decoder

namespace Instruction

open Decoder (Adds)

theorem readStandard_yields (h : Header) (opcode : UInt8) :
    Yields (fun instruction _ => instruction.definesFile.toNat = 0) (readStandard h opcode) := by
  unfold readStandard
  cases StandardOpcode.ofCode? opcode with
  | none => exact .bind fun _ => .pure fun _ => rfl
  | some known =>
    cases known with
    | advancePc | advanceLine | setFile | setColumn | setIsa | fixedAdvancePc =>
      exact .bind fun _ => .pure fun _ => rfl
    | copy | negateStmt | setBasicBlock | constAddPc | setPrologueEnd | setEpilogueBegin =>
      exact .pure fun _ => rfl

theorem readOperands_adds (h : Header) (offset : Nat) (length : UInt64) (opcode : UInt8) :
    Adds (fun instruction => instruction.definesFile.toNat)
      (readOperands h offset length opcode) := by
  unfold readOperands
  cases ExtendedOpcode.ofCode? opcode with
  | none => exact .pure rfl
  | some known =>
    cases known with
    | endSequence => exact .pure rfl
    | setAddress => exact (Adds.ofRead Cursor.address).bind fun _ => .pure rfl
    | setDiscriminator => exact (Adds.ofRead Cursor.uleb128).bind fun _ => .pure rfl
    | defineFile =>
      intro d instruction d' hok
      obtain ⟨more, t, ht, hok⟩ := bind_eq_ok.mp hok
      cases more with
      | true =>
        cases hok
        exact Decoder.readEntry_adds _ ht
      | false =>
        obtain ⟨c, hc, -⟩ := Decoder.ofRead_eq_ok hok
        exact (Cursor.fail_yields (fun _ _ => False) _ hc).elim

theorem readExtended_adds (h : Header) (offset : Nat) :
    Adds (fun instruction => instruction.definesFile.toNat) (readExtended h offset) :=
  (Adds.ofRead Cursor.uleb128).bind fun length => (Adds.ofRead Cursor.position).bind fun _ =>
    (Adds.ofRead Cursor.uint8).bind fun opcode =>
      (readOperands_adds h offset length opcode).bind_keeping
        (fun _ => (Adds.ofRead Cursor.position).bind fun _ =>
          (Adds.ofRead (Cursor.require _ _)).bind fun _ =>
            (Adds.ofRead (Cursor.skip _)).bind fun _ => .pure rfl)
        fun _ => .bind fun _ => .bind fun _ => .bind fun _ => .pure fun _ => rfl

/-- Only an instruction that defines a file appends one. -/
theorem decode_adds (h : Header) :
    Adds (fun instruction => instruction.definesFile.toNat) (decode h) := by
  refine (Adds.ofRead Cursor.position).bind fun offset =>
    (Adds.ofRead Cursor.uint8).bind fun opcode => ?_
  split_ifs
  · exact .pure rfl
  · exact readExtended_adds h offset
  · exact .ofRead_of_yields (readStandard_yields h opcode)

end Instruction

namespace Machine

open Instruction (decode)

variable {start : Machine} {k : Nat}

/-- The first `k` steps of a fresh machine execute the first `k` instructions of its program, one
each. -/
structure Executes (start : Machine) (k : Nat) : Prop where
  le : k ≤ start.instructions.length
  sound : (start.afterSteps k).failure = none
  step_eq : ∀ j < k, ∃ instruction row d, start.instructions[j]? = some instruction ∧
    decode start.header (start.afterSteps j).toDecoder = .ok instruction d ∧
    step (start.afterSteps j) = .ok row (start.afterSteps (j + 1))
  instructions_eq : (start.afterSteps k).instructions = start.instructions.drop k
  count_eq : (start.afterSteps k).files.count =
    start.files.count + (start.instructions.take k).countP Instruction.definesFile

theorem executes_zero (hsound : start.failure = none) : Executes start 0 where
  le := Nat.zero_le _
  sound := hsound
  step_eq := nofun
  instructions_eq := rfl
  count_eq := rfl

theorem Executes.succ (h : Executes start k) (hend : (start.afterSteps k).atEnd = false)
    (hsound : (start.afterSteps (k + 1)).failure = none) : Executes start (k + 1) := by
  have hheader : (start.afterSteps k).header = start.header :=
    (afterSteps_onward (Nat.zero_le k)).header_eq
  have hnext : start.afterSteps (k + 1) = (step (start.afterSteps k)).state := rfl
  cases hdecode : decode (start.afterSteps k).header (start.afterSteps k).toDecoder with
  | error e d =>
    have hstep := step_of_decode_error h.sound hend hdecode
    rw [hnext, hstep] at hsound
    exact absurd (hsound.symm.trans (step_disciplined.records.error hstep)) nofun
  | ok instruction d =>
    have hstep := step_of_decode_ok h.sound hend hdecode
    rw [hstep, EStateM.Result.state_ok] at hnext
    have hrest : start.instructions.drop k =
        instruction :: (start.afterSteps (k + 1)).instructions := by
      rw [← h.instructions_eq, instructions_of_ok hend hdecode, hnext]
    have hget : start.instructions[k]? = some instruction := by
      rw [← List.head?_drop, hrest, List.head?_cons]
    refine ⟨(List.getElem?_eq_some_iff.mp hget).1, hsound, ?_, ?_, ?_⟩
    · intro j hj
      rcases Nat.lt_succ_iff_lt_or_eq.mp hj with hlt | rfl
      · exact h.step_eq j hlt
      · rw [hheader] at hdecode
        exact ⟨instruction, _, d, hget, hdecode, hnext ▸ hstep⟩
    · rw [← List.tail_drop, hrest, List.tail_cons]
    · have hadds : (start.afterSteps (k + 1)).files.count =
          (start.afterSteps k).files.count + instruction.definesFile.toNat := by
        rw [hnext]
        exact Instruction.decode_adds _ hdecode
      rw [hadds, h.count_eq, List.take_add_one, hget]
      cases hdefines : instruction.definesFile <;> simp [hdefines, Nat.add_assoc]

/-- Steps at the end of the program do nothing, so the others lead to the same place. -/
theorem exists_executes {n : Nat} (hsound : (start.afterSteps n).failure = none) :
    ∃ k, start.afterSteps n = start.afterSteps k ∧ Executes start k := by
  induction n with
  | zero => exact ⟨0, rfl, executes_zero hsound⟩
  | succ n ih =>
    have hn : (start.afterSteps n).failure = none := sound_of_le (Nat.le_succ n) hsound
    obtain ⟨k, heq, hk⟩ := ih hn
    have hnext : start.afterSteps (n + 1) = start.afterSteps (k + 1) :=
      congrArg (fun m => (step m).state) heq
    cases hend : (start.afterSteps k).atEnd with
    | false => exact ⟨k + 1, hnext, hk.succ hend (hnext ▸ hsound)⟩
    | true =>
      refine ⟨k, hnext.trans ?_, hk⟩
      change (step (start.afterSteps k)).state = _
      rw [step_of_atEnd hk.sound hend]
      rfl

end Machine

namespace Session

open Machine (step)

/-- As long as nothing fails, no operation leads off the way of single steps through the program. -/
theorem machine_after_eq {unit : CompileUnit} {bytes : Array UInt8} {settings : Settings}
    {start : Machine} (hopen : Machine.ofUnit unit bytes settings = .ok (some start))
    (operations : List Operation)
    (hsound : ((ofMachine start).after operations).machine.failure = none) :
    let m := ((ofMachine start).after operations).machine
    ∃ k ≤ start.instructions.length,
      (∀ j < k, ∃ instruction row d, start.instructions[j]? = some instruction ∧
        Instruction.decode start.header (start.afterSteps j).toDecoder = .ok instruction d ∧
        step (start.afterSteps j) = .ok row (start.afterSteps (j + 1))) ∧
      m.cursor = (start.afterSteps k).cursor ∧ m.registers = (start.afterSteps k).registers ∧
      m.files.visible = (start.afterSteps k).files.visible ∧
      m.files.count = start.header.initialFileCount +
        (start.instructions.take k).countP Instruction.definesFile := by
  intro m
  have hstart := Machine.fresh_of_ofUnit hopen
  obtain ⟨n, reach, -, hon⟩ :=
    (((Alike.ofFresh hstart).run hstart operations).2).onTrack hsound
  have hplace : m.shown = start.afterSteps n := hon.standing.shown_eq
  obtain ⟨k, heq, hk⟩ :=
    Machine.exists_executes ((congrArg Machine.failure hplace).symm.trans hsound)
  rw [heq] at hplace
  refine ⟨k, hk.le, hk.step_eq, congrArg (·.cursor) hplace, congrArg (·.registers) hplace,
    congrArg (·.files.visible) hplace, ?_⟩
  rw [hstart.initialFileCount_eq, ← hk.count_eq, ← hplace]
  rfl

/-- A session that has gone past the end, back to a saved position and behind a row that a lookup
found. -/
theorem machine_after_eq_definingFiles :
    ∃ start, Machine.ofUnit (definingFiles.unit 0) definingFiles.encode.toArray .unset =
        .ok (some start) ∧
      let m := ((ofMachine start).after
        [.nextRow, .checkpoint, .rows 9, .reset, .seekPc 1, .restore 0, .step]).machine
      m.failure = none ∧ ∃ k ≤ start.instructions.length,
        m.cursor = (start.afterSteps k).cursor ∧ m.registers = (start.afterSteps k).registers ∧
        m.files.visible = (start.afterSteps k).files.visible ∧
        m.files.count = start.header.initialFileCount +
          (start.instructions.take k).countP Instruction.definesFile := by
  obtain ⟨start, hopen, hsound⟩ : ∃ start,
      Machine.ofUnit (definingFiles.unit 0) definingFiles.encode.toArray .unset =
        .ok (some start) ∧
      ((ofMachine start).after [.nextRow, .checkpoint, .rows 9, .reset, .seekPc 1, .restore 0,
        .step]).machine.failure = none := Machine.exists_of_opened (by decide +kernel)
  obtain ⟨k, hk, -, hplace⟩ := machine_after_eq hopen _ hsound
  exact ⟨start, hopen, hsound, k, hk, hplace⟩

end Session
end DebugLine
