import DebugLine.Proofs.Framing
import DebugLine.Proofs.Growth
import DebugLine.Proofs.OneProgram
import DebugLine.Proofs.WellFormed

/-!
# A failing instruction executes nothing

A step that fails has read at least a byte and changed no register. It has appended a file in one
case only: the instruction defines a file, the entry is complete, and then its frame turns out to
end too soon or to be cut off by the unit. All other failures come before the entry is appended, or
in instructions that append none.
-/

namespace DebugLine

variable {α β : Type}

theorem ExtendedOpcode.code_of_ofCode? {opcode : UInt8} {known : ExtendedOpcode}
    (h : ofCode? opcode = some known) : known.code = opcode := by
  unfold ofCode? at h
  split at h <;> cases h <;>
  · next hcode => exact UInt8.toNat_inj.mp hcode.symm

namespace Decoder

variable {d d' u : Decoder} {e : LineError}

/-- Where the decoding fails, it has appended nothing. -/
def FailsClean (x : Decode α) : Prop := ∀ ⦃d e d'⦄, x d = .error e d' → d'.files = d.files

namespace FailsClean

theorem ofRead (x : Read α) : FailsClean (Decode.ofRead x) := by
  intro d e d' h
  obtain ⟨c, -, rfl⟩ := ofRead_eq_error h
  rfl

theorem pure (a : α) : FailsClean (Pure.pure a : Decode α) := by
  intro d e d' h
  cases h

theorem ofRead_bind (x : Read α) {f : α → Decode β} (hf : ∀ a, FailsClean (f a)) :
    FailsClean (Decode.ofRead x >>= f) := by
  intro d e d' h
  rcases bind_eq_error.mp h with hfails | ⟨a, u, hread, hrest⟩
  · exact ofRead x hfails
  · obtain ⟨c, -, rfl⟩ := ofRead_eq_ok hread
    exact (hf a hrest).trans rfl

theorem bind_pure {x : Decode α} (hx : FailsClean x) (f : α → β) :
    FailsClean (x >>= fun a => Pure.pure (f a)) := by
  intro d e d' h
  rcases bind_eq_error.mp h with hfails | ⟨a, u, -, hpure⟩
  · exact hx hfails
  · cases hpure

end FailsClean

theorem append_failsClean (entry : FileEntry) (offset : Nat) :
    FailsClean (append entry offset) := by
  intro d e d' h
  cases hlimit : d.files.reachedLimit? with
  | some limit =>
    rw [append_of_limit hlimit] at h
    exact FailsClean.ofRead _ h
  | none =>
    rw [append_of_room hlimit] at h
    cases h

theorem readEntry_failsClean (directories : Array String) : FailsClean (readEntry directories) := by
  rw [readEntry_eq]
  refine .ofRead_bind _ fun name => ?_
  split_ifs
  · exact .pure false
  · refine .ofRead_bind _ fun offset => .ofRead_bind _ fun index => ?_
    cases resolve directories index name with
    | none => exact .ofRead _
    | some path =>
      exact .ofRead_bind _ fun _ => .ofRead_bind _ fun _ => (append_failsClean _ _).bind_pure _

theorem files_of_readEntry_false {directories : Array String}
    (h : readEntry directories d = .ok false u) : u.files = d.files := by
  rcases (readEntry_eq_ok_iff (sound_of_readEntry h)).mp h with ⟨-, rest, -, rfl⟩ | ⟨hmore, -⟩
  · rfl
  · cases hmore

end Decoder

namespace Instruction

open Decoder (FailsClean Reads of_ofRead_bind)
open Leb128 (IsUnsigned unsignedWord)

variable {h : Header} {d d' u : Decoder} {e : LineError} {offset : Nat} {word : UInt64}
variable {opcode : UInt8} {body : UInt8 × Instruction}

theorem closeFrame_failsClean (offset start declared : Nat) (body : UInt8 × Instruction) :
    FailsClean (closeFrame offset start declared body) :=
  .ofRead_bind _ fun _ => .ofRead_bind _ fun _ => .ofRead_bind _ fun _ => .pure _

theorem readOperands_failsClean (h : Header) (offset : Nat) (length : UInt64) (opcode : UInt8) :
    FailsClean (readOperands h offset length opcode) := by
  unfold readOperands
  cases ExtendedOpcode.ofCode? opcode with
  | none => exact .pure _
  | some known =>
    cases known with
    | endSequence => exact .pure _
    | setAddress => exact (FailsClean.ofRead _).bind_pure setAddress
    | setDiscriminator => exact (FailsClean.ofRead _).bind_pure setDiscriminator
    | defineFile =>
      intro d e d' herr
      rcases bind_eq_error.mp herr with hentry | ⟨more, u, hentry, hrest⟩
      · exact Decoder.readEntry_failsClean _ hentry
      · cases more with
        | true => cases hrest
        | false => exact (FailsClean.ofRead _ hrest).trans (Decoder.files_of_readEntry_false hentry)

theorem readBody_failsClean (h : Header) (offset : Nat) (length : UInt64) :
    FailsClean (readBody h offset length) :=
  .ofRead_bind _ fun opcode => (readOperands_failsClean h offset length opcode).bind_pure _

/-- The instruction at the cursor defines a file and its entry is complete, but the frame that its
length declares ends before the entry or behind the unit. -/
structure Misframed (h : Header) (d : Decoder) (length rest : List UInt8) (file : EntryLayout) :
    Prop where
  window_eq : d.cursor.window =
    0 :: (length ++ ExtendedOpcode.defineFile.code :: (file.bytes ++ rest))
  isUnsigned : IsUnsigned length
  valid : file.Valid h.includeDirectories
  hasRoom : d.files.HasRoom 1
  declared : (unsignedWord length).toNat < 1 + file.bytes.length ∨
    1 + file.bytes.length + rest.length < (unsignedWord length).toNat

theorem window_behind_length {length tail : List UInt8}
    (hwindow : d.cursor.window = 0 :: (length ++ tail)) :
    (d.passed (1 + length.length) []).cursor.window = tail := by
  rw [Decoder.cursor_passed, Cursor.window_passed, hwindow, ← List.drop_drop, List.drop_one,
    List.tail_cons, List.drop_left]

section Sound

variable (hsound : d.cursor.failure = none)
include hsound

theorem reads_body_of_file {file : EntryLayout} (hfile : file.Valid h.includeDirectories)
    (hroom : d.files.HasRoom 1) (offset : Nat) (word : UInt64) :
    Reads (readBody h offset word) d (ExtendedOpcode.defineFile.code :: file.bytes)
      (ExtendedOpcode.defineFile.code, defineFile (UInt64.ofNat (d.files.count + 1)))
      [file.entry h.includeDirectories] := by
  change Reads _ d ([ExtendedOpcode.defineFile.code] ++ file.bytes) _ _
  refine .ofRead_bind (Cursor.uint8_accepts hsound) rfl (Reads.map ?_ (Prod.mk _))
  unfold readOperands
  rw [ExtendedOpcode.ofCode?_code]
  exact reads_defineFile_operands (d := d.passed 1 []) hsound hfile hroom offset

/-- A body that is read appends nothing, unless it is the complete entry of a file. -/
theorem files_of_readBody_ok (hbody : readBody h offset word d = .ok body u) :
    u.files = d.files ∨ ∃ (file : EntryLayout) (rest : List UInt8),
      d.cursor.window = ExtendedOpcode.defineFile.code :: (file.bytes ++ rest) ∧
      file.Valid h.includeDirectories ∧ d.files.HasRoom 1 := by
  obtain ⟨_, opcode, hwindow, rfl, hok⟩ := of_ofRead_bind (Cursor.uint8_accepts hsound) hbody
  obtain ⟨i, t, hoperands, hpure⟩ := bind_eq_ok.mp hok
  cases hpure
  unfold readOperands at hoperands
  cases hcode : ExtendedOpcode.ofCode? opcode with
  | none =>
    rw [hcode] at hoperands
    cases hoperands
    exact .inl rfl
  | some known =>
    rw [hcode] at hoperands
    cases known with
    | endSequence =>
      cases hoperands
      exact .inl rfl
    | setAddress | setDiscriminator =>
      obtain ⟨_, _, -, hpure⟩ := Decoder.ofRead_bind_eq_ok hoperands
      cases hpure
      exact .inl rfl
    | defineFile =>
      obtain ⟨more, t, hentry, hrest⟩ := bind_eq_ok.mp hoperands
      rcases Decoder.of_readEntry (by exact hsound) hentry with
        ⟨rfl, -⟩ | ⟨rfl, file, hentryAt, hfile, hroom⟩
      · exact absurd hrest Decoder.ofRead_fail_ne_ok
      · rw [← ExtendedOpcode.code_of_ofCode? hcode] at hwindow
        rw [List.singleton_append] at hwindow
        exact .inr ⟨file, _, hwindow.trans (congrArg (List.cons _) hentryAt), hfile, hroom⟩

/-- An entry that has been appended does not come back out of the table, so the frame of its
instruction must be at fault. -/
theorem files_of_extended_error {length tail : List UInt8} (hbase : h.opcodeBase ≠ 0)
    (hwindow : d.cursor.window = 0 :: (length ++ tail)) (hlength : IsUnsigned length)
    (herr : decode h d = .error e d') :
    d'.files = d.files ∨ ∃ rest file, Misframed h d length rest file := by
  have hbehind := window_behind_length hwindow
  rw [decode_extended hsound hbase hwindow hlength] at herr
  rcases bind_eq_error.mp herr with hbody | ⟨body, u, hbody, hclose⟩
  · exact .inl ((readBody_failsClean _ _ _ hbody).trans rfl)
  · rcases files_of_readBody_ok (by exact hsound) hbody with
      hsame | ⟨file, rest, hfileAt, hvalid, hroom⟩
    · exact .inl ((closeFrame_failsClean _ _ _ _ hclose).trans hsame)
    -- The body is just the entry, so its length says how the frame has failed.
    · refine .inr ⟨rest, file, ?_, hlength, hvalid, hroom, ?_⟩
      · rw [hwindow, ← hbehind, hfileAt]
      · rw [reads_body_of_file (by exact hsound) hvalid hroom _ _ _ hfileAt] at hbody
        cases hbody
        have hframe := closeFrame_eq_error (by exact hsound) hclose
        simp only [Decoder.cursor_passed _ [file.entry _], Cursor.offset_passed,
          Cursor.window_passed, hfileAt, Nat.add_sub_cancel_left, List.length_drop,
          List.length_cons, List.length_append] at hframe
        omega

theorem files_of_unframed_error
    (hunframed : ∀ length tail, IsUnsigned length → d.cursor.window ≠ 0 :: (length ++ tail))
    (herr : decode h d = .error e d') : d'.files = d.files := by
  rcases bind_eq_error.mp (show (Decode.ofRead Cursor.uint8 >>= _) d = _ from herr) with
    hopcode | ⟨opcode, t, hopcode, hrest⟩
  · exact FailsClean.ofRead _ hopcode
  · obtain ⟨c, hc, rfl⟩ := Decoder.ofRead_eq_ok hopcode
    obtain ⟨_, rest, hwindow, rfl, rfl⟩ := (Cursor.uint8_accepts hsound _ _).mp hc
    change d'.files = { d with cursor := d.cursor.passed 1 : Decoder }.files
    split_ifs at hrest with habove hzero
    · cases hrest
    · subst hzero
      rw [readExtended_eq] at hrest
      rcases bind_eq_error.mp hrest with hcount | ⟨word, t, hcount, -⟩
      · exact FailsClean.ofRead _ hcount
      · obtain ⟨c, hc, -⟩ := Decoder.ofRead_eq_ok hcount
        obtain ⟨length, tail, hafter, ⟨hlength, -⟩, -⟩ :=
          (Cursor.uleb128_accepts (by exact hsound) _ _).mp hc
        rw [List.length_singleton, Cursor.window_passed, hwindow, List.drop_one] at hafter
        exact absurd (hwindow.trans (congrArg (List.cons 0) hafter)) (hunframed length tail hlength)
    · exact FailsClean.ofRead _ hrest

/-- A decoding that fails has appended the entry of an instruction that is framed wrongly, and
nothing in all other cases. -/
theorem files_of_decode_error (hbase : h.opcodeBase ≠ 0) (herr : decode h d = .error e d') :
    (∃ length rest file, Misframed h d length rest file ∧
        d'.files = d.files.push (file.entry h.includeDirectories)) ∨
      (∀ length rest file, ¬ Misframed h d length rest file) ∧ d'.files = d.files := by
  by_cases hmisframed : ∃ length rest file, Misframed h d length rest file
  · obtain ⟨length, rest, file, hfile⟩ := hmisframed
    have hbody := reads_body_of_file (d := d.passed (1 + length.length) []) hsound hfile.valid
      hfile.hasRoom d.cursor.offset (unsignedWord length) rest
      (window_behind_length hfile.window_eq)
    rw [decode_extended hsound hbase hfile.window_eq hfile.isUnsigned, bind_of_ok hbody] at herr
    exact .inl ⟨length, rest, file, hfile, closeFrame_failsClean _ _ _ _ herr⟩
  · refine .inr ⟨fun length rest file hfile => hmisframed ⟨length, rest, file, hfile⟩, ?_⟩
    by_cases hframed : ∃ length tail, IsUnsigned length ∧ d.cursor.window = 0 :: (length ++ tail)
    · obtain ⟨length, tail, hlength, hwindow⟩ := hframed
      rcases files_of_extended_error hsound hbase hwindow hlength herr with
        hsame | ⟨rest, file, hfile⟩
      · exact hsame
      · exact absurd ⟨length, rest, file, hfile⟩ hmisframed
    · exact files_of_unframed_error hsound
        (fun length tail hlength hwindow => hframed ⟨length, tail, hlength, hwindow⟩) herr

end Sound

theorem offset_lt_of_decode_error (hsound : d.cursor.failure = none)
    (hwindow : d.cursor.window ≠ []) (herr : decode h d = .error e d') :
    d.cursor.offset < d'.cursor.offset := by
  obtain ⟨opcode, rest, hwindow⟩ := List.exists_cons_of_ne_nil hwindow
  have hopcode : Cursor.uint8 d.cursor = .ok opcode (d.cursor.passed 1) :=
    (Cursor.uint8_accepts hsound).reads rfl rest hwindow
  change (Decode.ofRead Cursor.uint8 >>= _) d = _ at herr
  rw [bind_of_ok (Decoder.ofRead_of_ok hopcode)] at herr
  have hrest := (decode_rest_disciplined h d.cursor.offset opcode).moves.of_error herr
  exact hrest.cursor.offset_le

end Instruction

namespace Machine

open Instruction (decode Misframed)

variable {start m m' : Machine} {e : LineError}

/-- What is left of `m` where a step fails with `e`. -/
structure Fails (m : Machine) (e : LineError) (m' : Machine) : Prop where
  step_eq : step m = .error e m'
  registers_eq : m'.registers = m.registers
  offset_lt : m.cursor.offset < m'.cursor.offset
  offset_le : m'.cursor.offset ≤ m.header.endOffset
  failure_eq : m'.failure = some e
  files : (∃ length rest file, Misframed m.header m.toDecoder length rest file ∧
      m'.files = m.files.push (file.entry m.header.includeDirectories)) ∨
    (∀ length rest file, ¬ Misframed m.header m.toDecoder length rest file) ∧ m'.files = m.files

theorem decode_of_step_error (hsound : m.failure = none) (hstep : step m = .error e m') :
    m.atEnd = false ∧
      ∃ d, decode m.header m.toDecoder = .error e d ∧ m' = { m with toDecoder := d } := by
  have hend : m.atEnd = false := atEnd_eq_false_of_step hsound (by simp [hstep])
  refine ⟨hend, ?_⟩
  cases hdecode : decode m.header m.toDecoder with
  | ok i d =>
    rw [step_of_decode_ok hsound hend hdecode] at hstep
    cases hstep
  | error first d =>
    rw [step_of_decode_error hsound hend hdecode] at hstep
    cases hstep
    exact ⟨d, rfl, rfl⟩

theorem Shares.fails (hstart : Fresh start) (h : Shares start m)
    (hbase : start.header.opcodeBase ≠ 0) (hsound : m.failure = none)
    (hstep : step m = .error e m') : Fails m e m' := by
  have hmove := step_disciplined.moves.of_error hstep
  have hregisters := registers_of_step_error hstep
  have hfailure := step_disciplined.records.error hstep
  obtain ⟨hend, d, hdecode, rfl⟩ := decode_of_step_error hsound hstep
  have hwindow : m.cursor.window ≠ [] := by
    intro hnil
    have hlength := Cursor.length_window (h.limit_le_size hstart)
    rw [hnil, List.length_nil] at hlength
    simp [atEnd, Cursor.isEmpty, ← hlength] at hend
  have hoffset : d.cursor.offset ≤ d.cursor.limit :=
    hmove.decoder.cursor.offset_le_limit h.offset_le
  have hunit : d.cursor.limit = m.cursor.limit := hmove.decoder.cursor.limit_eq
  exact
    { step_eq := hstep
      registers_eq := hregisters
      offset_lt := Instruction.offset_lt_of_decode_error hsound hwindow hdecode
      offset_le := (hoffset.trans_eq hunit).trans (h.limit_le_endOffset hstart)
      failure_eq := hfailure
      files := Instruction.files_of_decode_error hsound (h.header_eq ▸ hbase) hdecode }

theorem afterSteps_succ (m : Machine) (n : Nat) :
    m.afterSteps (n + 1) = (step m).state.afterSteps n := by
  induction n with
  | zero => rfl
  | succ n ih =>
    change (step (m.afterSteps (n + 1))).state = _
    rw [ih]
    rfl

theorem exists_failing_step (hrow : nextRow m = .error e m') :
    ∃ n, (∀ k < n, step (m.afterSteps k) = .ok none (m.afterSteps (k + 1))) ∧
      step (m.afterSteps n) = .error e m' := by
  induction m using nextRow_induction with
  | stuck m hsound hend =>
    rw [nextRow_of_atEnd hsound hend] at hrow
    cases hrow
  | emits m row t ht =>
    rw [nextRow_of_emits ht] at hrow
    cases hrow
  | fails m first t ht =>
    rw [nextRow_of_fails ht] at hrow
    cases hrow
    exact ⟨0, by simp, ht⟩
  | silent m t hend ht ih =>
    rw [nextRow_of_silent ht] at hrow
    obtain ⟨n, hsilent, hfails⟩ := ih hrow
    have hafter (k : Nat) : m.afterSteps (k + 1) = t.afterSteps k := by
      rw [afterSteps_succ, ht]
      rfl
    refine ⟨n + 1, fun k hk => ?_, by rw [hafter]; exact hfails⟩
    cases k with
    | zero =>
      rw [hafter]
      exact ht
    | succ k =>
      rw [hafter, hafter]
      exact hsilent k (Nat.lt_of_succ_lt_succ hk)

end Machine

namespace Clones

open Machine (step nextRow)

/-- A step that fails keeps the registers, moves on inside the unit and records its failure. It has
appended a file just where the entry of a file is complete and its frame is at fault. A failing call
for the next row is such a step behind steps that went well. -/
theorem failures_execute_nothing {unit : CompileUnit} {bytes : Array UInt8} {settings : Settings}
    {start m : Machine} (hopen : Machine.ofUnit unit bytes settings = .ok (some start))
    (saved : List Position) (calls : List Call)
    (hm : m ∈ ((⟨[start], saved⟩ : Clones).after calls).machines) (hsound : m.failure = none) :
    (∀ e m', step m = .error e m' → m.Fails e m') ∧
    ∀ e m', nextRow m = .error e m' →
      ∃ n, (∀ k < n, step (m.afterSteps k) = .ok none (m.afterSteps (k + 1))) ∧
        (m.afterSteps n).Fails e m' := by
  have hstart := Machine.fresh_of_ofUnit hopen
  have hbase := (Machine.wellFormed_of_ofUnit hopen).1.parameters.opcodeBase_ne
  have hshares := shares_after hstart hm
  refine ⟨fun e m' hstep => hshares.fails hstart hbase hsound hstep, fun e m' hrow => ?_⟩
  obtain ⟨n, hsilent, hfails⟩ := Machine.exists_failing_step hrow
  have hlater : (m.afterSteps n).failure = none := by
    cases n with
    | zero => exact hsound
    | succ n =>
      have hlast := hsilent n (Nat.lt_succ_self n)
      exact (Machine.step_disciplined.records.ok hlast).trans (Machine.failure_of_step_ok hlast)
  exact ⟨n, hsilent, (hshares.onward (Machine.afterSteps_onward (Nat.zero_le n))).fails hstart hbase
    hlater hfails⟩

/-- A program that ends with a file whose entry takes six bytes of a frame of three. -/
def misframed : Assembly :=
  [.copy, .advancePc 2, .raw [0, 3, 3, 0x78, 0, 0, 0, 0]].foldl Assembly.emit Assembly.empty

/-- The copy fails in its second instruction behind a row, and keeps the file that it came upon. -/
theorem failures_execute_nothing_misframed :
    ∃ start, Machine.ofUnit (misframed.unit 0) misframed.encode.toArray .unset =
        .ok (some start) ∧
      ∃ m ∈ ((⟨[start], []⟩ : Clones).after [.clone 0, .perform 1 .nextRow]).machines,
        m.failure = none ∧ m.registers.address = 0 ∧
        ∃ n m', (∀ k < n, step (m.afterSteps k) = .ok none (m.afterSteps (k + 1))) ∧
          (m.afterSteps n).Fails (.extendedOpcodeOverrun 33 3 3 6) m' ∧
          m'.registers.address = 2 ∧ m'.files.visible.toList.map FileEntry.path = ["/work/x"] := by
  obtain ⟨start, hopen, m, hm, hsound, haddress, hfails, hlast, hfiles⟩ : ∃ start,
      Machine.ofUnit (misframed.unit 0) misframed.encode.toArray .unset = .ok (some start) ∧
      ∃ m ∈ ((⟨[start], []⟩ : Clones).after [.clone 0, .perform 1 .nextRow]).machines,
        m.failure = none ∧ m.registers.address = 0 ∧
        (nextRow m).answer = .error (.extendedOpcodeOverrun 33 3 3 6) ∧
        (nextRow m).state.registers.address = 2 ∧
        (nextRow m).state.files.visible.toList.map FileEntry.path = ["/work/x"] :=
    Machine.exists_of_opened (by decide +kernel)
  cases hrow : nextRow m with
  | ok row m' => simp [hrow, EStateM.Result.answer] at hfails
  | error e m' =>
    rw [hrow] at hfails hlast hfiles
    cases hfails
    obtain ⟨n, hsilent, hstep⟩ := (failures_execute_nothing hopen _ _ hm hsound).2 _ m' hrow
    exact ⟨start, hopen, m, hm, hsound, haddress, n, m', hsilent, hstep, hlast, hfiles⟩

end Clones
end DebugLine
