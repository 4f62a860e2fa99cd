import DebugLine.Proofs.Lockstep
import DebugLine.Proofs.OneProgram
import DebugLine.Proofs.Relocation
import DebugLine.Proofs.WellFormed

/-!
# A position carries over to a copy

Where the number of files is not limited, decoding asks the file table for nothing but the number of
a file that it defines, and executing does not look at that number. So two machines that agree but
for their files run in lockstep. Putting a machine at a position of another copy makes them agree,
even if its table is shorter or holds other entries.
-/

namespace DebugLine

namespace Machine

open Instruction (decode)

variable {m m' t t' : Machine}

/-- The machines differ in their files only, and may define any number of them. -/
structure Twins (m m' : Machine) : Prop where
  cursor_eq : m'.cursor = m.cursor
  header_eq : m'.header = m.header
  registers_eq : m'.registers = m.registers
  unlimited : m.files.limit = none
  unlimited' : m'.files.limit = none

namespace Twins

theorem failure_eq (h : Twins m m') : m'.failure = m.failure := congrArg (·.failure) h.cursor_eq

theorem atEnd_eq (h : Twins m m') : m'.atEnd = m.atEnd := congrArg (·.isEmpty) h.cursor_eq

theorem apart (h : Twins m m') : Apart m.files m'.files m.toDecoder m'.toDecoder :=
  ⟨h.cursor_eq, [], rfl, rfl⟩

theorem of_apart (h : Twins m m') {d d' : Decoder} (hd : Apart m.files m'.files d d')
    {registers registers' : Row} (hregisters : registers' = registers) :
    Twins { m with toDecoder := d, registers }
      { m' with toDecoder := d', registers := registers' } := by
  obtain ⟨added, hfiles, hfiles'⟩ := hd.files
  have hlimit : d.files.limit = m.files.limit := by rw [hfiles, FileTable.limit_pushAll]
  have hlimit' : d'.files.limit = m'.files.limit := by rw [hfiles', FileTable.limit_pushAll]
  exact ⟨hd.cursor_eq, h.header_eq, hregisters, hlimit.trans h.unlimited,
    hlimit'.trans h.unlimited'⟩

/-- The number of the file that an instruction defines is all that tells twins apart, and no row
shows it. -/
theorem step : Simulates Twins id id step step := by
  intro m m' hm
  cases hfail : m.failure with
  | some e =>
    rw [step_of_failure hfail, step_of_failure (hm.failure_eq.trans hfail)]
    exact .error rfl hm
  | none =>
    have hfail' := hm.failure_eq.trans hfail
    cases hend : m.atEnd with
    | true =>
      rw [step_of_atEnd hfail hend, step_of_atEnd hfail' (hm.atEnd_eq.trans hend)]
      exact .ok rfl hm
    | false =>
      have hend' := hm.atEnd_eq.trans hend
      have hdecode := Apart.decode hm.unlimited hm.unlimited' m.header hm.apart
      generalize hok : decode m.header m.toDecoder = o at hdecode
      generalize hok' : decode m.header m'.toDecoder = o' at hdecode
      rw [← hm.header_eq] at hok'
      cases hdecode with
      | error error_eq state =>
        rw [step_of_decode_error hfail hend hok, step_of_decode_error hfail' hend' hok']
        exact .error error_eq (hm.of_apart state hm.registers_eq)
      | @ok i i' d d' value_eq state =>
        have hexecute : m'.registers.execute m'.header.toLineParameters i' =
            m.registers.execute m.header.toLineParameters i := by
          rw [value_eq, hm.registers_eq, hm.header_eq, Instruction.execute_renumber]
        rw [step_of_decode_ok hfail hend hok, step_of_decode_ok hfail' hend' hok']
        exact .ok (congrArg Prod.snd hexecute) (hm.of_apart state (congrArg Prod.fst hexecute))

theorem restored (h : Twins t t') {p p' : Position} (hoffset : p'.offset = p.offset)
    (hregisters : p'.registers = p.registers) : Twins (t.restored p) (t'.restored p') where
  cursor_eq := by simp only [Machine.restored, h.cursor_eq, h.header_eq, hoffset]
  header_eq := h.header_eq
  registers_eq := hregisters
  unlimited := h.unlimited
  unlimited' := h.unlimited'

theorem rewound (h : Twins m m') : Twins m.rewound m'.rewound where
  cursor_eq := by simp only [Machine.rewound, h.cursor_eq, h.header_eq]
  header_eq := h.header_eq
  registers_eq := by simp only [Machine.rewound, h.header_eq]
  unlimited := h.unlimited
  unlimited' := h.unlimited'

theorem lockstep : Lockstep Twins id where
  failure_eq h := by rw [h.failure_eq, Option.map_id_apply]
  remaining_eq h := congrArg (·.remaining) h.cursor_eq
  step := Twins.step
  restored h ht := ht.restored (congrArg (·.offset) h.cursor_eq) h.registers_eq
  rewound h := h.rewound

end Twins

variable {start : Machine}

/-- A machine that is put at a position of another one of its program becomes its twin. -/
theorem Shares.twins (hstart : Fresh start) (h : Shares start m) (h' : Shares start m')
    (hlimit : start.files.limit = none) (hfailure : m'.failure = m.failure) :
    Twins m (m'.restored m.checkpoint) where
  cursor_eq := h.seek_eq hstart h' hfailure
  header_eq := h'.header_eq.trans h.header_eq.symm
  registers_eq := rfl
  unlimited := h.fileLimit_eq.trans hlimit
  unlimited' := h'.fileLimit_eq.trans hlimit

end Machine

/-- An operation whose answer says nothing of files, not even how many there are. -/
def Operation.ignoresFiles : Operation → Bool
  | checkpoint | file _ | rowFile _ | files => false
  | nextRow | step | rows _ | seekPc _ | restore _ | reset | atEnd | failure => true

@[simp] theorem mapError_id {ε α : Type} :
    (Except.mapError id : Except ε α → Except ε α) = id := by
  funext x
  cases x <;> rfl

namespace Session

variable {s t : Session}

/-- Sessions with twins that have saved the same positions. -/
structure Twins (s t : Session) : Prop where
  machine : s.machine.Twins t.machine
  saved_eq : t.saved = s.saved

namespace Twins

variable (h : Twins s t)
include h

theorem drive {run : Run (Option Row)} (hrun : Simulates Machine.Twins id id run run) :
    (t.drive run).1 = (s.drive run).1 ∧ Twins (s.drive run).2 (t.drive run).2 := by
  have hanswer := (hrun h.machine).answer_eq
  rw [mapError_id] at hanswer
  exact ⟨congrArg Answer.row hanswer, (hrun h.machine).state, h.saved_eq⟩

theorem restore (slot : Nat) : Twins (s.restore slot) (t.restore slot) := by
  unfold Session.restore
  rw [h.saved_eq]
  cases s.saved[slot]? with
  | none => exact h
  | some position => exact ⟨h.machine.restored rfl rfl, rfl⟩

theorem perform {operation : Operation} (hignores : operation.ignoresFiles = true) :
    (t.perform operation).1 = (s.perform operation).1 ∧
      Twins (s.perform operation).2 (t.perform operation).2 := by
  have hlockstep := Machine.Twins.lockstep
  cases operation with
  | nextRow => exact h.drive hlockstep.nextRow
  | step => exact h.drive hlockstep.step
  | seekPc pc => exact h.drive (hlockstep.seekPc pc)
  | rows times =>
    obtain ⟨hitems, hmachine, -⟩ := @Machine.Lockstep.nextTimes _ _ hlockstep
      ⟨s.machine, false⟩ ⟨t.machine, false⟩ h.machine rfl times
    rw [mapError_id, Option.map_id, List.map_id] at hitems
    exact ⟨congrArg Answer.items hitems, hmachine, h.saved_eq⟩
  | restore slot => exact ⟨rfl, h.restore slot⟩
  | reset => exact ⟨rfl, h.machine.rewound, h.saved_eq⟩
  | atEnd => exact ⟨congrArg Answer.atEnd h.machine.atEnd_eq, h⟩
  | failure => exact ⟨congrArg Answer.failure h.machine.failure_eq, h⟩
  | checkpoint | file | rowFile | files => cases hignores

theorem run {operations : List Operation}
    (hignores : ∀ operation ∈ operations, operation.ignoresFiles = true) :
    t.answers operations = s.answers operations ∧
      Twins (s.after operations) (t.after operations) := by
  induction operations generalizing s t with
  | nil => exact ⟨rfl, h⟩
  | cons operation rest ih =>
    rw [List.forall_mem_cons] at hignores
    obtain ⟨hanswer, hnext⟩ := h.perform hignores.1
    obtain ⟨hanswers, hlast⟩ := ih hnext hignores.2
    exact ⟨congrArg₂ List.cons hanswer hanswers, hlast⟩

end Twins
end Session

namespace Clones

open Session (definingFiles)

variable {start a b : Machine}

/-- A machine that is put at a position of another copy goes on as that copy does, row for row and
failure for failure, whatever either of them has been through and whatever files it knows. -/
theorem position_carries_over {unit : CompileUnit} {bytes : Array UInt8} {settings : Settings}
    (hopen : Machine.ofUnit unit bytes settings = .ok (some start))
    (hunlimited : settings.fileLimit = none) (saved : List Position) (calls : List Call)
    (ha : a ∈ ((⟨[start], saved⟩ : Clones).after calls).machines)
    (hb : b ∈ ((⟨[start], saved⟩ : Clones).after calls).machines)
    (hsound : a.failure = none) (hsound' : b.failure = none) :
    let moved := b.restored a.checkpoint
    moved.cursor.offset = a.cursor.offset ∧ moved.registers = a.registers ∧
    ∀ (shared : List Position) (further : List Operation),
      (∀ operation ∈ further, operation.ignoresFiles = true) →
      let s : Session := ⟨a, shared⟩
      let t : Session := ⟨moved, shared⟩
      t.answers further = s.answers further ∧
        (t.after further).machine.cursor = (s.after further).machine.cursor ∧
        (t.after further).machine.registers = (s.after further).machine.registers := by
  intro moved
  have hstart := Machine.fresh_of_ofUnit hopen
  have hlimit : start.files.limit = none := by
    rw [(Machine.wellFormed_of_ofUnit hopen).2.2.1, hunlimited]
  have htwins : a.Twins moved :=
    (shares_after hstart ha).twins hstart (shares_after hstart hb) hlimit
      (hsound'.trans hsound.symm)
  refine ⟨congrArg (·.offset) htwins.cursor_eq, htwins.registers_eq, ?_⟩
  intro shared further hignores s t
  obtain ⟨hanswers, hlast⟩ := (⟨htwins, rfl⟩ : s.Twins t).run hignores
  exact ⟨hanswers, hlast.machine.cursor_eq, hlast.machine.registers_eq⟩

/-- The copy is put behind the first file that the program defines without having come upon it, and
so takes the second one for it. Put at the position of the machine it goes on as that one does. -/
theorem position_carries_over_definingFiles :
    ∃ start, Machine.ofUnit (definingFiles.unit 0) definingFiles.encode.toArray .unset =
        .ok (some start) ∧
      let calls : List Call := [.clone 0, .perform 0 .nextRow, .perform 0 .nextRow,
        .perform 0 .checkpoint, .perform 0 .reset, .perform 1 (.restore 0), .perform 1 .nextRow,
        .perform 0 .nextRow, .perform 0 .nextRow]
      ∃ a ∈ ((⟨[start], []⟩ : Clones).after calls).machines,
        ∃ b ∈ ((⟨[start], []⟩ : Clones).after calls).machines,
          a.failure = none ∧ b.failure = none ∧ (b.restored a.checkpoint).file? 2 ≠ a.file? 2 ∧
          (⟨b.restored a.checkpoint, []⟩ : Session).answers [.step, .rows 4, .seekPc 1, .failure] =
            (⟨a, []⟩ : Session).answers [.step, .rows 4, .seekPc 1, .failure] := by
  obtain ⟨start, hopen, a, ha, b, hb, hsound, hsound', hfile⟩ : ∃ start,
      Machine.ofUnit (definingFiles.unit 0) definingFiles.encode.toArray .unset =
        .ok (some start) ∧
      let machines := ((⟨[start], []⟩ : Clones).after [.clone 0, .perform 0 .nextRow,
        .perform 0 .nextRow, .perform 0 .checkpoint, .perform 0 .reset, .perform 1 (.restore 0),
        .perform 1 .nextRow, .perform 0 .nextRow, .perform 0 .nextRow]).machines
      ∃ a ∈ machines, ∃ b ∈ machines, a.failure = none ∧ b.failure = none ∧
        (b.restored a.checkpoint).file? 2 ≠ a.file? 2 :=
    Machine.exists_of_opened (by decide +kernel)
  obtain ⟨-, -, hsame⟩ := position_carries_over hopen rfl _ _ ha hb hsound hsound'
  exact ⟨start, hopen, a, ha, b, hb, hsound, hsound', hfile, (hsame [] _ (by decide)).1⟩

end Clones
end DebugLine
