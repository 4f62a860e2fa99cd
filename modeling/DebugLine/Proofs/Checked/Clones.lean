import DebugLine.Proofs.Checked.Machine
import DebugLine.Proofs.Clones

/-!
# No call has no result

The machine of a unit can be copied, and its copies run on their own. They may restore the positions
of each other, since all of these lie inside the unit. So whatever is asked of them, in whatever
order, every operation on words behind it has a result.
-/

namespace DebugLine

/-- The machine and all saved positions lie inside the unit. -/
structure Session.Within (h : Header) (bytes : Array UInt8) (s : Session) : Prop where
  machine : s.machine.Within h bytes
  saved : ∀ p ∈ s.saved, p.Within h bytes

/-- All machines and all saved positions lie inside the unit. -/
structure Clones.Within (h : Header) (bytes : Array UInt8) (s : Clones) : Prop where
  machines : ∀ m ∈ s.machines, m.Within h bytes
  saved : ∀ p ∈ s.saved, p.Within h bytes

namespace Checked

structure RowStream where
  machine : Machine
  ended : Bool
  deriving Repr, DecidableEq

namespace RowStream

def ofStream (s : DebugLine.RowStream) : RowStream := ⟨.ofMachine s.machine, s.ended⟩

def next (s : RowStream) : Option (Option (Except LineError Row) × RowStream) :=
  if s.ended then some (none, s)
  else do
    match ← nextRow.run.run s.machine with
    | (.ok (some row), machine) => return (some (.ok row), ⟨machine, false⟩)
    | (.ok none, machine) => return (none, ⟨machine, true⟩)
    | (.error e, machine) => return (some (.error e), ⟨machine, true⟩)

def nextTimes : (times : Nat) → RowStream →
    Option (List (Option (Except LineError Row)) × RowStream)
  | 0, s => some ([], s)
  | times + 1, s => do
    let (item, s) ← s.next
    let (items, s) ← nextTimes times s
    return (item :: items, s)

end RowStream

structure Session where
  machine : Machine
  saved : List Position
  deriving Repr, DecidableEq

namespace Session

def ofSession (s : DebugLine.Session) : Session := ⟨.ofMachine s.machine, s.saved⟩

def drive (run : Checked Machine (Option Row)) (s : Session) : Option (Answer × Session) := do
  let (found, machine) ← run.run.run s.machine
  return (.row found, { s with machine })

def restore (slot : Nat) (s : Session) : Session :=
  match s.saved[slot]? with
  | some position => { s with machine := s.machine.restored position }
  | none => s

def perform (s : Session) : Operation → Option (Answer × Session)
  | .nextRow => s.drive nextRow
  | .step => s.drive step
  | .seekPc pc => s.drive (seekPc pc)
  | .rows times => do
    let (items, stream) ← RowStream.nextTimes times ⟨s.machine, false⟩
    return (.items items, { s with machine := stream.machine })
  | .checkpoint =>
    some (.position s.machine.checkpoint, { s with saved := s.saved ++ [s.machine.checkpoint] })
  | .restore slot => some (.done, s.restore slot)
  | .reset => some (.done, { s with machine := s.machine.rewound })
  | .file index => do return (.file (← s.machine.files.get? index), s)
  | .rowFile row => do return (.file (← s.machine.files.get? row.fileIndex), s)
  | .files => do return (.files (← s.machine.files.visible).toList, s)
  | .atEnd => some (.atEnd s.machine.cursor.isEmpty, s)
  | .failure => some (.failure s.machine.cursor.failure, s)

end Session

structure Clones where
  machines : List Machine
  saved : List Position
  deriving Repr, DecidableEq

namespace Clones

def ofClones (s : DebugLine.Clones) : Clones := ⟨s.machines.map .ofMachine, s.saved⟩

def call (s : Clones) : Call → Option (Answer × Clones)
  | .perform which operation =>
    match s.machines[which]? with
    | none => some (.done, s)
    | some m => do
      let (answer, t) ← Session.perform ⟨m, s.saved⟩ operation
      return (answer, ⟨s.machines.set which t.machine, t.saved⟩)
  | .clone which => some (.done, { s with machines := s.machines ++ s.machines[which]?.toList })

def answers (s : Clones) : List Call → Option (List Answer)
  | [] => some []
  | call :: rest => do
    let (answer, next) ← s.call call
    return answer :: (← next.answers rest)

/-- The machines after a list of calls. -/
def after (s : Clones) : List Call → Option Clones
  | [] => some s
  | call :: rest => do
    let (_, next) ← s.call call
    next.after rest

def exercise (unit : CompileUnit) (bytes : Array UInt8) (settings : Settings)
    (calls : List Call) : Option (Except LineError (Option (List Answer))) := do
  match ← ofUnit unit bytes settings with
  | .error e => return .error e
  | .ok none => return .ok none
  | .ok (some m) => return .ok (some (← answers ⟨[m], []⟩ calls))

end Clones

section Performing

variable {h : Header} {bytes : Array UInt8} (hh : h.Enclosed bytes) (hsize : bytes.size < 2 ^ 63)
include hh hsize

theorem next_eq {s : DebugLine.RowStream} (hs : s.machine.Within h bytes) :
    (RowStream.ofStream s).next = some (s.next.1, .ofStream s.next.2) ∧
      s.next.2.machine.Within h bytes := by
  obtain ⟨m, ended⟩ := s
  cases ended with
  | true => exact ⟨rfl, hs⟩
  | false =>
    obtain ⟨hagrees, hwithin⟩ := follows_nextRow hh hsize hs
    simp only [RowStream.next, RowStream.ofStream, DebugLine.RowStream.next, hagrees.run_eq,
      Bool.false_eq_true, if_false, Option.bind_eq_bind, Option.bind_some]
    cases hrow : m.nextRow with
    | error e t =>
      rw [hrow] at hwithin
      exact ⟨rfl, hwithin⟩
    | ok found t =>
      rw [hrow] at hwithin
      cases found <;> exact ⟨rfl, hwithin⟩

theorem nextTimes_eq {s : DebugLine.RowStream} (hs : s.machine.Within h bytes) (times : Nat) :
    RowStream.nextTimes times (.ofStream s) =
        some ((s.nextTimes times).1, .ofStream (s.nextTimes times).2) ∧
      (s.nextTimes times).2.machine.Within h bytes := by
  induction times generalizing s with
  | zero => exact ⟨rfl, hs⟩
  | succ times ih =>
    obtain ⟨hnext, hs⟩ := next_eq hh hsize hs
    obtain ⟨hrest, hs⟩ := ih hs
    refine ⟨?_, hs⟩
    simp only [RowStream.nextTimes, hnext, hrest, Option.bind_eq_bind, Option.bind_some]
    rfl

omit hh hsize in
theorem drive_eq {s : DebugLine.Session} (hs : s.Within h bytes) {x : Checked Machine (Option Row)}
    {y : Run (Option Row)} (hx : Follows h bytes x y s.machine) :
    Session.drive x (.ofSession s) = some ((s.drive y).1, .ofSession (s.drive y).2) ∧
      (s.drive y).2.Within h bytes := by
  obtain ⟨hagrees, hwithin⟩ := hx
  refine ⟨?_, hwithin, hs.saved⟩
  simp only [Session.drive, Session.ofSession, hagrees.run_eq, Option.bind_eq_bind,
    Option.bind_some]
  rfl

omit hsize in
theorem restore_eq {s : DebugLine.Session} (hs : s.Within h bytes) (slot : Nat) :
    Session.restore slot (.ofSession s) = .ofSession (s.restore slot) ∧
      (s.restore slot).Within h bytes := by
  unfold Session.restore DebugLine.Session.restore
  change (match s.saved[slot]? with
    | some position => _
    | none => _) = _ ∧ _
  cases hslot : s.saved[slot]? with
  | none => exact ⟨rfl, hs⟩
  | some position =>
    have hposition := hs.saved position (List.mem_of_getElem? hslot)
    have hrestored := Machine.ofMachine_restored s.machine position
    exact ⟨congrArg (Session.mk · s.saved) hrestored.symm, hs.machine.restored hh hposition,
      hs.saved⟩

/-- Every operation on a machine inside its unit has a result, and leaves the machine and its
positions there. -/
theorem perform_eq {s : DebugLine.Session} (hs : s.Within h bytes) (operation : Operation) :
    Session.perform (.ofSession s) operation =
        some ((s.perform operation).1, .ofSession (s.perform operation).2) ∧
      (s.perform operation).2.Within h bytes := by
  have hm := hs.machine
  have hfile (index : UInt64) :
      (Session.ofSession s).machine.files.get? index = some (s.machine.files.get? index) :=
    Table.get?_ofTable s.machine.files index
  cases operation with
  | nextRow => exact drive_eq hs (follows_nextRow hh hsize hm)
  | step => exact drive_eq hs (follows_step hh hsize hm)
  | seekPc pc => exact drive_eq hs (follows_seekPc hh hsize hm pc)
  | rows times =>
    obtain ⟨hitems, hwithin⟩ := nextTimes_eq hh hsize (s := ⟨s.machine, false⟩) hm times
    refine ⟨?_, hwithin, hs.saved⟩
    change RowStream.nextTimes times ⟨(Session.ofSession s).machine, false⟩ = _ at hitems
    simp only [Session.perform, hitems, Option.bind_eq_bind, Option.bind_some]
    rfl
  | checkpoint =>
    refine ⟨rfl, hm, ?_⟩
    intro p hp
    rcases List.mem_append.mp hp with hp | hp
    · exact hs.saved p hp
    · rw [List.mem_singleton.mp hp]
      exact hm.checkpoint
  | restore slot =>
    obtain ⟨hrestore, hwithin⟩ := restore_eq hh hs slot
    exact ⟨congrArg (fun t => some (Answer.done, t)) hrestore, hwithin⟩
  | reset =>
    have hrewound := Machine.ofMachine_rewound s.machine
    exact ⟨congrArg (fun m => some (Answer.done, Session.mk m s.saved)) hrewound.symm,
      hm.rewound hh, hs.saved⟩
  | file index =>
    refine ⟨?_, hs⟩
    simp only [Session.perform, hfile, Option.bind_eq_bind, Option.bind_some]
    rfl
  | rowFile row =>
    refine ⟨?_, hs⟩
    simp only [Session.perform, hfile, Option.bind_eq_bind, Option.bind_some]
    rfl
  | files =>
    have hvisible : (Session.ofSession s).machine.files.visible = some s.machine.files.visible :=
      Table.visible_ofTable s.machine.files
    refine ⟨?_, hs⟩
    simp only [Session.perform, hvisible, Option.bind_eq_bind, Option.bind_some]
    rfl
  | atEnd => exact ⟨rfl, hs⟩
  | failure => exact ⟨rfl, hs⟩

theorem call_eq {s : DebugLine.Clones} (hs : s.Within h bytes) (call : Call) :
    Clones.call (.ofClones s) call = some ((s.call call).1, .ofClones (s.call call).2) ∧
      (s.call call).2.Within h bytes := by
  cases call with
  | clone which =>
    refine ⟨?_, ?_, hs.saved⟩
    · simp [Clones.call, DebugLine.Clones.call, Clones.ofClones, Option.toList_map]
    · intro m hm
      rcases List.mem_append.mp hm with hm | hm
      · exact hs.machines m hm
      · exact hs.machines m (List.mem_of_getElem? (Option.mem_toList.mp hm))
  | perform which operation =>
    unfold Clones.call DebugLine.Clones.call
    simp only [Clones.ofClones, List.getElem?_map]
    cases hwhich : s.machines[which]? with
    | none => exact ⟨rfl, hs⟩
    | some m =>
      have hm : Session.Within h bytes ⟨m, s.saved⟩ :=
        ⟨hs.machines m (List.mem_of_getElem? hwhich), hs.saved⟩
      obtain ⟨hperform, hwithin⟩ := perform_eq hh hsize hm operation
      change Session.perform ⟨.ofMachine m, s.saved⟩ operation = _ at hperform
      simp only [Option.map_some, hperform, Option.bind_eq_bind, Option.bind_some]
      refine ⟨?_, ?_, hwithin.saved⟩
      · simp only [List.map_set]
        rfl
      · intro t ht
        rcases List.mem_or_eq_of_mem_set ht with ht | rfl
        · exact hs.machines t ht
        · exact hwithin.machine

theorem answers_eq {s : DebugLine.Clones} (hs : s.Within h bytes) (calls : List Call) :
    Clones.answers (.ofClones s) calls = some (s.answers calls) := by
  induction calls generalizing s with
  | nil => rfl
  | cons call calls ih =>
    obtain ⟨hcall, hs⟩ := call_eq hh hsize hs call
    simp only [Clones.answers, hcall, ih hs, Option.bind_eq_bind, Option.bind_some]
    rfl

theorem after_eq {s : DebugLine.Clones} (hs : s.Within h bytes) (calls : List Call) :
    Clones.after (.ofClones s) calls = some (.ofClones (s.after calls)) := by
  induction calls generalizing s with
  | nil => rfl
  | cons call calls ih =>
    obtain ⟨hcall, hs⟩ := call_eq hh hsize hs call
    simp only [Clones.after, hcall, ih hs, Option.bind_eq_bind, Option.bind_some]
    rfl

end Performing

theorem within_ofMachine {unit : CompileUnit} {bytes : Array UInt8} {settings : Settings}
    {m : DebugLine.Machine} (hsize : bytes.size < 2 ^ 63)
    (hopen : DebugLine.Machine.ofUnit unit bytes settings = .ok (some m)) :
    m.header.Enclosed bytes ∧ (DebugLine.Clones.ofMachine m).Within m.header bytes := by
  obtain ⟨hh, hm⟩ := DebugLine.Machine.within_ofUnit (hsize.trans (by decide)) hopen
  refine ⟨hh, ?_, nofun⟩
  simpa [DebugLine.Clones.ofMachine] using hm

/-- Whatever is asked of the machine of a unit and of its copies, every operation on words has a
result, and each call is answered. Only a header that is to be checked must not declare the opcode
base 255. -/
theorem exercise_eq {unit : CompileUnit} {bytes : Array UInt8} {settings : Settings}
    (hsize : bytes.size < 2 ^ 63)
    (hbase : settings.checksOpcodeLengths = true → unit.opcodeBase? bytes ≠ some 255)
    (calls : List Call) :
    Clones.exercise unit bytes settings calls =
      some (DebugLine.Clones.exercise unit bytes settings calls) := by
  unfold Clones.exercise DebugLine.Clones.exercise
  rw [ofUnit_eq hsize hbase]
  cases hopen : DebugLine.Machine.ofUnit unit bytes settings with
  | error e => rfl
  | ok found =>
    cases found with
    | none => rfl
    | some m =>
      obtain ⟨hh, hclones⟩ := within_ofMachine hsize hopen
      have hanswers := answers_eq hh hsize hclones calls
      change Clones.answers ⟨[.ofMachine m], []⟩ calls = _ at hanswers
      simp only [Except.map, Option.map_some, hanswers, Option.bind_eq_bind, Option.bind_some]
      rfl

/-- A unit with one file, whose program defines another in front of its rows and breaks off behind
them. -/
def definingSection : Array UInt8 :=
  #[0xAA, 0x2A, 0x00, 0x00, 0x00, 0x03, 0x00, 0x15, 0x00, 0x00, 0x00, 0x01, 0x01, 0xFB, 0x0E, 0x0A,
    0x00, 0x01, 0x01, 0x01, 0x01, 0x00, 0x00, 0x00, 0x01, 0x00, 0x61, 0x00, 0x00, 0x00, 0x00, 0x00,
    0x00, 0x06, 0x03, 0x62, 0x00, 0x00, 0x00, 0x00, 0x08, 0xFF, 0x00, 0x01, 0x01, 0x02, 0x80]

def definingUnit : CompileUnit := ⟨some 1, some "/w", 4, .little⟩

/-- The copy goes to a position at which it never was, and so has one file where the position counts
two. It is asked for files that it does not have, and runs into the end of the program. -/
theorem exercise_eq_definingSection :
    definingSection.size < 2 ^ 63 ∧
    (Settings.unset.checksOpcodeLengths = true →
      definingUnit.opcodeBase? definingSection ≠ some 255) ∧
    Clones.exercise definingUnit definingSection .unset
        [.clone 0, .perform 0 .nextRow, .perform 0 .checkpoint, .perform 1 (.restore 0),
          .perform 1 (.file 2), .perform 1 (.file 0xFFFFFFFFFFFFFFFF), .perform 1 .nextRow,
          .perform 1 .nextRow] =
      some (.ok (some [.done,
        .row (.ok (some { Row.initial true with address := 34, line := 3 })),
        .position ⟨42, 2, { Row.initial true with address := 34, line := 3 }⟩,
        .done, .file none, .file none,
        .row (.ok (some { Row.initial true with address := 34, line := 3, endSequence := true })),
        .row (.error (.unexpectedEnd 47 1 0))])) := by
  have hsize : definingSection.size < 2 ^ 63 := by decide
  have hbase : Settings.unset.checksOpcodeLengths = true →
      definingUnit.opcodeBase? definingSection ≠ some 255 := fun _ => by decide +kernel
  refine ⟨hsize, hbase, ?_⟩
  rw [exercise_eq hsize hbase]
  decide +kernel

/-- Whatever is asked of the machine of a unit and of its copies, none of their tables counts more
visible entries than it has. -/
theorem length_le_size {unit : CompileUnit} {bytes : Array UInt8} {settings : Settings}
    (hsize : bytes.size < 2 ^ 63)
    (hbase : settings.checksOpcodeLengths = true → unit.opcodeBase? bytes ≠ some 255)
    {start : Machine} (hopen : ofUnit unit bytes settings = some (.ok (some start)))
    (calls : List Call) :
    ∃ s, Clones.after ⟨[start], []⟩ calls = some s ∧
      ∀ m ∈ s.machines, m.files.length ≤ m.files.entries.size := by
  rw [ofUnit_eq hsize hbase] at hopen
  cases hplain : DebugLine.Machine.ofUnit unit bytes settings with
  | error e =>
    rw [hplain] at hopen
    cases hopen
  | ok found =>
    cases found with
    | none =>
      rw [hplain] at hopen
      cases hopen
    | some m =>
      rw [hplain] at hopen
      cases hopen
      obtain ⟨hh, hclones⟩ := within_ofMachine hsize hplain
      refine ⟨_, after_eq hh hsize hclones calls, ?_⟩
      intro t ht
      obtain ⟨t, -, rfl⟩ := List.mem_map.mp ht
      exact Table.length_ofTable_le t.files

end Checked
end DebugLine
