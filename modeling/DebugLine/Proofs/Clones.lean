import DebugLine.Proofs.Preservation

/-!
# Copies of a machine

The machine of a unit can be copied, and its copies run on their own. Each of them may be put at the
positions that the others have saved. What lasts in a session with one machine lasts in all of them.
-/

namespace DebugLine

/-- What can be asked of the machines of one unit. -/
inductive Call where
  | perform (which : Nat) (operation : Operation)
  | clone (which : Nat)
  deriving Repr, DecidableEq

/-- The machines of one unit, and the positions that any of them has saved. -/
structure Clones where
  machines : List Machine
  saved : List Position
  deriving Repr, DecidableEq

namespace Clones

def ofMachine (m : Machine) : Clones := ⟨[m], []⟩

/-- Calls to a machine that is not there do nothing. -/
def call (s : Clones) : Call → Answer × Clones
  | .perform which operation =>
    match s.machines[which]? with
    | none => (.done, s)
    | some m =>
      let (answer, t) := Session.perform ⟨m, s.saved⟩ operation
      (answer, ⟨s.machines.set which t.machine, t.saved⟩)
  | .clone which => (.done, { s with machines := s.machines ++ s.machines[which]?.toList })

/-- The answers to a list of calls. -/
def answers (s : Clones) : List Call → List Answer
  | [] => []
  | call :: rest =>
    let (answer, next) := s.call call
    answer :: next.answers rest

/-- The machines after a list of calls. -/
def after (s : Clones) : List Call → Clones
  | [] => s
  | call :: rest => (s.call call).2.after rest

/-- The answers to a list of calls to the machine of `unit` and its copies, if the unit has one. -/
def exercise (unit : CompileUnit) (bytes : Array UInt8) (settings : Settings)
    (calls : List Call) : Except LineError (Option (List Answer)) :=
  (Machine.ofUnit unit bytes settings).map (Option.map fun m => (ofMachine m).answers calls)

variable {P : Machine → Prop} {Q : Position → Prop} {R : Row → Prop} {s : Clones}

theorem call_perform_of_none {which : Nat} (h : s.machines[which]? = none) (operation : Operation) :
    s.call (.perform which operation) = (.done, s) := by
  simp only [call, h]

theorem call_perform_of_some {which : Nat} {m : Machine} (h : s.machines[which]? = some m)
    (operation : Operation) :
    s.call (.perform which operation) =
      let next := Session.perform ⟨m, s.saved⟩ operation
      (next.1, ⟨s.machines.set which next.2.machine, next.2.saved⟩) := by
  simp only [call, h]

/-- Every machine has `P`, and every saved position has `Q`. -/
structure Holds (P : Machine → Prop) (Q : Position → Prop) (s : Clones) : Prop where
  machines : ∀ m ∈ s.machines, P m
  saved : ∀ p ∈ s.saved, Q p

theorem holds_ofMachine {m : Machine} (hm : P m) : (ofMachine m).Holds P Q :=
  ⟨by simpa [ofMachine] using hm, nofun⟩

theorem Holds.call (h : Machine.Lasting P Q R) (hs : s.Holds P Q) (call : Call) :
    (s.call call).2.Holds P Q ∧ ∀ row, (s.call call).1.Gives row → R row := by
  cases call with
  | clone which =>
    refine ⟨⟨fun m hm => ?_, hs.saved⟩, nofun⟩
    rcases List.mem_append.mp hm with hm | hm
    · exact hs.machines m hm
    · exact hs.machines m (List.mem_of_getElem? (Option.mem_toList.mp hm))
  | perform which operation =>
    cases hwhich : s.machines[which]? with
    | none =>
      rw [call_perform_of_none hwhich]
      exact ⟨hs, nofun⟩
    | some m =>
      rw [call_perform_of_some hwhich]
      have hm : Session.Holds P Q ⟨m, s.saved⟩ :=
        ⟨hs.machines m (List.mem_of_getElem? hwhich), hs.saved⟩
      obtain ⟨hnext, hrows⟩ := hm.perform h operation
      refine ⟨⟨fun t ht => ?_, hnext.saved⟩, hrows⟩
      rcases List.mem_or_eq_of_mem_set ht with ht | rfl
      · exact hs.machines t ht
      · exact hnext.machine

/-- What lasts holds of every machine and every position after a list of calls, and of every row
that was given on the way. -/
theorem Holds.after (h : Machine.Lasting P Q R) (hs : s.Holds P Q) (calls : List Call) :
    (s.after calls).Holds P Q ∧ ∀ answer ∈ s.answers calls, ∀ row, answer.Gives row → R row := by
  induction calls generalizing s with
  | nil => exact ⟨hs, nofun⟩
  | cons call rest ih =>
    obtain ⟨hnext, hfirst⟩ := hs.call h call
    obtain ⟨hlast, hrest⟩ := ih hnext
    refine ⟨hlast, fun answer hanswer => ?_⟩
    rcases List.mem_cons.mp hanswer with rfl | hanswer
    · exact hfirst
    · exact hrest answer hanswer

end Clones
end DebugLine
