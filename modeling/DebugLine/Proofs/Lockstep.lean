import DebugLine.Proofs.Session
import DebugLine.Proofs.Simulation
import DebugLine.Proofs.Stepping

/-!
# Two machines in lockstep

Where each step of one machine goes along with a step of another, so does everything that is made of
steps: the loop for the next row, a stream of rows and a lookup by address. A lookup may also go
back to where it was, and start over.
-/

namespace DebugLine

variable {r : Machine → Machine → Prop} {error : LineError → LineError}

namespace Machine

/-- Related machines stay related under whatever a machine does to itself, and the second meets the
failures of the first, renamed by `error`. -/
structure Lockstep (r : Machine → Machine → Prop) (error : LineError → LineError) : Prop where
  failure_eq : ∀ {m m'}, r m m' → m'.failure = m.failure.map error
  remaining_eq : ∀ {m m'}, r m m' → m'.cursor.remaining = m.cursor.remaining
  step : Simulates r error id step step
  restored : ∀ {m m' t t'}, r m m' → r t t' →
    r (t.restored m.checkpoint) (t'.restored m'.checkpoint)
  rewound : ∀ {m m'}, r m m' → r m.rewound m'.rewound

namespace Lockstep

variable (h : Lockstep r error)
include h

theorem atEnd_eq {m m' : Machine} (hm : r m m') : m'.atEnd = m.atEnd :=
  congrArg (· == 0) (h.remaining_eq hm)

theorem nextRowWithin (most : Nat) :
    Simulates r error id (nextRowWithin most) (nextRowWithin most) := by
  induction most with
  | zero => exact .pure rfl
  | succ most ih =>
    refine .get_bind fun m m' hm => ?_
    rw [h.atEnd_eq hm]
    split_ifs
    · exact .pure rfl
    · refine h.step.bind fun row => ?_
      cases row with
      | none => exact ih
      | some row => exact .pure rfl

theorem nextRow : Simulates r error id nextRow nextRow := by
  intro m m' hm
  have hfailure := h.failure_eq hm
  cases hfail : m.failure with
  | some e =>
    rw [hfail] at hfailure
    rw [nextRow_of_failure hfail, nextRow_of_failure hfailure]
    exact .error rfl hm
  | none =>
    rw [hfail] at hfailure
    rw [nextRow_of_sound hfail le_rfl, nextRow_of_sound hfailure (h.remaining_eq hm).le]
    exact h.nextRowWithin _ hm

theorem nextRowUpTo (pc : UInt64) : Simulates r error id (nextRowUpTo pc) (nextRowUpTo pc) :=
  h.nextRow.bind fun _ => .pure rfl

theorem scanWithin (pc : UInt64) (most : Nat) (held : Row) :
    Simulates r error id (scanWithin pc most held) (scanWithin pc most held) := by
  induction most generalizing held with
  | zero => exact .pure rfl
  | succ most ih =>
    refine .get_bind fun m m' hm => h.nextRow.bind fun row => ?_
    cases row with
    | none => exact .pure rfl
    | some next =>
      -- Each machine goes back to its own place, and these are related as the machines were.
      have hback : Simulates r error id (modify (·.restored m.checkpoint) : Run PUnit)
          (modify (·.restored m'.checkpoint)) :=
        .modify fun _ _ ht => h.restored hm ht
      dsimp only [id]
      split_ifs
      · exact hback.bind fun _ => .pure rfl
      · exact hback.bind fun _ => .pure rfl
      · exact ih next

theorem scanFrom (pc : UInt64) (held : Row) :
    Simulates r error id (scanFrom pc held) (scanFrom pc held) := by
  refine .get_bind fun m m' hm => ?_
  rw [h.remaining_eq hm]
  exact h.scanWithin pc _ held

theorem seekPc (pc : UInt64) : Simulates r error id (seekPc pc) (seekPc pc) := by
  have hrewound : Simulates r error id (modify Machine.rewound : Run PUnit)
      (modify Machine.rewound) := .modify fun _ _ hm => h.rewound hm
  refine (h.nextRowUpTo pc).bind fun held => ?_
  cases held with
  | some held => exact h.scanFrom pc held
  | none =>
    refine hrewound.bind fun _ => (h.nextRowUpTo pc).bind fun held => ?_
    cases held with
    | some held => exact h.scanFrom pc held
    | none => exact hrewound.bind fun _ => .pure rfl

theorem next {s s' : RowStream} (hs : r s.machine s'.machine) (hended : s'.ended = s.ended) :
    s'.next.1 = s.next.1.map (Except.mapError error) ∧
      r s.next.2.machine s'.next.2.machine ∧ s'.next.2.ended = s.next.2.ended := by
  unfold RowStream.next
  rw [hended]
  split_ifs
  · exact ⟨rfl, hs, hended⟩
  · have hrow := h.nextRow hs
    generalize Machine.nextRow s.machine = o at hrow
    generalize Machine.nextRow s'.machine = o' at hrow
    cases hrow with
    | @ok row _ _ _ value_eq state =>
      rw [value_eq]
      cases row <;> exact ⟨rfl, state, rfl⟩
    | error error_eq state =>
      rw [error_eq]
      exact ⟨rfl, state, rfl⟩

theorem nextTimes {s s' : RowStream} (hs : r s.machine s'.machine) (hended : s'.ended = s.ended)
    (times : Nat) :
    (RowStream.nextTimes times s').1 =
        (RowStream.nextTimes times s).1.map (Option.map (Except.mapError error)) ∧
      r (RowStream.nextTimes times s).2.machine (RowStream.nextTimes times s').2.machine ∧
      (RowStream.nextTimes times s').2.ended = (RowStream.nextTimes times s).2.ended := by
  induction times generalizing s s' with
  | zero => exact ⟨rfl, hs, hended⟩
  | succ times ih =>
    obtain ⟨hitem, hnext, hended'⟩ := h.next hs hended
    obtain ⟨hitems, hlast⟩ := ih hnext hended'
    exact ⟨congrArg₂ List.cons hitem hitems, hlast⟩

end Lockstep
end Machine
end DebugLine
