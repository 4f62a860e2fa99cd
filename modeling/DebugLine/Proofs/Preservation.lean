import DebugLine.Proofs.FirstFailure
import DebugLine.Proofs.Listing

/-!
# What steps preserve, sessions preserve

All that a session does to a machine is to step it, to put it back to its start and to put it at a
position. A property that these preserve holds after every list of operations, whether one of them
fails or not. It may go with a property of the positions that are saved and with one of the rows
that are given.
-/

namespace DebugLine

variable {σ ε α β : Type}

/-- Whatever happens between, `P` is not lost. -/
def Preserved (P : σ → Prop) (s s' : σ) : Prop := P s → P s'

instance (P : σ → Prop) : IsPreorder σ (Preserved P) where
  refl _ h := h
  trans _ _ _ h h' hs := h' (h hs)

section Moves

variable {r : σ → σ → Prop} {x : EStateM ε σ α} {s t : σ}

theorem Moves.of_ok {a : α} (hx : Moves r x) (h : x s = .ok a t) : r s t := by
  have hs := hx s
  rwa [h] at hs

theorem Moves.of_error {e : ε} (hx : Moves r x) (h : x s = .error e t) : r s t := by
  have hs := hx s
  rwa [h] at hs

end Moves

/-- The state behind an outcome has `P`, and its value, if there is one, has `R`. -/
def Lands (P : σ → Prop) (R : α → Prop) : EStateM.Result ε σ α → Prop
  | .ok a s => P s ∧ R a
  | .error _ s => P s

/-- The computation does not lose `P`, and where `P` holds it yields only values with `R`. -/
def Keeps (P : σ → Prop) (R : α → Prop) (x : EStateM ε σ α) : Prop := ∀ s, P s → Lands P R (x s)

section Keeps

variable {P : σ → Prop} {R : α → Prop} {S : β → Prop} {x : EStateM ε σ α} {f : α → EStateM ε σ β}

theorem Lands.state {o : EStateM.Result ε σ α} (h : Lands P R o) : P o.state := by
  cases o with
  | ok a s => exact h.1
  | error e s => exact h

theorem Keeps.moves (hx : Keeps P R x) : Moves (Preserved P) x := fun s hs => (hx s hs).state

theorem Lands.of_answer {o : EStateM.Result ε σ α} {a : α} (h : Lands P R o)
    (ha : o.answer = .ok a) : R a := by
  cases o with
  | ok b s =>
    cases ha
    exact h.2
  | error e s => cases ha

theorem Keeps.pure {a : α} (ha : R a) : Keeps P R (Pure.pure a : EStateM ε σ α) :=
  fun _ hs => ⟨hs, ha⟩

theorem Keeps.get_bind {f : σ → EStateM ε σ β} (hf : ∀ s, P s → Keeps P S (f s)) :
    Keeps P S (MonadState.get >>= f) :=
  fun s hs => hf s hs s hs

theorem Keeps.modify_bind {move : σ → σ} {f : PUnit → EStateM ε σ β} (hmove : ∀ s, P s → P (move s))
    (hf : Keeps P S (f ⟨⟩)) : Keeps P S (modify move >>= f) :=
  fun s hs => hf (move s) (hmove s hs)

theorem Keeps.bind (hx : Keeps P R x) (hf : ∀ a, R a → Keeps P S (f a)) :
    Keeps P S (x >>= f) := by
  intro s hs
  have hlands := hx s hs
  cases h : x s with
  | ok a t =>
    rw [h] at hlands
    rw [bind_of_ok h]
    exact hf a hlands.2 t hlands.1
  | error e t =>
    rw [h] at hlands
    rw [bind_of_error h]
    exact hlands

end Keeps

namespace Machine

variable {P : Machine → Prop} {Q : Position → Prop} {R : Row → Prop}

/-- A row that was found, if any, has `R`. -/
def Found (R : Row → Prop) (found : Option Row) : Prop := ∀ row, found = some row → R row

@[simp] theorem found_none : Found R none := nofun

@[simp] theorem found_some {row : Row} : Found R (some row) ↔ R row := by simp [Found]

theorem Found.filter {found : Option Row} (h : Found R found) (p : Row → Bool) :
    Found R (found.filter p) :=
  fun row hrow => h row (Option.eq_some_of_filter_eq_some hrow)

/-- What decoding does not lose, and executing neither, is kept by a step. -/
theorem step_keeps
    (hdecode : ∀ m, P m →
      P { m with toDecoder := (Instruction.decode m.header m.toDecoder).state })
    (hexecute : ∀ m instruction, P m → Lands P (Found R) (execute instruction m)) :
    Keeps P (Found R) step := by
  intro m hm
  cases hfail : m.failure with
  | some e =>
    rw [step_of_failure hfail]
    exact hm
  | none =>
    cases hend : m.atEnd with
    | true =>
      rw [step_of_atEnd hfail hend]
      exact ⟨hm, found_none⟩
    | false =>
      have hdecoded := hdecode m hm
      cases h : Instruction.decode m.header m.toDecoder with
      | ok instruction d =>
        rw [h] at hdecoded
        rw [step_of_decode_ok hfail hend h]
        exact hexecute _ instruction hdecoded
      | error e d =>
        rw [h] at hdecoded
        rw [step_of_decode_error hfail hend h]
        exact hdecoded

theorem nextRow_keeps (hstep : Keeps P (Found R) step) : Keeps P (Found R) nextRow := by
  intro m
  induction m using nextRow_induction with
  | stuck m hfail hend =>
    intro hm
    rw [nextRow_of_atEnd hfail hend]
    exact ⟨hm, found_none⟩
  | emits m row m' h =>
    intro hm
    rw [nextRow_of_emits h, ← h]
    exact hstep m hm
  | fails m e m' h =>
    intro hm
    rw [nextRow_of_fails h, ← h]
    exact hstep m hm
  | silent m m' hend h ih =>
    intro hm
    have hlands := hstep m hm
    rw [h] at hlands
    rw [nextRow_of_silent h]
    exact ih hlands.1

/-- `P` is never lost, as long as only positions with `Q` are restored. All positions that are saved
have `Q`, and all rows that are given have `R`. -/
structure Lasting (P : Machine → Prop) (Q : Position → Prop) (R : Row → Prop) : Prop where
  step : Keeps P (Found R) step
  checkpoint : ∀ m, P m → Q m.checkpoint
  restored : ∀ m position, P m → Q position → P (m.restored position)
  rewound : ∀ m, P m → P m.rewound

namespace Lasting

variable (h : Lasting P Q R)
include h

theorem nextRow : Keeps P (Found R) nextRow := nextRow_keeps h.step

theorem nextRowUpTo (pc : UInt64) : Keeps P (Found R) (nextRowUpTo pc) :=
  h.nextRow.bind fun _ hfound => .pure (hfound.filter _)

theorem scanWithin (pc : UInt64) (most : Nat) {held : Row} (hheld : R held) :
    Keeps P (Found R) (scanWithin pc most held) := by
  induction most generalizing held with
  | zero => exact .pure found_none
  | succ most ih =>
    refine .get_bind fun m hm => h.nextRow.bind fun found hfound => ?_
    cases found with
    | none => exact .pure found_none
    | some next =>
      have hrestored : ∀ t, P t → P (t.restored m.checkpoint) :=
        fun t ht => h.restored t _ ht (h.checkpoint m hm)
      dsimp only
      split_ifs
      · exact .modify_bind hrestored (.pure found_none)
      · exact .modify_bind hrestored (.pure (found_some.mpr hheld))
      · exact ih (found_some.mp hfound)

theorem scanFrom (pc : UInt64) {held : Row} (hheld : R held) :
    Keeps P (Found R) (scanFrom pc held) :=
  .get_bind fun _ _ => h.scanWithin pc _ hheld

theorem seekPc (pc : UInt64) : Keeps P (Found R) (seekPc pc) := by
  refine (h.nextRowUpTo pc).bind fun found hfound => ?_
  cases found with
  | some held => exact h.scanFrom pc (found_some.mp hfound)
  | none =>
    refine .modify_bind h.rewound ((h.nextRowUpTo pc).bind fun found hfound => ?_)
    cases found with
    | some held => exact h.scanFrom pc (found_some.mp hfound)
    | none => exact .modify_bind h.rewound (.pure found_none)

/-- What lasts separately lasts together. -/
theorem and {P' : Machine → Prop} {Q' : Position → Prop} {R' : Row → Prop}
    (h' : Lasting P' Q' R') :
    Lasting (fun m => P m ∧ P' m) (fun p => Q p ∧ Q' p) (fun row => R row ∧ R' row) where
  step m hm := by
    have hstep := h.step m hm.1
    have hstep' := h'.step m hm.2
    cases hs : Machine.step m with
    | ok found t =>
      rw [hs] at hstep hstep'
      exact ⟨⟨hstep.1, hstep'.1⟩, fun row hrow => ⟨hstep.2 row hrow, hstep'.2 row hrow⟩⟩
    | error e t =>
      rw [hs] at hstep hstep'
      exact ⟨hstep, hstep'⟩
  checkpoint m hm := ⟨h.checkpoint m hm.1, h'.checkpoint m hm.2⟩
  restored m p hm hp := ⟨h.restored m p hm.1 hp.1, h'.restored m p hm.2 hp.2⟩
  rewound m hm := ⟨h.rewound m hm.1, h'.rewound m hm.2⟩

end Lasting

/-- What steps preserve, and putting the machine elsewhere too. -/
structure Invariant (P : Machine → Prop) : Prop where
  step : Moves (Preserved P) step
  restored : ∀ m position, P m → P (m.restored position)
  rewound : ∀ m, P m → P m.rewound

/-- Such a property asks nothing of positions and rows. -/
theorem Invariant.lasting (h : Invariant P) : Lasting P (fun _ => True) (fun _ => True) where
  step m hm := by
    have hstep := h.step m hm
    cases hs : Machine.step m with
    | ok found t =>
      rw [hs] at hstep
      exact ⟨hstep, fun _ _ => trivial⟩
    | error e t =>
      rw [hs] at hstep
      exact hstep
  checkpoint _ _ := trivial
  restored m position hm _ := h.restored m position hm
  rewound := h.rewound

end Machine

namespace RowStream

open Machine (Found)

variable {P : Machine → Prop} {R : Row → Prop} (hstep : Keeps P (Found R) Machine.step)
include hstep

theorem next_keeps (s : RowStream) (hs : P s.machine) :
    P s.next.2.machine ∧ ∀ row, s.next.1 = some (.ok row) → R row := by
  have hrow := Machine.nextRow_keeps hstep s.machine hs
  cases hended : s.ended with
  | true =>
    rw [next_ended hended]
    exact ⟨hs, nofun⟩
  | false =>
    cases h : Machine.nextRow s.machine with
    | ok found m =>
      rw [h] at hrow
      rw [next_of_row hended h]
      refine ⟨hrow.1, fun row hitem => hrow.2 row ?_⟩
      simpa [Option.map_eq_some_iff] using hitem
    | error e m =>
      rw [h] at hrow
      rw [next_of_error hended h]
      exact ⟨hrow, nofun⟩

theorem nextTimes_keeps (times : Nat) (s : RowStream) (hs : P s.machine) :
    P (nextTimes times s).2.machine ∧ ∀ row, some (.ok row) ∈ (nextTimes times s).1 → R row := by
  induction times generalizing s with
  | zero => exact ⟨hs, nofun⟩
  | succ times ih =>
    obtain ⟨hnext, hfirst⟩ := next_keeps hstep s hs
    obtain ⟨hlast, hrest⟩ := ih _ hnext
    refine ⟨hlast, fun row hrow => ?_⟩
    rcases List.mem_cons.mp hrow with hrow | hrow
    · exact hfirst row hrow.symm
    · exact hrest row hrow

end RowStream

namespace Session

variable {P : Machine → Prop} {Q : Position → Prop} {R : Row → Prop}

/-- The machine has `P`, and every saved position has `Q`. -/
structure Holds (P : Machine → Prop) (Q : Position → Prop) (s : Session) : Prop where
  machine : P s.machine
  saved : ∀ p ∈ s.saved, Q p

variable {s : Session}

theorem holds_ofMachine {m : Machine} (hm : P m) : (ofMachine m).Holds P Q :=
  ⟨hm, by simp [ofMachine]⟩

theorem Holds.drive {run : Run (Option Row)} (hs : s.Holds P Q)
    (hrun : Keeps P (Machine.Found R) run) :
    (s.drive run).2.Holds P Q ∧ ∀ row, (s.drive run).1.Gives row → R row := by
  have hlands := hrun s.machine hs.machine
  refine ⟨⟨hlands.state, hs.saved⟩, fun row hrow => ?_⟩
  exact hlands.of_answer (Answer.gives_row_iff.mp hrow) row rfl

theorem Holds.perform (h : Machine.Lasting P Q R) (hs : s.Holds P Q) (operation : Operation) :
    (s.perform operation).2.Holds P Q ∧ ∀ row, (s.perform operation).1.Gives row → R row := by
  cases operation with
  | nextRow => exact hs.drive h.nextRow
  | step => exact hs.drive h.step
  | seekPc pc => exact hs.drive (h.seekPc pc)
  | rows times =>
    obtain ⟨hmachine, hitems⟩ :=
      RowStream.nextTimes_keeps h.step times ⟨s.machine, false⟩ hs.machine
    exact ⟨⟨hmachine, hs.saved⟩, fun row hrow => hitems row (Answer.gives_items_iff.mp hrow)⟩
  | checkpoint =>
    refine ⟨⟨hs.machine, ?_⟩, nofun⟩
    intro p hp
    rcases List.mem_append.mp hp with hp | hp
    · exact hs.saved p hp
    · rw [List.mem_singleton.mp hp]
      exact h.checkpoint _ hs.machine
  | restore slot =>
    refine ⟨?_, nofun⟩
    change (s.restore slot).Holds P Q
    unfold restore
    cases hslot : s.saved[slot]? with
    | none => exact hs
    | some position =>
      have hposition := hs.saved position (List.mem_of_getElem? hslot)
      exact ⟨h.restored _ position hs.machine hposition, hs.saved⟩
  | reset => exact ⟨⟨h.rewound _ hs.machine, hs.saved⟩, nofun⟩
  | file | rowFile | files | atEnd | failure => exact ⟨hs, nofun⟩

theorem Holds.after (h : Machine.Lasting P Q R) (hs : s.Holds P Q)
    (operations : List Operation) : (s.after operations).Holds P Q := by
  induction operations generalizing s with
  | nil => exact hs
  | cons operation rest ih => exact ih (hs.perform h operation).1

/-- A property of this kind holds throughout a session. -/
theorem after_preserved (h : Machine.Invariant P) (s : Session) (hs : P s.machine)
    (operations : List Operation) : P (s.after operations).machine :=
  (Holds.after h.lasting ⟨hs, fun _ _ => trivial⟩ operations).machine

end Session
end DebugLine
