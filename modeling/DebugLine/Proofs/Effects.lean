import DebugLine.LineError
import Mathlib.Order.Defs.Unbundled
import Mathlib.Tactic

/-!
# What a computation does to its state

Reading, decoding and running pass a state along and may fail on the way. Three kinds of fact about
such a computation follow from its parts: how the state may move, that a failure is recorded in the
state, and that a part of the state plays no role.
-/

namespace EStateM.Result

variable {ε σ α : Type}

/-- The state behind an outcome. -/
def state : Result ε σ α → σ
  | .ok _ s => s
  | .error _ s => s

/-- An outcome without the state behind it. -/
def answer : Result ε σ α → Except ε α
  | .ok a _ => .ok a
  | .error e _ => .error e

/-- The same outcome with a view of the state behind it. -/
def mapState (view : σ → σ) : Result ε σ α → Result ε σ α
  | .ok a s => .ok a (view s)
  | .error e s => .error e (view s)

@[simp] theorem state_ok (a : α) (s : σ) : (.ok a s : Result ε σ α).state = s := rfl

@[simp] theorem state_error (e : ε) (s : σ) : (.error e s : Result ε σ α).state = s := rfl

variable {r : Result ε σ α} {a : α} {e : ε} {P : α → σ → Prop}

theorem exists_of_answer_ok (h : r.answer = .ok a) : ∃ s, r = .ok a s := by
  cases r with
  | ok b s =>
    cases h
    exact ⟨s, rfl⟩
  | error e s => cases h

theorem exists_of_answer_error (h : r.answer = .error e) : ∃ s, r = .error e s := by
  cases r with
  | ok a s => cases h
  | error d s =>
    cases h
    exact ⟨s, rfl⟩

/-- Where `P` can be decided, so can the premise: by running the computation. -/
theorem exists_of_ran (h : ∃ a ∈ r.answer.toOption, P a r.state) : ∃ a s, r = .ok a s ∧ P a s := by
  obtain ⟨a, ha, hP⟩ := h
  cases r with
  | ok b s =>
    cases ha
    exact ⟨_, s, rfl, hP⟩
  | error e s => cases ha

end EStateM.Result

namespace DebugLine

variable {ε σ α β : Type}

theorem bind_of_ok {x : EStateM ε σ α} {f : α → EStateM ε σ β} {s t : σ} {a : α}
    (h : x s = .ok a t) : (x >>= f) s = f a t := by
  change EStateM.bind x f s = _
  rw [EStateM.bind, h]

theorem bind_of_error {x : EStateM ε σ α} {f : α → EStateM ε σ β} {s t : σ} {e : ε}
    (h : x s = .error e t) : (x >>= f) s = .error e t := by
  change EStateM.bind x f s = _
  rw [EStateM.bind, h]

theorem bind_eq_ok {x : EStateM ε σ α} {f : α → EStateM ε σ β} {s t : σ} {b : β} :
    (x >>= f) s = .ok b t ↔ ∃ a u, x s = .ok a u ∧ f a u = .ok b t := by
  cases h : x s with
  | ok a u => simp [bind_of_ok h, and_assoc]
  | error e u => simp [bind_of_error h]

theorem bind_eq_error {x : EStateM ε σ α} {f : α → EStateM ε σ β} {s t : σ} {e : ε} :
    (x >>= f) s = .error e t ↔
      x s = .error e t ∨ ∃ a u, x s = .ok a u ∧ f a u = .error e t := by
  cases h : x s with
  | ok a u => simp [bind_of_ok h, and_assoc]
  | error e u => simp [bind_of_error h]

/-- Whatever the outcome, `r` relates the state before to the state behind. -/
def Moves (r : σ → σ → Prop) (x : EStateM ε σ α) : Prop := ∀ s, r s (x s).state

/-- A failure is recorded in the state, and nothing but a failure is. -/
structure Records (failure : σ → Option ε) (x : EStateM ε σ α) : Prop where
  ok : ∀ {s a t}, x s = .ok a t → failure t = failure s
  error : ∀ {s e t}, x s = .error e t → failure t = some e

/-- What `view` drops plays no role. -/
def Ignores (view : σ → σ) (x : EStateM ε σ α) : Prop := ∀ s, x (view s) = (x s).mapState view

section Moves

variable {r : σ → σ → Prop} [IsPreorder σ r] {x : EStateM ε σ α} {f : α → EStateM ε σ β}

theorem Moves.pure (a : α) : Moves r (Pure.pure a : EStateM ε σ α) := fun s => refl_of r s

theorem Moves.get : Moves r (MonadState.get : EStateM ε σ σ) := fun s => refl_of r s

theorem Moves.bind (hx : Moves r x) (hf : ∀ a, Moves r (f a)) : Moves r (x >>= f) := by
  intro s
  have hs := hx s
  cases h : x s with
  | ok a t =>
    rw [bind_of_ok h]
    rw [h] at hs
    exact trans_of r hs (hf a t)
  | error e t =>
    rw [bind_of_error h]
    rwa [h] at hs

end Moves

section Records

variable {failure : σ → Option ε} {x : EStateM ε σ α} {f : α → EStateM ε σ β}

theorem Records.pure (a : α) : Records failure (Pure.pure a : EStateM ε σ α) where
  ok h := by cases h; rfl
  error h := by cases h

theorem Records.get : Records failure (MonadState.get : EStateM ε σ σ) where
  ok h := by cases h; rfl
  error h := by cases h

theorem Records.modify {move : σ → σ} (h : ∀ s, failure (move s) = failure s) :
    Records failure (modify move : EStateM ε σ PUnit) where
  ok hok := by cases hok; exact h _
  error herr := by cases herr

theorem Records.bind (hx : Records failure x) (hf : ∀ a, Records failure (f a)) :
    Records failure (x >>= f) where
  ok h := by
    obtain ⟨a, u, hu, ht⟩ := bind_eq_ok.mp h
    exact ((hf a).ok ht).trans (hx.ok hu)
  error h := by
    rcases bind_eq_error.mp h with hu | ⟨a, u, -, ht⟩
    · exact hx.error hu
    · exact (hf a).error ht

end Records

section Ignores

variable {view : σ → σ} {x : EStateM ε σ α} {f : α → EStateM ε σ β}

theorem Ignores.pure (a : α) : Ignores view (Pure.pure a : EStateM ε σ α) := fun _ => rfl

theorem Ignores.id (x : EStateM ε σ α) : Ignores (fun s => s) x := by
  intro s
  change x s = _
  cases h : x s <;> rfl

theorem Ignores.bind (hx : Ignores view x) (hf : ∀ a, Ignores view (f a)) :
    Ignores view (x >>= f) := by
  intro s
  have hs := hx s
  cases h : x s with
  | ok a t =>
    rw [h] at hs
    rw [bind_of_ok hs, bind_of_ok h, hf a t]
  | error e t =>
    rw [h] at hs
    rw [bind_of_error hs, bind_of_error h]
    rfl

/-- Looking at the state is harmless where the rest looks only at what `view` leaves. -/
theorem Ignores.get_bind {f : σ → EStateM ε σ β} (hview : ∀ s, f (view s) = f s)
    (hf : ∀ s, Ignores view (f s)) : Ignores view (MonadState.get >>= f) := by
  intro s
  change f (view s) (view s) = (f s s).mapState view
  rw [hview, hf]

end Ignores

/-- Every value yielded satisfies `p` together with the state behind it. -/
def Yields (p : α → σ → Prop) (x : EStateM ε σ α) : Prop := ∀ ⦃s a t⦄, x s = .ok a t → p a t

theorem Yields.pure {p : α → σ → Prop} {a : α} (h : ∀ s, p a s) :
    Yields p (Pure.pure a : EStateM ε σ α) := by
  intro s b t hok
  cases hok
  exact h s

theorem Yields.bind {p : β → σ → Prop} {x : EStateM ε σ α} {f : α → EStateM ε σ β}
    (hf : ∀ a, Yields p (f a)) : Yields p (x >>= f) := by
  intro s b t h
  obtain ⟨a, u, -, ht⟩ := bind_eq_ok.mp h
  exact hf a ht

/-- Movement, recorded failures and an ignored part of the state together. -/
structure Regular (r : σ → σ → Prop) (failure : σ → Option ε) (view : σ → σ)
    (x : EStateM ε σ α) : Prop where
  moves : Moves r x
  records : Records failure x
  ignores : Ignores view x

section Regular

variable {r : σ → σ → Prop} [IsPreorder σ r] {failure : σ → Option ε} {view : σ → σ}
variable {x : EStateM ε σ α} {f : α → EStateM ε σ β}

theorem Regular.pure (a : α) : Regular r failure view (Pure.pure a : EStateM ε σ α) :=
  ⟨.pure a, .pure a, .pure a⟩

theorem Regular.bind (hx : Regular r failure view x) (hf : ∀ a, Regular r failure view (f a)) :
    Regular r failure view (x >>= f) :=
  ⟨hx.moves.bind fun a => (hf a).moves, hx.records.bind fun a => (hf a).records,
    hx.ignores.bind fun a => (hf a).ignores⟩

theorem Regular.get_bind {f : σ → EStateM ε σ β} (hview : ∀ s, f (view s) = f s)
    (hf : ∀ s, Regular r failure view (f s)) : Regular r failure view (MonadState.get >>= f) :=
  ⟨Moves.get.bind fun s => (hf s).moves, Records.get.bind fun s => (hf s).records,
    .get_bind hview fun s => (hf s).ignores⟩

end Regular

end DebugLine
