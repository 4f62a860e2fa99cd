import DebugLine.Proofs.Effects

/-!
# Two computations in step

One computation goes along with another if from related states it comes to related states, with a
value or a failure that is the image of the other's. Computations that are put together from parts
go along with each other where their parts do.
-/

namespace DebugLine

variable {ε σ α β γ δ : Type} {r : σ → σ → Prop} {error : ε → ε}

/-- Related states behind a value and its image, or behind a failure and its image. -/
inductive Matching (r : σ → σ → Prop) (error : ε → ε) (value : α → β) :
    EStateM.Result ε σ α → EStateM.Result ε σ β → Prop
  | ok {a : α} {b : β} {s s' : σ} (value_eq : b = value a) (state : r s s') :
      Matching r error value (.ok a s) (.ok b s')
  | error {e e' : ε} {s s' : σ} (error_eq : e' = error e) (state : r s s') :
      Matching r error value (.error e s) (.error e' s')

/-- From related states `x'` comes to the image of what `x` comes to. -/
def Simulates (r : σ → σ → Prop) (error : ε → ε) (value : α → β) (x : EStateM ε σ α)
    (x' : EStateM ε σ β) : Prop :=
  ∀ ⦃s s'⦄, r s s' → Matching r error value (x s) (x' s')

theorem Matching.state {value : α → β} {o : EStateM.Result ε σ α} {o' : EStateM.Result ε σ β}
    (h : Matching r error value o o') : r o.state o'.state := by
  cases h <;> assumption

theorem Matching.answer_eq {o o' : EStateM.Result ε σ α} (h : Matching r error id o o') :
    o'.answer = o.answer.mapError error := by
  cases h with
  | ok value_eq => exact congrArg Except.ok value_eq
  | error error_eq => exact congrArg Except.error error_eq

namespace Simulates

theorem pure {value : α → β} {a : α} {b : β} (h : b = value a) :
    Simulates r error value (Pure.pure a) (Pure.pure b) :=
  fun _ _ hs => .ok h hs

theorem bind {value : α → β} {value' : γ → δ} {x : EStateM ε σ α} {x' : EStateM ε σ β}
    {f : α → EStateM ε σ γ} {f' : β → EStateM ε σ δ} (hx : Simulates r error value x x')
    (hf : ∀ a, Simulates r error value' (f a) (f' (value a))) :
    Simulates r error value' (x >>= f) (x' >>= f') := by
  intro s s' hs
  have hresult := hx hs
  generalize ho : x s = o at hresult
  generalize ho' : x' s' = o' at hresult
  cases hresult with
  | ok value_eq state =>
    subst value_eq
    rw [bind_of_ok ho, bind_of_ok ho']
    exact hf _ state
  | error error_eq state =>
    rw [bind_of_error ho, bind_of_error ho']
    exact .error error_eq state

theorem get_bind {value : α → β} {f : σ → EStateM ε σ α} {f' : σ → EStateM ε σ β}
    (hf : ∀ s s', r s s' → Simulates r error value (f s) (f' s')) :
    Simulates r error value (MonadState.get >>= f) (MonadState.get >>= f') :=
  fun s s' hs => hf s s' hs hs

theorem modify {move move' : σ → σ} (h : ∀ s s', r s s' → r (move s) (move' s')) :
    Simulates r error id (modify move : EStateM ε σ PUnit) (modify move') :=
  fun s s' hs => .ok rfl (h s s' hs)

end Simulates
end DebugLine
