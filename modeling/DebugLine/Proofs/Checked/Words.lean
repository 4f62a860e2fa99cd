import DebugLine.Proofs.Effects

/-!
# Computations on machine words

A word has a width, an array has an end, and nothing can be divided by zero. A checked computation
asks before each such operation whether it has a result, and has no outcome where one has none. A
computation on unbounded numbers agrees with a checked one where every operation of the latter has
a result and both come to the same.
-/

namespace DebugLine

namespace Word

variable {α : Type}

/-- The sum of two words of `width` bits, if it is one. -/
def add (width a b : Nat) : Option Nat := if a + b < 2 ^ width then some (a + b) else none

/-- The difference of two words, which cannot be negative. -/
def sub (a b : Nat) : Option Nat := if b ≤ a then some (a - b) else none

/-- The sum of two signed words, if it is one. -/
def addSigned (a b : Int64) : Option Int64 :=
  if -2 ^ 63 ≤ a.toInt + b.toInt ∧ a.toInt + b.toInt < 2 ^ 63 then some (a + b) else none

/-- `a` moved up by fewer bits than it has. Those moved out at the top are lost. -/
def shiftLeft (a : UInt64) (amount : Nat) : Option UInt64 :=
  if amount < 64 then some (a <<< UInt64.ofNat amount) else none

def div (a b : UInt64) : Option UInt64 := if b = 0 then none else some (a / b)

def mod (a b : UInt64) : Option UInt64 := if b = 0 then none else some (a % b)

/-- The elements from `start` up to `stop`, if there are that many and `start` is not behind. -/
def slice (xs : Array α) (start stop : Nat) : Option (Array α) :=
  if start ≤ stop ∧ stop ≤ xs.size then some (xs.extract start stop) else none

theorem add_of_lt {width a b : Nat} (h : a + b < 2 ^ width) : add width a b = some (a + b) :=
  if_pos h

theorem sub_of_le {a b : Nat} (h : b ≤ a) : sub a b = some (a - b) := if_pos h

theorem shiftLeft_of_lt {a : UInt64} {amount : Nat} (h : amount < 64) :
    shiftLeft a amount = some (a <<< UInt64.ofNat amount) := if_pos h

theorem div_of_ne {a b : UInt64} (h : b ≠ 0) : div a b = some (a / b) := if_neg h

theorem mod_of_ne {a b : UInt64} (h : b ≠ 0) : mod a b = some (a % b) := if_neg h

theorem slice_of_le {xs : Array α} {start stop : Nat} (h : start ≤ stop) (h' : stop ≤ xs.size) :
    slice xs start stop = some (xs.extract start stop) := if_pos ⟨h, h'⟩

end Word

/-- A computation whose operations on words are checked. A failure is one of its outcomes; where an
operation has no result there is no outcome. -/
abbrev Checked (σ α : Type) := ExceptT LineError (StateT σ Option) α

variable {σ τ α β : Type} {view : σ → τ}

namespace Checked

variable {x : Checked τ α} {f : α → Checked τ β} {t u : τ} {a : α} {e : LineError}

theorem run_bind_of_ok (h : x.run.run t = some (.ok a, u)) :
    (x >>= f).run.run t = (f a).run.run u := by
  rw [ExceptT.run_bind, StateT.run_bind, h]
  rfl

theorem run_bind_of_error (h : x.run.run t = some (.error e, u)) :
    (x >>= f).run.run t = some (.error e, u) := by
  rw [ExceptT.run_bind, StateT.run_bind, h]
  rfl

/-- An operation with a result only passes it on. -/
theorem run_done_bind {o : Option α} (h : o = some a) :
    (liftM o >>= f : Checked τ β).run.run t = (f a).run.run t := by
  subst h
  rfl

end Checked

/-- From `s` on, every operation of `x` has a result, and `x` comes to what `y` comes to. -/
def Agrees (view : σ → τ) (x : Checked τ α) (y : EStateM LineError σ α) (s : σ) : Prop :=
  x.run.run (view s) = some ((y s).answer, view (y s).state)

namespace Agrees

variable {x : Checked τ α} {y : EStateM LineError σ α} {s : σ}
variable {f : α → Checked τ β} {g : α → EStateM LineError σ β}

theorem pure (a : α) : Agrees view (Pure.pure a) (Pure.pure a) s := rfl

theorem congr {y' : EStateM LineError σ α} (hx : Agrees view x y s) (h : y' s = y s) :
    Agrees view x y' s := by
  unfold Agrees
  rw [h]
  exact hx

theorem run_eq (h : Agrees view x y s) :
    x.run.run (view s) = some ((y s).answer, view (y s).state) := h

theorem run_of_ok (h : Agrees view x y s) {a : α} {t : σ} (hok : y s = .ok a t) :
    x.run.run (view s) = some (.ok a, view t) := by
  rw [h.run_eq, hok]
  rfl

theorem run_of_error (h : Agrees view x y s) {e : LineError} {t : σ} (herr : y s = .error e t) :
    x.run.run (view s) = some (.error e, view t) := by
  rw [h.run_eq, herr]
  rfl

theorem of_ok {a : α} {t : σ} (hok : y s = .ok a t)
    (hrun : x.run.run (view s) = some (.ok a, view t)) : Agrees view x y s := by
  unfold Agrees
  rw [hok]
  exact hrun

theorem of_error {e : LineError} {t : σ} (herr : y s = .error e t)
    (hrun : x.run.run (view s) = some (.error e, view t)) : Agrees view x y s := by
  unfold Agrees
  rw [herr]
  exact hrun

theorem bind (hx : Agrees view x y s)
    (hf : ∀ a t, y s = .ok a t → Agrees view (f a) (g a) t) :
    Agrees view (x >>= f) (y >>= g) s := by
  cases h : y s with
  | ok a t =>
    unfold Agrees
    rw [bind_of_ok h, Checked.run_bind_of_ok (hx.run_of_ok h)]
    exact hf a t h
  | error e t => exact of_error (bind_of_error h) (Checked.run_bind_of_error (hx.run_of_error h))

theorem done_bind {o : Option β} {b : β} {f : β → Checked τ α} (h : o = some b)
    (hf : Agrees view (f b) y s) : Agrees view (liftM o >>= f) y s :=
  (Checked.run_done_bind h).trans hf

theorem get_bind {f : τ → Checked τ α} {g : σ → EStateM LineError σ α}
    (h : Agrees view (f (view s)) (g s) s) : Agrees view (get >>= f) (get >>= g) s := h

/-- A look that leaves the state alone. -/
theorem bind_left {x : Checked τ β} {b : β} {f : β → Checked τ α}
    (hx : x.run.run (view s) = some (.ok b, view s)) (hf : Agrees view (f b) y s) :
    Agrees view (x >>= f) y s :=
  (Checked.run_bind_of_ok hx).trans hf

theorem get_bind_left {f : τ → Checked τ α} (h : Agrees view (f (view s)) y s) :
    Agrees view (get >>= f) y s := h

end Agrees
end DebugLine
