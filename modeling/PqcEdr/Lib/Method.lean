/-
# Methods that may throw

A member function of an object, in a language with exceptions: it reads and writes the object's
state, and when it throws, the state stays as it was left at that point.  `call` runs one; the
rules below evaluate a call step by step and invert one that returned.
-/
import Mathlib.Tactic.Common

/-- A computation on a state `σ` that returns an `α` or throws an `ε`, keeping the state. -/
abbrev Method (ε σ α : Type) := ExceptT ε (StateM σ) α

namespace Method

variable {ε σ α β : Type}

/-- What the call returns or throws, and the state it leaves. -/
def call (m : Method ε σ α) (s : σ) : Except ε α × σ := m.run s

theorem call_bind (m : Method ε σ α) (f : α → Method ε σ β) (s : σ) :
    call (m >>= f) s = match m.call s with
      | (.ok a, s') => (f a).call s'
      | (.error e, s') => (.error e, s') := by
  rcases h : m.call s with ⟨_ | a, s'⟩
  all_goals
    rw [call, ExceptT.run] at h
    rw [call, ExceptT.run, bind, Monad.toBind, ExceptT.instMonad]
    simp only [ExceptT.bind, ExceptT.mk, bind, StateT.bind, h]
    rfl

/-- A sequence that returned has returned twice. -/
theorem call_bind_eq_ok {m : Method ε σ α} {f : α → Method ε σ β} {s s' : σ} {b : β} :
    call (m >>= f) s = (.ok b, s') ↔
      ∃ a s₁, m.call s = (.ok a, s₁) ∧ (f a).call s₁ = (.ok b, s') := by
  rw [call_bind]
  rcases m.call s with ⟨_ | a, s₁⟩ <;> simp

@[simp] theorem call_pure (a : α) (s : σ) : call (pure a : Method ε σ α) s = (.ok a, s) := rfl

@[simp] theorem call_throw (e : ε) (s : σ) : call (throw e : Method ε σ α) s = (.error e, s) := rfl

@[simp] theorem call_lift (x : Except ε α) (s : σ) :
    call (liftM x : Method ε σ α) s = (x, s) := by
  cases x <;> rfl

@[simp] theorem call_ite {P : Prop} [Decidable P] (m n : Method ε σ α) (s : σ) :
    call (if P then m else n) s = if P then m.call s else n.call s := by
  split <;> rfl

@[simp] theorem call_get_bind (f : σ → Method ε σ β) (s : σ) :
    call (get >>= f) s = (f s).call s := rfl

/-- A guard that throws leaves the state alone; one that does not is passed. -/
theorem call_guard_eq_ok {P : Prop} [Decidable P] {e : ε} {m : Method ε σ α} {s s' : σ} {a : α} :
    call (if P then throw e else m) s = (.ok a, s') ↔ ¬ P ∧ m.call s = (.ok a, s') := by
  by_cases hP : P <;> simp [hP]

theorem call_guard_eq_error {P : Prop} [Decidable P] {e e' : ε} {m : Method ε σ α} {s s' : σ} :
    call (if P then throw e else m) s = (.error e', s') ↔
      P ∧ e = e' ∧ s = s' ∨ ¬ P ∧ m.call s = (.error e', s') := by
  by_cases hP : P <;> simp [hP]

/-- A computation without effect that returns hands on its value. -/
theorem call_lift_bind_eq_ok {x : Except ε α} {f : α → Method ε σ β} {s s' : σ} {b : β} :
    call (liftM x >>= f) s = (.ok b, s') ↔ ∃ a, x = .ok a ∧ (f a).call s = (.ok b, s') := by
  rw [call_bind, call_lift]
  cases x <;> simp

theorem call_lift_bind_eq_error {x : Except ε α} {f : α → Method ε σ β} {s s' : σ} {e : ε} :
    call (liftM x >>= f) s = (.error e, s') ↔
      x = .error e ∧ s = s' ∨ ∃ a, x = .ok a ∧ (f a).call s = (.error e, s') := by
  rw [call_bind, call_lift]
  cases x <;> simp

@[simp] theorem call_modify_bind (f : σ → σ) (m : Unit → Method ε σ β) (s : σ) :
    call (modify f >>= m) s = (m ()).call (f s) := rfl

end Method
