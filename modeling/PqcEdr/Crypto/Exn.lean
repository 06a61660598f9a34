/-
# Exceptions

The exception types of the crypto library, each with the text it is thrown with, and what it
means for a computation that may throw to have returned.
-/
import PqcEdr.Event

namespace PqcEdr.Crypto

/-- `std::runtime_error` and the classes derived from it. -/
inductive Exn
  | WireError (what : String)
  | HandshakeError (what : String)
  | RecordError (what : String)
  | SocketError (what : String)
  | runtime_error (what : String)
  deriving DecidableEq, Repr

/-- A call that returns or throws. -/
abbrev Result (α : Type) := Except Exn α

variable {α β : Type}

theorem bind_eq_ok {x : Result α} {f : α → Result β} {b : β} :
    (x >>= f) = .ok b ↔ ∃ a, x = .ok a ∧ f a = .ok b := by
  cases x <;> simp [bind, Except.bind]

@[simp] theorem pure_eq_ok {a b : α} : (pure a : Result α) = .ok b ↔ a = b := by
  simp [pure, Except.pure]

/-- A guard that lets its computation go on. -/
theorem guard_eq_ok {P : Prop} [Decidable P] {e : Exn} {x : Result α} {a : α} :
    (if P then throw e else x) = .ok a ↔ ¬ P ∧ x = .ok a := by
  by_cases hP : P <;> simp [hP]

/-- What a library call that may fail gives its caller. -/
def orThrow (e : Exn) : Option α → Result α
  | none => .error e
  | some a => .ok a

@[simp] theorem orThrow_eq_ok {e : Exn} {x : Option α} {a : α} :
    orThrow e x = .ok a ↔ x = some a := by
  cases x <;> simp [orThrow]

end PqcEdr.Crypto
