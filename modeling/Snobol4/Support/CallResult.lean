import Mathlib.Init

/-!
# CallResult — what a call of a C function comes to

A call returns a value, it refuses, or it does something that C leaves undefined.
-/

/-- The outcome of a call. -/
inductive CallResult (α : Type) where
  | done (a : α)
  | refused
  | undefined
  deriving Repr, DecidableEq

namespace CallResult

variable {α β : Type}

/-- Go on with the value. -/
def bind (x : CallResult α) (f : α → CallResult β) : CallResult β :=
  match x with
  | done a => f a
  | refused => refused
  | undefined => undefined

instance : Monad CallResult where
  pure := done
  bind := bind

/-- The value, if there is one. -/
def toOption : CallResult α → Option α
  | done a => some a
  | _ => none

theorem pure_def (a : α) : (pure a : CallResult α) = done a := rfl

theorem bind_eq_bind (x : CallResult α) (f : α → CallResult β) : x >>= f = x.bind f := rfl

@[simp] theorem bind_done (a : α) (f : α → CallResult β) : (done a).bind f = f a := rfl

@[simp] theorem bind_refused (f : α → CallResult β) : (refused : CallResult α).bind f = refused :=
  rfl

@[simp] theorem bind_undefined (f : α → CallResult β) :
    (undefined : CallResult α).bind f = undefined := rfl

theorem bind_eq_done_iff {x : CallResult α} {f : α → CallResult β} {b : β} :
    x.bind f = done b ↔ ∃ a, x = done a ∧ f a = done b := by
  cases x <;> simp [bind]

theorem bind_eq_undefined_iff {x : CallResult α} {f : α → CallResult β} :
    x.bind f = undefined ↔ x = undefined ∨ ∃ a, x = done a ∧ f a = undefined := by
  cases x <;> simp [bind]

theorem toOption_eq_some_iff {x : CallResult α} {a : α} : x.toOption = some a ↔ x = done a := by
  cases x <;> simp [toOption]

end CallResult
