namespace DerivativeParsing

/-!
# Inquiries

The right-hand side of an equation asks for the values of other keys before it
answers.  An inquiry is such a computation as a tree: it may ask for keys in any
order, decide what to ask next by the values it has got, leave notes for a
journal on the way, and in the end answer or fail.

`eval` is the meaning of an inquiry under a fixed assignment of values to keys.
-/

namespace Fixpoint

/-- Why a computation over keys was given up: a key has no equation, or a bound on
the work was used up. -/
inductive Fault (κ : Type) where
  | absent (key : κ)
  | exhausted
deriving DecidableEq

/-- What a solver reports about its work. -/
inductive Note (κ : Type) where
  /-- A pass ended: its number, whether a value moved, how many keys it evaluated. -/
  | pass (root : κ) (number : Nat) (changed : Bool) (evaluated : Nat)
  /-- The passes were stopped by the limit while values still moved. -/
  | abandoned (root : κ) (passes : Nat)
deriving DecidableEq

/-- A computation that asks for values of type `ν` by keys of type `κ`. -/
inductive Inquiry (κ ν α : Type) where
  | answer (result : α)
  | fail (fault : Fault κ)
  | remark (notes : List (Note κ)) (rest : Inquiry κ ν α)
  | ask (key : κ) (next : ν → Inquiry κ ν α)

namespace Inquiry

variable {κ ν α β : Type}

/-- Go on with the answer of an inquiry. -/
def bind : Inquiry κ ν α → (α → Inquiry κ ν β) → Inquiry κ ν β
  | answer result, next => next result
  | fail fault, _ => fail fault
  | remark notes rest, next => remark notes (rest.bind next)
  | ask key reply, next => ask key fun value => (reply value).bind next

instance : Monad (Inquiry κ ν) where
  pure := answer
  bind := bind

/-- Ask for the value of one key. -/
def value (key : κ) : Inquiry κ ν ν := ask key answer

/-- The answer of an inquiry when every key has its value in the assignment. -/
def eval (assignment : κ → ν) : Inquiry κ ν α → Except (Fault κ) α
  | answer result => .ok result
  | fail fault => .error fault
  | remark _ rest => rest.eval assignment
  | ask key next => (next (assignment key)).eval assignment

@[simp]
theorem eval_pure (assignment : κ → ν) (result : α) :
    (pure result : Inquiry κ ν α).eval assignment = .ok result := rfl

@[simp]
theorem eval_value (assignment : κ → ν) (key : κ) :
    (value key : Inquiry κ ν ν).eval assignment = .ok (assignment key) := rfl

@[simp]
theorem eval_bind (assignment : κ → ν) (inquiry : Inquiry κ ν α)
    (next : α → Inquiry κ ν β) :
    (inquiry >>= next).eval assignment =
      (inquiry.eval assignment).bind fun result => (next result).eval assignment := by
  change (inquiry.bind next).eval assignment = _
  induction inquiry with
  | answer result => rfl
  | fail fault => rfl
  | remark notes rest ih => exact ih
  | ask key reply ih => exact ih (assignment key)

end Inquiry

end Fixpoint

end DerivativeParsing
