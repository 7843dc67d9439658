import DerivativeParsing.Engine.Query

namespace DerivativeParsing

/-!
# Derivatives

The derivative of a node by a token is a node for what may follow the token: it
accepts a string exactly if the first node accepts the token and then the string.

Derivatives are remembered.  The derivative of a delegate is remembered as a
placeholder while it is being taken, so that a rule which refers to itself finds
the placeholder and the recursion ends; once the derivative of the target is
there, the placeholder is pointed at it.

No delegate is entered twice, and between two delegates no node is met twice as
long as every cycle passes through a delegate, so the square of the number of
slots bounds the depth.
-/

open Fixpoint

namespace Engine

variable {Λ : Lexicon}

/-- A node for the empty string with the given trees, which is the shared one if
there is only the tree of a plain empty match. -/
def epsCarrying (trees : Forest Λ.Token) : Action Λ Handle :=
  if trees.isNil then return Handle.eps else alloc (.eps trees)

/-- The derivative that is remembered for a step, if any. -/
def rememberedDerivative (step : Step Λ) : Action Λ (Option Handle) :=
  remember fun tables =>
    let (found, derive) := tables.derive.lookup step
    (found, { tables with derive })

/-- Remember the derivative of a step. -/
def rememberDerivative (step : Step Λ) (derivative : Handle) : Action Λ Unit :=
  remember fun tables =>
    ((), { tables with derive := tables.derive.insert step derivative })

namespace Manner

variable {m : Type → Type} [Monad m] [MonadLiftT (Action Λ) m] (manner : Manner Λ m)

/-- The derivative of a node by a token, given how the derivatives of its parts are
taken. -/
def deriveParts (derive : Handle → m Handle) (handle : Handle) (token : Λ.Token) :
    Node Λ → m Handle
  | .empty => return Handle.empty
  | .eps _ => return Handle.empty
  | .delegate none => return Handle.empty
  | .token matcher =>
      if matcher.accepts token then
        alloc (Λ := Λ) (.eps (Forest.singleton (.leaf token)))
      else return Handle.empty
  | .union left right => do
      let left ← derive left
      let right ← derive right
      alloc (Λ := Λ) (.union left right)
  | .sequence first second => do
      let firstDerived ← derive first
      let inFirst ← alloc (Λ := Λ) (.sequence firstDerived second)
      if ← isNullable (Λ := Λ) first then
        let kept ← epsCarrying (← manner.forestOf first)
        let secondDerived ← derive second
        let inSecond ← alloc (Λ := Λ) (.sequence kept secondDerived)
        alloc (Λ := Λ) (.union inFirst inSecond)
      else return inFirst
  | .repetition inner => do
      let innerDerived ← derive inner
      let iteration ← alloc (Λ := Λ) (.sequence innerDerived handle)
      alloc (Λ := Λ) (.reduction iteration .cons)
  | .reduction inner reducer => do
      let innerDerived ← derive inner
      alloc (.reduction innerDerived reducer)
  | .delegate (some target) => do
      let placeholder ← manner.openKnot handle
      rememberDerivative ⟨handle, token⟩ placeholder.handle
      let derived ← derive target
      build (Λ := Λ) fun grammar => ((), grammar.fill placeholder derived)
      return derived

/-- The derivative of a node by a token, taken at most `fuel` levels deep. -/
def deriveWithin (token : Λ.Token) : (fuel : Nat) → Handle → m Handle
  | 0, _ => (throw .exhausted : Action Λ Handle)
  | fuel + 1, handle => do
      match ← rememberedDerivative ⟨handle, token⟩ with
      | some derivative => return derivative
      | none => do
          let derivative ←
            manner.deriveParts (deriveWithin token fuel) handle token
              (← node (Λ := Λ) handle)
          rememberDerivative ⟨handle, token⟩ derivative
          return derivative

/-- The derivative of a node by a token. -/
def derive (handle : Handle) (token : Λ.Token) : m Handle := do
  let engine ← (get : Action Λ (Engine Λ))
  manner.deriveWithin token (engine.grammar.descentBound + 1) handle

end Manner

/-- The derivative of a node by a token. -/
def derive (handle : Handle) (token : Λ.Token) : Action Λ Handle :=
  plain.derive handle token

end Engine

end DerivativeParsing
