import DerivativeParsing.Grammar.Basic

namespace DerivativeParsing

/-!
# Rendering of grammar graphs

A grammar graph is written as a nested expression.  A delegate is written with
its target the first time it is met, as `#n:target`, and as `#n` afterwards,
which keeps the text of a cyclic graph finite as long as every cycle passes
through a delegate.

On the way down no delegate is entered twice, and between two delegates no node
is met twice, so the square of the number of slots bounds the depth.
-/

namespace Grammar

variable {Λ : Lexicon}

/-- Write the graph below a handle, at most `fuel` levels deep.  The state holds
the delegates that were met. -/
def renderWithin (grammar : Grammar Λ) :
    (fuel : Nat) → Handle → StateM (List Handle) String
  | 0, _ => return ""
  | fuel + 1, handle =>
      match grammar.get? handle with
      | none => return "<stale " ++ handle.display ++ ">"
      | some .empty => return "empty"
      | some (.eps forest) =>
          if forest.isNil then return "eps"
          else return "(eps " ++ forest.display Λ.text ++ ")"
      | some (.token matcher) => return matcher.render
      | some (.union left right) => do
          let left ← grammar.renderWithin fuel left
          let right ← grammar.renderWithin fuel right
          return "(or " ++ left ++ " " ++ right ++ ")"
      | some (.sequence first second) => do
          let first ← grammar.renderWithin fuel first
          let second ← grammar.renderWithin fuel second
          return "(seq " ++ first ++ " " ++ second ++ ")"
      | some (.repetition inner) => do
          let inner ← grammar.renderWithin fuel inner
          return "(star " ++ inner ++ ")"
      | some (.reduction inner reducer) => do
          let inner ← grammar.renderWithin fuel inner
          return "(red " ++ reducer.render ++ " " ++ inner ++ ")"
      | some (.delegate target) => do
          let met ← get
          if handle ∈ met then return handle.display
          set (handle :: met)
          match target with
          | none => return handle.display ++ ":?"
          | some target => do
              let target ← grammar.renderWithin fuel target
              return handle.display ++ ":" ++ target

/-- The text of the graph below a handle. -/
def render (grammar : Grammar Λ) (handle : Handle) : String :=
  (grammar.renderWithin (grammar.descentBound + 1) handle |>.run []).1

end Grammar

end DerivativeParsing
