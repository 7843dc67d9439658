import DerivativeParsing.Analysis.Basic

namespace DerivativeParsing

/-!
# The trees of the empty match

The forest of a node holds the trees that its matches of the empty string
produce.  Forests are the least solution, from the empty forest, of a system of
equations over the node graph: a cycle contributes whatever trees it has
gathered so far.

Iterations of a repetition that consumed tokens are folded in by the reducers
above it, so a repetition itself contributes only the empty list.  A node may have
infinitely many trees, in which case the passes have to be limited.
-/

open Fixpoint

namespace Grammar

variable {Λ : Lexicon}

/-- The equation of the forest of a node. -/
def forestEquation (grammar : Grammar Λ) (handle : Handle) :
    Inquiry Handle (Forest Λ.Token) (Forest Λ.Token) := do
  match ← grammar.inspect handle with
  | .empty => return ∅
  | .token _ => return ∅
  | .delegate none => return ∅
  | .eps forest => return forest
  | .union left right => do
      let left ← .value left
      let right ← .value right
      return left.union right
  | .sequence first second => do
      let first ← .value first
      let second ← .value second
      return first.cross second
  | .repetition inner => do
      let _ ← .value inner
      return Forest.singleton (.list [])
  | .reduction inner reducer => do
      let inner ← .value inner
      return reducer.applyAll inner
  | .delegate (some target) => .value target

/-- Which trees do the matches of the empty string produce? -/
def emptyMatches (grammar : Grammar Λ) (known : Memo Handle (Forest Λ.Token)) :
    System Handle (Forest Λ.Token) where
  bottom := ∅
  known := known.peek?
  equation := grammar.forestEquation

end Grammar

end DerivativeParsing
