import DerivativeParsing.Grammar.Basic

namespace DerivativeParsing

/-!
# Structural equality of grammar graphs

Two nodes are compared by kind and then by their children, with these provisions:

* a delegate is compared as its target;
* the operands of a union may be compared straight or crossed;
* `eps` nodes are equal whatever trees they carry;
* nested reductions are compared as one chain of reducers over one body.

The graph may be cyclic.  A pair of nodes is therefore assumed equal while its
children are compared, and the assumption is withdrawn if they turn out to
differ.  Every comparison that goes deeper adds a pair of live nodes to the
assumptions, so the square of the number of slots bounds the depth.
-/

namespace Grammar

variable {Λ : Lexicon}

/-- Follow reductions from a handle for at most `fuel` steps, collecting their
reducers outermost first, and stop at a reduction that was passed already. -/
def reductionChainFrom (grammar : Grammar Λ) :
    (fuel : Nat) → (passed : List Handle) → Handle → List (Reducer Λ) × Handle
  | 0, _, handle => ([], handle)
  | fuel + 1, passed, handle =>
      match grammar.get? handle with
      | some (.reduction inner reducer) =>
          if handle ∈ passed then ([], handle)
          else
            let (reducers, body) :=
              grammar.reductionChainFrom fuel (handle :: passed) (grammar.resolve inner)
            (reducer.flatten ++ reducers, body)
      | _ => ([], handle)

/-- The reducers on the way down from a handle, outermost first, and the node
below the last of them. -/
def reductionChain (grammar : Grammar Λ) (handle : Handle) :
    List (Reducer Λ) × Handle :=
  grammar.reductionChainFrom (grammar.capacity + 1) [] (grammar.resolve handle)

/-- The pairs of nodes that are assumed equal during a comparison. -/
abbrev Assumptions := List (Handle × Handle)

/-- Compare under the assumption that two nodes are equal, and withdraw it if the
comparison fails. -/
def assuming (first second : Handle) (comparison : StateM Assumptions Bool) :
    StateM Assumptions Bool := do
  modify fun assumed => (first, second) :: assumed
  let equal ← comparison
  unless equal do
    modify fun assumed => assumed.erase (first, second)
  return equal

/-- Both comparisons succeed; the second is made only after the first. -/
def both (first second : StateM Assumptions Bool) : StateM Assumptions Bool := do
  if ← first then second else return false

/-- One of the comparisons succeeds; the second is made only if the first fails. -/
def either (first second : StateM Assumptions Bool) : StateM Assumptions Bool := do
  if ← first then return true else second

/-- Compare two nodes, going at most `fuel` levels deep. -/
def equalWithin (grammar : Grammar Λ) :
    (fuel : Nat) → (first second : Handle) → StateM Assumptions Bool
  | 0, _, _ => return false
  | fuel + 1, first, second => do
      let first := grammar.resolve first
      let second := grammar.resolve second
      let assumed ← get
      if first = second ∨ (first, second) ∈ assumed ∨ (second, first) ∈ assumed then
        return true
      match grammar.get? first, grammar.get? second with
      | some .empty, some .empty => return true
      | some (.eps _), some (.eps _) => return true
      | some (.token matcher), some (.token matcher') => return matcher = matcher'
      | some (.union left right), some (.union left' right') =>
          assuming first second <| either
            (both (grammar.equalWithin fuel left left')
              (grammar.equalWithin fuel right right'))
            (both (grammar.equalWithin fuel left right')
              (grammar.equalWithin fuel right left'))
      | some (.sequence head tail), some (.sequence head' tail') =>
          assuming first second <|
            both (grammar.equalWithin fuel head head')
              (grammar.equalWithin fuel tail tail')
      | some (.repetition inner), some (.repetition inner') =>
          assuming first second (grammar.equalWithin fuel inner inner')
      | some (.reduction _ _), some (.reduction _ _) =>
          let (reducers, body) := grammar.reductionChain first
          let (reducers', body') := grammar.reductionChain second
          assuming first second <|
            if reducers = reducers' then grammar.equalWithin fuel body body'
            else return false
      | _, _ => return false

/-- Whether two nodes are the roots of structurally equal graphs. -/
def equal (grammar : Grammar Λ) (first second : Handle) : Bool :=
  let depth := grammar.capacity * grammar.capacity + 1
  (grammar.equalWithin depth first second |>.run []).1

end Grammar

end DerivativeParsing
