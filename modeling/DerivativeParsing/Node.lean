import DerivativeParsing.Handle
import DerivativeParsing.Matcher
import DerivativeParsing.Reducer

namespace DerivativeParsing

/-!
# Grammar nodes

A grammar is a graph of nodes, and every node stands for a language:

* `empty` for no string at all;
* `eps` for the empty string, with the trees matched so far;
* `token` for every single token its matcher accepts;
* `union` and `sequence` for either of two languages and for one after another;
* `repetition` for any number of strings of a language;
* `reduction` for the language below it, with the trees passed through a reducer;
* `delegate` for the language of its target, or for none while it has no target.

A delegate gets its target after it was built, which is how a rule can refer to
itself.
-/

/-- A node of the language algebra. -/
inductive Node (Λ : Lexicon) where
  | empty
  | eps (forest : Forest Λ.Token)
  | token (matcher : Matcher Λ)
  | union (left right : Handle)
  | sequence (first second : Handle)
  | repetition (inner : Handle)
  | reduction (inner : Handle) (reducer : Reducer Λ)
  | delegate (target : Option Handle)
deriving DecidableEq

/-- Who built a node: the author of the grammar, whose nodes are kept for good, or
a derivation, whose nodes are freed once nothing refers to them. -/
inductive Origin where
  | grammar
  | derived
deriving DecidableEq

/-- The text of an origin. -/
def Origin.describe : Origin → String
  | grammar => "Grammar"
  | derived => "Derived"

namespace Node

variable {Λ : Lexicon}

/-- The handles a node points at, in order. -/
def children : Node Λ → List Handle
  | empty => []
  | eps _ => []
  | token _ => []
  | union left right => [left, right]
  | sequence first second => [first, second]
  | repetition inner => [inner]
  | reduction inner _ => [inner]
  | delegate none => []
  | delegate (some target) => [target]

/-- The name of a node's kind. -/
def kind : Node Λ → String
  | empty => "empty"
  | eps _ => "eps"
  | token _ => "token"
  | union _ _ => "union"
  | sequence _ _ => "sequence"
  | repetition _ => "repetition"
  | reduction _ _ => "reduction"
  | delegate _ => "delegate"

/-- Whether a node is a delegate, with or without a target. -/
def isDelegate : Node Λ → Bool
  | delegate _ => true
  | _ => false

/-- The text of a node, which shows its children by their handles. -/
def describe : Node Λ → String
  | empty => "Empty"
  | eps forest => "Eps(" ++ forest.display Λ.text ++ ")"
  | token matcher => "Token(" ++ matcher.describe ++ ")"
  | union left right =>
      "Union(" ++ left.display ++ ", " ++ right.display ++ ")"
  | sequence first second =>
      "Sequence(" ++ first.display ++ ", " ++ second.display ++ ")"
  | repetition inner => "Repetition(" ++ inner.display ++ ")"
  | reduction inner reducer =>
      "Reduction(" ++ inner.display ++ ", " ++ reducer.describe ++ ")"
  | delegate (some target) => "Delegate(" ++ target.display ++ ")"
  | delegate none => "Delegate(?)"

/-- No node has more than two children. -/
theorem length_children_le (node : Node Λ) : node.children.length ≤ 2 := by
  cases node with
  | delegate target => cases target <;> simp [children]
  | _ => simp [children]

theorem mem_children_union {left right child : Handle} :
    child ∈ (union left right : Node Λ).children ↔ child = left ∨ child = right := by
  simp [children]

theorem mem_children_sequence {first second child : Handle} :
    child ∈ (sequence first second : Node Λ).children ↔
      child = first ∨ child = second := by
  simp [children]

end Node

end DerivativeParsing
