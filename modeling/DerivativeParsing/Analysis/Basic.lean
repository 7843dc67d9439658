import DerivativeParsing.Fixpoint.Solver
import DerivativeParsing.Grammar.Basic
import DerivativeParsing.Memo

namespace DerivativeParsing

/-!
# Properties of nodes as fixed points

Three questions about the language of a node, each a system of equations over the
node graph whose least solution, from `false`, is the answer:

* `nullability`: does the node accept the empty string?
* `inhabitation`: does it accept any string, every matcher taken to accept some
  token?
* `consumption`: does it accept a string that is not empty?

Values that were established before are taken from a table.  The equation of a
stale handle fails.

An equation asks for the children of its node even when the answer is already
decided, so a solution covers what can be reached from its root.  There is one
exception: a repetition is nullable whatever is repeated, and the equation of
nullability does not ask for that.  What can be reached only through a repetition
is then not covered.
-/

open Fixpoint

/-- A handle mentions itself. -/
instance : Anchored Handle Handle := ⟨fun handle => [handle]⟩

/-- Trees mention no handle. -/
instance (τ : Type) [Ord τ] : Anchored Handle (Forest τ) := ⟨fun _ => []⟩

namespace Grammar

variable {Λ : Lexicon}

/-- The node a handle refers to, for an inquiry that fails on a stale handle. -/
def inspect {ν : Type} (grammar : Grammar Λ) (handle : Handle) :
    Inquiry Handle ν (Node Λ) :=
  match grammar.get? handle with
  | some node => .answer node
  | none => .fail (.absent handle)

/-- A budget that the queries about a grammar's nodes keep within when their
values are truth values: nesting and passes are both bounded by the number of
nodes. -/
def budget (grammar : Grammar Λ) : Budget where
  depth := grammar.capacity + 2
  passes := grammar.capacity + 2

/-- The equation of nullability. -/
def nullableEquation (grammar : Grammar Λ) (handle : Handle) :
    Inquiry Handle Bool Bool := do
  match ← grammar.inspect handle with
  | .empty => return false
  | .token _ => return false
  | .delegate none => return false
  | .eps _ => return true
  | .repetition _ => return true
  | .union left right => do
      let left ← .value left
      let right ← .value right
      return left || right
  | .sequence first second => do
      let first ← .value first
      let second ← .value second
      return first && second
  | .reduction inner _ => .value inner
  | .delegate (some target) => .value target

/-- Does a node accept the empty string? -/
def nullability (grammar : Grammar Λ) (known : Memo Handle Bool) :
    System Handle Bool where
  bottom := false
  known := known.peek?
  equation := grammar.nullableEquation

/-- The equation of inhabitation. -/
def inhabitedEquation (grammar : Grammar Λ) (handle : Handle) :
    Inquiry Handle Bool Bool := do
  match ← grammar.inspect handle with
  | .empty => return false
  | .delegate none => return false
  | .eps _ => return true
  | .token _ => return true
  | .repetition inner => do
      let _ ← .value inner
      return true
  | .union left right => do
      let left ← .value left
      let right ← .value right
      return left || right
  | .sequence first second => do
      let first ← .value first
      let second ← .value second
      return first && second
  | .reduction inner _ => .value inner
  | .delegate (some target) => .value target

/-- Does a node accept any string? -/
def inhabitation (grammar : Grammar Λ) (known : Memo Handle Bool) :
    System Handle Bool where
  bottom := false
  known := known.peek?
  equation := grammar.inhabitedEquation

end Grammar

/-- What the equation of consumption does about an operand that the table of
inhabited nodes does not know. -/
abbrev Fallback (Λ : Lexicon) :=
  Grammar Λ → Memo Handle Bool → Handle → Inquiry Handle Bool Bool

/-- Solve for the operand on the spot. -/
def Fallback.solving {Λ : Lexicon} : Fallback Λ := fun grammar inhabited handle =>
  let (outcome, notes) :=
    (grammar.inhabitation inhabited).leastFixedPoint grammar.budget handle
  .remark notes <| match outcome with
    | .ok value => .answer value
    | .error fault => .fail fault

namespace Grammar

variable {Λ : Lexicon}

/-- Whether a node accepts any string, taken from the table or else from the
fallback. -/
def inhabitedOperand (fallback : Fallback Λ) (grammar : Grammar Λ)
    (inhabited : Memo Handle Bool) (handle : Handle) : Inquiry Handle Bool Bool :=
  match inhabited.peek? handle with
  | some value => .answer value
  | none => fallback grammar inhabited handle

/-- The equation of consumption.  A sequence consumes a token if one of its parts
does and the other part accepts any string at all. -/
def consumingEquation (fallback : Fallback Λ) (grammar : Grammar Λ)
    (inhabited : Memo Handle Bool) (handle : Handle) : Inquiry Handle Bool Bool := do
  match ← grammar.inspect handle with
  | .empty => return false
  | .eps _ => return false
  | .delegate none => return false
  | .token _ => return true
  | .union left right => do
      let left ← .value left
      let right ← .value right
      return left || right
  | .sequence first second => do
      let firstConsumes ← .value first
      let secondConsumes ← .value second
      let inFirst ←
        if firstConsumes then grammar.inhabitedOperand fallback inhabited second
        else pure false
      if inFirst then return true
      else if secondConsumes then grammar.inhabitedOperand fallback inhabited first
      else return false
  | .repetition inner => .value inner
  | .reduction inner _ => .value inner
  | .delegate (some target) => .value target

/-- Does a node accept a string that is not empty?  What is done about an operand
that the table does not know is left open. -/
def consumptionOr (fallback : Fallback Λ) (grammar : Grammar Λ)
    (known inhabited : Memo Handle Bool) : System Handle Bool where
  bottom := false
  known := known.peek?
  equation := grammar.consumingEquation fallback inhabited

/-- Does a node accept a string that is not empty? -/
def consumption (grammar : Grammar Λ) (known inhabited : Memo Handle Bool) :
    System Handle Bool :=
  grammar.consumptionOr .solving known inhabited

end Grammar

end DerivativeParsing
