import DerivativeParsing.Engine.Derivative

namespace DerivativeParsing

/-!
# Compaction

Compaction rewrites a node into a smaller one with the same language and trees:

* a node that accepts nothing becomes the empty node;
* a node that accepts only the empty string becomes an `eps` node with its trees;
* a union with an empty operand becomes the other operand;
* a sequence with an operand that accepts only the empty string becomes a
  reduction of the other operand;
* nested reductions become one.

Compacted nodes are remembered, delegates as placeholders while their targets are
being compacted, as in derivation.
-/

open Fixpoint

namespace Engine

variable {Λ : Lexicon}

/-- A reduction of a node that is compact already, folded into one reduction if the
node is a reduction itself. -/
def fusedReduction (inner : Handle) (reducer : Reducer Λ) : Action Λ Handle := do
  match ← node inner with
  | .reduction innermost innerReducer =>
      alloc (.reduction innermost (.compose reducer innerReducer))
  | _ => alloc (.reduction inner reducer)

/-- The compacted node that is remembered for a node, if any. -/
def rememberedCompaction (handle : Handle) : Action Λ (Option Handle) :=
  remember fun tables =>
    let (found, compact) := tables.compact.lookup handle
    (found, { tables with compact })

/-- Remember the compacted node of a node. -/
def rememberCompaction (handle compacted : Handle) : Action Λ Unit :=
  remember fun tables =>
    ((), { tables with compact := tables.compact.insert handle compacted })

namespace Manner

variable {m : Type → Type} [Monad m] [MonadLiftT (Action Λ) m] (manner : Manner Λ m)

/-- The compacted form of a node with parts, given how its parts are compacted. -/
def compactParts (compact : Handle → m Handle) (handle : Handle) : Node Λ → m Handle
  | .empty => return handle
  | .eps _ => return handle
  | .token _ => return handle
  | .delegate none => return handle
  | .union left right => do
      if ← isEmpty (Λ := Λ) left then compact right
      else if ← isEmpty (Λ := Λ) right then compact left
      else
        let left ← compact left
        let right ← compact right
        alloc (Λ := Λ) (.union left right)
  | .sequence first second => do
      if ← isNullOnlyOr manner.fallback first then
        let trees ← manner.forestOf first
        let second ← compact second
        fusedReduction second (.prepend trees)
      else if ← isNullOnlyOr manner.fallback second then
        let trees ← manner.forestOf second
        let first ← compact first
        fusedReduction first (.append trees)
      else
        let first ← compact first
        let second ← compact second
        alloc (Λ := Λ) (.sequence first second)
  | .repetition inner => do
      if ← isEmpty (Λ := Λ) inner then
        alloc (Λ := Λ) (.eps (Forest.singleton (.list [])))
      else
        let inner ← compact inner
        alloc (Λ := Λ) (.repetition inner)
  | .reduction inner reducer => do
      let inner ← compact inner
      fusedReduction inner reducer
  | .delegate (some target) => do
      let placeholder ← manner.openKnot handle
      rememberCompaction (Λ := Λ) handle placeholder.handle
      let compacted ← compact target
      build (Λ := Λ) fun grammar => ((), grammar.fill placeholder compacted)
      return compacted

/-- The compacted form of a node, given how its parts are compacted.  Whether the node
has any match, and any that is not empty, is settled before its parts are looked at. -/
def compactNode (compact : Handle → m Handle) (handle : Handle) : Node Λ → m Handle
  | .empty => return handle
  | .eps _ => return handle
  | .token _ => return handle
  | node => do
      if ← isEmpty (Λ := Λ) handle then return Handle.empty
      else if ← isNullOnlyOr manner.fallback handle then
        epsCarrying (← manner.forestOf handle)
      else manner.compactParts compact handle node

/-- The compacted form of a node, at most `fuel` levels deep. -/
def compactWithin : (fuel : Nat) → Handle → m Handle
  | 0, _ => (throw .exhausted : Action Λ Handle)
  | fuel + 1, handle => do
      match ← rememberedCompaction (Λ := Λ) handle with
      | some compacted => return compacted
      | none => do
          let compacted ←
            manner.compactNode (compactWithin fuel) handle (← node (Λ := Λ) handle)
          rememberCompaction (Λ := Λ) handle compacted
          return compacted

/-- The compacted form of a node. -/
def compact (handle : Handle) : m Handle := do
  let engine ← (get : Action Λ (Engine Λ))
  manner.compactWithin (engine.grammar.descentBound + 1) handle

end Manner

/-- The compacted form of a node. -/
def compact (handle : Handle) : Action Λ Handle := plain.compact handle

end Engine

end DerivativeParsing
