import DerivativeParsing.Engine.Basic

namespace DerivativeParsing

/-!
# Memoized queries

The properties and the forests of nodes, each looked up in its table first.  A
query that is not answered there is solved with the table's values as known
constants, and everything the solution covers is remembered.  A forest query that
was cut short is answered but not remembered.

Some of what an engine does can be done in more than one way, for instance with a
record of it.  A `Manner` says in which way, and everything that comes to it is
written once for all manners, in any monad that has the actions of an engine.
-/

open Fixpoint

namespace Engine

variable {Λ : Lexicon}

/-- Whether a node accepts the empty string. -/
def isNullable (handle : Handle) : Action Λ Bool := do
  let found ← remember fun tables =>
    let (found, nullable) := tables.nullable.lookup handle
    (found, { tables with nullable })
  match found with
  | some value => return value
  | none => do
      let solution ← solve
        (fun engine => engine.grammar.nullability engine.tables.nullable)
        (fun engine => engine.grammar.budget) .unbounded handle
      remember fun tables =>
        ((), { tables with nullable := tables.nullable.extend solution.values })
      return solution.value

/-- Whether a node accepts any string. -/
def isInhabited (handle : Handle) : Action Λ Bool := do
  let found ← remember fun tables =>
    let (found, inhabited) := tables.inhabited.lookup handle
    (found, { tables with inhabited })
  match found with
  | some value => return value
  | none => do
      let solution ← solve
        (fun engine => engine.grammar.inhabitation engine.tables.inhabited)
        (fun engine => engine.grammar.budget) .unbounded handle
      remember fun tables =>
        ((), { tables with inhabited := tables.inhabited.extend solution.values })
      return solution.value

/-- Whether a node accepts no string at all. -/
def isEmpty (handle : Handle) : Action Λ Bool := do
  return !(← isInhabited handle)

/-- Whether a node accepts a string that is not empty.  The question whether it
accepts any string is settled first, for everything that can be reached from
it.  What is done about an operand that it was not settled for is left open. -/
def isConsumingOr (fallback : Fallback Λ) (handle : Handle) : Action Λ Bool := do
  let found ← remember fun tables =>
    let (found, consuming) := tables.consuming.lookup handle
    (found, { tables with consuming })
  match found with
  | some value => return value
  | none => do
      let _ ← isInhabited handle
      let solution ← solve
        (fun engine =>
          engine.grammar.consumptionOr fallback engine.tables.consuming
            engine.tables.inhabited)
        (fun engine => engine.grammar.budget) .unbounded handle
      remember fun tables =>
        ((), { tables with consuming := tables.consuming.extend solution.values })
      return solution.value

/-- Whether a node accepts a string that is not empty. -/
def isConsuming (handle : Handle) : Action Λ Bool := isConsumingOr .solving handle

/-- Whether a node accepts the empty string and nothing else, with a fallback. -/
def isNullOnlyOr (fallback : Fallback Λ) (handle : Handle) : Action Λ Bool := do
  if ← isNullable handle then
    return !(← isConsumingOr fallback handle)
  else return false

/-- Whether a node accepts the empty string and nothing else. -/
def isNullOnly (handle : Handle) : Action Λ Bool := isNullOnlyOr .solving handle

/-- The limit on the passes of a forest query. -/
def forestLimit (configuration : Configuration) : PassLimit :=
  match configuration.forestPassLimit with
  | 0 => .unbounded
  | floor => .ofFloor floor

/-- A budget that limited forest queries keep within.  Queries without a limit may
go on for as long as the engine's patience lasts. -/
def forestBudget (engine : Engine Λ) : Budget where
  depth := engine.grammar.capacity + 2
  passes :=
    match engine.configuration.forestPassLimit with
    | 0 => engine.patience
    | floor => max floor (engine.grammar.capacity + 2)

/-- Solve for the forest of a node. -/
def solveForest (handle : Handle) : Action Λ (Solution Handle (Forest Λ.Token)) := do
  let configuration := (← get).configuration
  solve (fun engine => engine.grammar.emptyMatches engine.tables.forest)
    forestBudget (forestLimit configuration) handle

/-- How an engine does what can be done in more than one way: what the equation of
consumption falls back on, how the forest of a node is solved for, and how a
placeholder is opened for a delegate. -/
structure Manner (Λ : Lexicon) (m : Type → Type) where
  fallback : Fallback Λ
  solveForest : Handle → m (Solution Handle (Forest Λ.Token))
  openKnot : Handle → m Placeholder

/-- The manner of an engine that does nothing else, with a fallback. -/
def plainOr (fallback : Fallback Λ) : Manner Λ (Action Λ) where
  fallback := fallback
  solveForest := Engine.solveForest
  openKnot _ := build Grammar.placeholder

/-- The manner of an engine that does nothing else. -/
def plain : Manner Λ (Action Λ) := plainOr .solving

namespace Manner

variable {m : Type → Type} [Monad m] [MonadLiftT (Action Λ) m]

/-- The trees that the matches of the empty string produce. -/
def forestOf (manner : Manner Λ m) (handle : Handle) : m (Forest Λ.Token) := do
  let found ← remember (Λ := Λ) fun tables =>
    let (found, forest) := tables.forest.lookup handle
    (found, { tables with forest })
  match found with
  | some trees => return trees
  | none => do
      let solution ← manner.solveForest handle
      if solution.converged then
        remember (Λ := Λ) fun tables =>
          ((), { tables with
            forest := (tables.forest.extend solution.values).insert
              handle solution.value })
      return solution.value

end Manner

/-- The trees that the matches of the empty string produce. -/
def forestOf (handle : Handle) : Action Λ (Forest Λ.Token) := plain.forestOf handle

end Engine

end DerivativeParsing
