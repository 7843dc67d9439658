import DerivativeParsing.Analysis.Forest
import DerivativeParsing.Configuration.Basic
import DerivativeParsing.Grammar.Collection
import DerivativeParsing.Journal

namespace DerivativeParsing

/-!
# Engines

An engine owns a grammar together with what it has found out about it: one memo
table for each of the six functions it computes.  Its actions may extend the
grammar, fill the tables and report to the journal.

An action fails if it meets a stale handle where a node is needed, or if it uses
up a bound on its work.  Even then what it did before stays done.
-/

open Fixpoint

/-- A derivative to be taken: of which node, by which token. -/
structure Step (Λ : Lexicon) where
  node : Handle
  token : Λ.Token

namespace Step

variable {Λ : Lexicon}

instance : Ord (Step Λ) :=
  ⟨compareLex (compareOn Step.node) (compareOn Step.token)⟩

theorem compare_def (first second : Step Λ) :
    compare first second =
      compareLex (compareOn Step.node) (compareOn Step.token) first second := rfl

instance : Std.TransOrd (Step Λ) :=
  inferInstanceAs (Std.TransCmp
    (compareLex (compareOn Step.node) (compareOn Step.token)))

instance : Std.LawfulEqOrd (Step Λ) where
  eq_of_compare {first second} h := by
    rw [compare_def, compareLex_eq_eq] at h
    obtain ⟨hNode, hToken⟩ := h
    cases first
    cases second
    simp_all [compareOn]

/-- A step mentions the node it starts from. -/
instance : Anchored Handle (Step Λ) := ⟨fun step => [step.node]⟩

end Step

/-- The memo tables of an engine, one for each function it computes. -/
structure Tables (Λ : Lexicon) where
  derive : Memo (Step Λ) Handle := {}
  compact : Memo Handle Handle := {}
  nullable : Memo Handle Bool := {}
  inhabited : Memo Handle Bool := {}
  consuming : Memo Handle Bool := {}
  forest : Memo Handle (Forest Λ.Token) := {}

namespace Tables

variable {Λ : Lexicon}

/-- The number of remembered results in all tables. -/
def size (tables : Tables Λ) : Nat :=
  tables.derive.size + tables.compact.size + tables.nullable.size +
    tables.inhabited.size + tables.consuming.size + tables.forest.size

/-- The event of a sweep of one table, if it dropped any entry. -/
def sweepEvents {κ ν : Type} [Ord κ] (memo : Memo κ ν) (evicted : Nat) :
    List (Event Λ) :=
  if evicted = 0 then [] else [.swept evicted memo.size]

/-- Drop every result that mentions a handle that is not live.  The number of
dropped results and the events, the latest first, come with the tables. -/
def sweep (tables : Tables Λ) (live : Handle → Bool) :
    Nat × List (Event Λ) × Tables Λ :=
  let (inDerive, derive) := tables.derive.sweep live
  let (inCompact, compact) := tables.compact.sweep live
  let (inNullable, nullable) := tables.nullable.sweep live
  let (inInhabited, inhabited) := tables.inhabited.sweep live
  let (inConsuming, consuming) := tables.consuming.sweep live
  let (inForest, forest) := tables.forest.sweep live
  (inDerive + inCompact + inNullable + inInhabited + inConsuming + inForest,
    sweepEvents tables.forest inForest ++
      sweepEvents tables.consuming inConsuming ++
      sweepEvents tables.inhabited inInhabited ++
      sweepEvents tables.nullable inNullable ++
      sweepEvents tables.compact inCompact ++
      sweepEvents tables.derive inDerive,
    { derive, compact, nullable, inhabited, consuming, forest })

end Tables

/-- A grammar with what was found out about it. -/
structure Engine (Λ : Lexicon) where
  grammar : Grammar Λ
  configuration : Configuration := {}
  tables : Tables Λ := {}
  /-- How many passes a forest query may take that the configuration does not
  limit. -/
  patience : Nat := 18446744073709551616
  /-- What was reported so far, the latest first. -/
  journal : List (Event Λ) := []

/-- What an engine does: it may fail, and it keeps what it has done even then. -/
abbrev Action (Λ : Lexicon) := EStateM (Fault Handle) (Engine Λ)

namespace Engine

variable {Λ : Lexicon}

/-- Report an event. -/
def report (event : Event Λ) : Action Λ Unit :=
  modify fun engine => { engine with journal := event :: engine.journal }

/-- The node a handle refers to; the action fails if the handle is stale. -/
def node (handle : Handle) : Action Λ (Node Λ) := do
  match (← get).grammar.get? handle with
  | some node => return node
  | none => throw (.absent handle)

/-- Change the grammar and get a result with it. -/
def build {α : Type} (change : Grammar Λ → α × Grammar Λ) : Action Λ α :=
  modifyGet fun engine =>
    let (result, grammar) := change engine.grammar
    (result, { engine with grammar })

/-- Build a derived node. -/
def alloc (node : Node Λ) : Action Λ Handle :=
  build fun grammar => grammar.alloc node .derived

/-- Change the tables and get a result with it. -/
def remember {α : Type} (change : Tables Λ → α × Tables Λ) : Action Λ α :=
  modifyGet fun engine =>
    let (result, tables) := change engine.tables
    (result, { engine with tables })

/-- Solve a system of equations over the grammar's nodes, reporting the solver's
notes. -/
def solve {ν : Type} [DecidableEq ν] (system : Engine Λ → System Handle ν)
    (budget : Engine Λ → Budget) (limit : PassLimit) (root : Handle) :
    Action Λ (Solution Handle ν) := do
  let engine ← get
  let (outcome, notes) := (system engine).solve (budget engine) limit root
  modify fun engine =>
    { engine with journal := notes.map Event.solved ++ engine.journal }
  match outcome with
  | .ok solution => return solution
  | .error fault => throw fault

/-- Free the derived nodes that nothing refers to, leaving the tables alone.  The
result is the number of freed nodes. -/
def collectNodes (roots : List Handle) : Action Λ Nat := do
  let freed ← build fun grammar => grammar.collect roots
  report (.collected freed (← get).grammar.size)
  return freed

/-- Free the derived nodes that nothing refers to, and forget every result that
mentions one of them.  The result is the number of freed nodes. -/
def collectGarbage (roots : List Handle) : Action Λ Nat := do
  let freed ← collectNodes roots
  let evicted ← modifyGet fun engine =>
    let (evicted, events, tables) := engine.tables.sweep engine.grammar.contains
    (evicted, { engine with tables, journal := events ++ engine.journal })
  report (.reclaimed freed evicted)
  return freed

end Engine

end DerivativeParsing
