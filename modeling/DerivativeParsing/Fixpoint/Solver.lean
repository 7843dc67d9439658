import Std.Data.TreeMap
import Std.Data.TreeSet
import DerivativeParsing.Fixpoint.Inquiry

namespace DerivativeParsing

/-!
# Least fixed points by repeated passes

A system gives one equation per key.  The equations may refer to each other in
cycles, so they are solved by passes over the keys that a root depends on:

* within a pass every key is evaluated at most once;
* a key that is asked for again within the same pass answers with its current
  approximation, or with the bottom value if it has none yet;
* another pass is run as long as an approximation moved.

Keys whose values are known from elsewhere are used as constants.  The passes may
be limited; a solution says whether it was reached or cut short.

Two bounds make the solver total: how deep the evaluation of keys may nest, and
how many passes may be run.  A caller that knows how many keys there are can give
bounds that are never met, and a solver that meets one fails as `exhausted`.
-/

namespace Fixpoint

/-- One equation per key, with the values to start from and the values known. -/
structure System (κ ν : Type) where
  /-- The first approximation of every key. -/
  bottom : ν
  /-- The value of a key that is established already. -/
  known : κ → Option ν
  /-- The right-hand side of a key's equation. -/
  equation : κ → Inquiry κ ν ν

/-- When a solver stops although values still move. -/
inductive PassLimit where
  /-- Never. -/
  | unbounded
  /-- After this many passes. -/
  | fixed (passes : Nat)
  /-- After this many passes, or after two more than the number of keys evaluated
  so far, whichever is later. -/
  | scaled (floor : Nat)
deriving DecidableEq

namespace PassLimit

/-- The limit of exactly `passes` passes, of which there is at least one. -/
def ofPasses (passes : Nat) : PassLimit := fixed (max passes 1)

/-- The limit that grows with the number of keys, from a floor of at least one. -/
def ofFloor (floor : Nat) : PassLimit := scaled (max floor 1)

/-- Whether the limit is reached after `passes` passes with `evaluated` keys. -/
def isReached (limit : PassLimit) (passes evaluated : Nat) : Bool :=
  match limit with
  | unbounded => false
  | fixed most => most ≤ passes
  | scaled floor => max floor (evaluated + 2) ≤ passes

end PassLimit

/-- Bounds on the work of a solver. -/
structure Budget where
  /-- How deep the evaluation of keys may nest. -/
  depth : Nat
  /-- How many passes may be run. -/
  passes : Nat

/-- The state of a solver. -/
structure Progress (κ ν : Type) [Ord κ] where
  /-- The current approximation of every key evaluated so far. -/
  approximations : Std.TreeMap κ ν := ∅
  /-- The keys evaluated during the current pass. -/
  visited : Std.TreeSet κ := ∅
  /-- Whether an approximation moved during the current pass. -/
  changed : Bool := false
  /-- What was reported so far, the latest first. -/
  notes : List (Note κ) := []

/-- The outcome of a query. -/
structure Solution (κ ν : Type) where
  /-- The value of the root. -/
  value : ν
  /-- The values of the keys evaluated during the last pass, by ascending key. -/
  values : List (κ × ν)
  /-- The number of passes run. -/
  passes : Nat
  /-- Whether no value moved during the last pass. -/
  converged : Bool

/-- A step of a solver: it may fail, and it keeps its progress even then. -/
abbrev Solving (κ ν : Type) [Ord κ] := EStateM (Fault κ) (Progress κ ν)

namespace Inquiry

variable {κ ν α : Type} [Ord κ]

/-- Carry out an inquiry, with `reply` answering what it asks. -/
def run (reply : κ → Solving κ ν ν) : Inquiry κ ν α → Solving κ ν α
  | answer result => pure result
  | fail fault => throw fault
  | remark notes rest => do
      modify fun progress => { progress with notes := notes ++ progress.notes }
      rest.run reply
  | ask key next => do
      let value ← reply key
      (next value).run reply

end Inquiry

namespace System

variable {κ ν : Type} [Ord κ] [DecidableEq ν]

/-- The current approximation of a key. -/
def current (system : System κ ν) (progress : Progress κ ν) (key : κ) : ν :=
  (progress.approximations[key]?).getD system.bottom

/-- Note the value of a key that was just evaluated. -/
def settle (key : κ) (previous next : ν) : Solving κ ν ν := do
  modify fun progress =>
    { progress with
      changed := progress.changed || !decide (next = previous)
      approximations := progress.approximations.insert key next }
  return next

/-- The value of a key within the current pass, evaluated at most `depth` keys
deep. -/
def valueWithin (system : System κ ν) : (depth : Nat) → κ → Solving κ ν ν
  | 0, _ => throw .exhausted
  | depth + 1, key =>
      match system.known key with
      | some value => return value
      | none => do
          let progress ← get
          if progress.visited.contains key then
            return system.current progress key
          else
            let previous := system.current progress key
            modify fun progress =>
              { progress with visited := progress.visited.insert key }
            let next ← (system.equation key).run (system.valueWithin depth)
            settle key previous next

/-- Run one pass from a root and report it. -/
def pass (system : System κ ν) (depth : Nat) (root : κ) (number : Nat) :
    Solving κ ν ν := do
  modify fun progress => { progress with changed := false, visited := ∅ }
  let value ← system.valueWithin depth root
  modify fun progress =>
    { progress with
      notes := .pass root number progress.changed progress.visited.size ::
        progress.notes }
  return value

/-- The keys of the last pass with their values. -/
def harvest (progress : Progress κ ν) : List (κ × ν) :=
  progress.visited.toList.filterMap fun key =>
    (progress.approximations[key]?).map fun value => (key, value)

/-- Run passes until no value moves or the limit is reached, at most `fuel` of
them, the first of them with the given number. -/
def passesFrom (system : System κ ν) (depth : Nat) (limit : PassLimit) (root : κ) :
    (fuel : Nat) → (number : Nat) → Solving κ ν (Solution κ ν)
  | 0, _ => throw .exhausted
  | fuel + 1, number => do
      let value ← system.pass depth root number
      let progress ← get
      if progress.changed then
        if limit.isReached number progress.approximations.size then
          modify fun progress =>
            { progress with notes := .abandoned root number :: progress.notes }
          return ⟨value, harvest progress, number, false⟩
        else
          system.passesFrom depth limit root fuel (number + 1)
      else
        return ⟨value, harvest progress, number, true⟩

/-- Solve the equations from a root.  The notes, the latest first, come with the
outcome. -/
def solve (system : System κ ν) (budget : Budget) (limit : PassLimit) (root : κ) :
    Except (Fault κ) (Solution κ ν) × List (Note κ) :=
  match (system.passesFrom budget.depth limit root budget.passes 1).run {} with
  | .ok solution progress => (.ok solution, progress.notes)
  | .error fault progress => (.error fault, progress.notes)

/-- The value of a root when passes are not limited. -/
def leastFixedPoint (system : System κ ν) (budget : Budget) (root : κ) :
    Except (Fault κ) ν × List (Note κ) :=
  let (outcome, notes) := system.solve budget .unbounded root
  (outcome.map Solution.value, notes)

end System

end Fixpoint

end DerivativeParsing
