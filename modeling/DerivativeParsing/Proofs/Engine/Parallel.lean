import DerivativeParsing.Engine.Run
import DerivativeParsing.Proofs.Engine.Action

namespace DerivativeParsing

/-!
# Runs side by side

What an engine answers and builds does not depend on its journal.  Two actions are
parallel if, started in engines that differ in their journals at most, they end in such
engines and with the same result.

There is one rule for every action that others are made of, and from them it follows that
queries, derivation and compaction are parallel to themselves.  Without collections a
parse is also parallel to one that counts its tokens from another number
(`parallel_parseFrom`).
-/

open Fixpoint

namespace Engine

variable {Λ : Lexicon} {α β : Type} {configuration : Configuration}

/-- Another engine differs at most in its journal from one that is configured in this
way. -/
def Mirrors (configuration : Configuration) (engine mirror : Engine Λ) : Prop :=
  engine.configuration = configuration ∧ ∃ journal, mirror = { engine with journal := journal }

/-- Two actions have ended in the same way, in engines that differ in their journals at
most. -/
def SameEnd (configuration : Configuration) :
    EStateM.Result (Fault Handle) (Engine Λ) α →
      EStateM.Result (Fault Handle) (Engine Λ) α → Prop
  | .ok result after, .ok result' after' =>
      result' = result ∧ Mirrors configuration after after'
  | .error fault after, .error fault' after' =>
      fault' = fault ∧ Mirrors configuration after after'
  | _, _ => False

/-- Two actions end in the same way if they start in engines that differ in their journals
at most. -/
def Parallel (configuration : Configuration) (action action' : Action Λ α) : Prop :=
  ∀ engine mirror, Mirrors configuration engine mirror →
    SameEnd configuration (action.run engine) (action'.run mirror)

/-- If both of two parallel actions succeed, their results are the same. -/
theorem Parallel.result_eq {action action' : Action Λ α} {engine mirror after after' : Engine Λ}
    {result result' : α} (hParallel : Parallel configuration action action')
    (hMirrors : Mirrors configuration engine mirror)
    (hRun : action.run engine = .ok result after)
    (hRun' : action'.run mirror = .ok result' after') : result' = result := by
  have hEnd := hParallel engine mirror hMirrors
  rw [hRun, hRun'] at hEnd
  exact hEnd.1

section Rules

theorem parallel_pure (result : α) :
    Parallel configuration (pure result : Action Λ α) (pure result) :=
  fun _ _ hMirrors => ⟨rfl, hMirrors⟩

theorem parallel_throw (fault : Fault Handle) :
    Parallel configuration (throw fault : Action Λ α) (throw fault) :=
  fun _ _ hMirrors => ⟨rfl, hMirrors⟩

theorem Parallel.bind {action action' : Action Λ α} {next next' : α → Action Λ β}
    (hAction : Parallel configuration action action')
    (hNext : ∀ result, Parallel configuration (next result) (next' result)) :
    Parallel configuration (action >>= next) (action' >>= next') := by
  intro engine mirror hMirrors
  have hEnd := hAction engine mirror hMirrors
  rw [EStateM.run_bind, EStateM.run_bind]
  cases hRun : action.run engine <;> cases hRun' : action'.run mirror <;>
    rw [hRun, hRun'] at hEnd
  · obtain ⟨rfl, hAfter⟩ := hEnd
    exact hNext _ _ _ hAfter
  · exact hEnd.elim
  · exact hEnd.elim
  · exact hEnd

/-- What is done with the engine may not depend on its journal. -/
theorem parallel_get {next next' : Engine Λ → Action Λ α}
    (hNext : ∀ engine journal, engine.configuration = configuration →
      Parallel configuration (next engine) (next' { engine with journal := journal })) :
    Parallel configuration (get >>= next) (get >>= next') := by
  rintro engine _ ⟨hConfiguration, journal, rfl⟩
  exact hNext engine journal hConfiguration engine _ ⟨hConfiguration, journal, rfl⟩

/-- Different events may be reported. -/
theorem parallel_report (event event' : Event Λ) :
    Parallel configuration (report event) (report event') := by
  rintro engine _ ⟨hConfiguration, journal, rfl⟩
  exact ⟨rfl, hConfiguration, _, rfl⟩

theorem parallel_build (change : Grammar Λ → α × Grammar Λ) :
    Parallel configuration (build change) (build change) := by
  rintro engine _ ⟨hConfiguration, journal, rfl⟩
  exact ⟨rfl, hConfiguration, journal, rfl⟩

theorem parallel_remember (change : Tables Λ → α × Tables Λ) :
    Parallel configuration (remember change) (remember change) := by
  rintro engine _ ⟨hConfiguration, journal, rfl⟩
  exact ⟨rfl, hConfiguration, journal, rfl⟩

theorem parallel_node (handle : Handle) :
    Parallel configuration (node handle : Action Λ (Node Λ)) (node handle) := by
  unfold node
  refine parallel_get fun engine journal _ => ?_
  dsimp only
  cases engine.grammar.get? handle with
  | some node => exact parallel_pure node
  | none => exact parallel_throw _

/-- A system of equations is solved in the same way if it does not depend on the journal. -/
theorem parallel_solve {ν : Type} [DecidableEq ν] {system : Engine Λ → System Handle ν}
    {budget : Engine Λ → Budget}
    (hSystem : ∀ engine journal, system { engine with journal := journal } = system engine)
    (hBudget : ∀ engine journal, budget { engine with journal := journal } = budget engine)
    (limit : PassLimit) (root : Handle) :
    Parallel configuration (solve system budget limit root)
      (solve system budget limit root) := by
  have hReported (notes : List (Note Handle)) :
      Parallel configuration
        (modify fun engine : Engine Λ =>
          { engine with journal := notes.map Event.solved ++ engine.journal })
        (modify fun engine : Engine Λ =>
          { engine with journal := notes.map Event.solved ++ engine.journal }) := by
    rintro engine _ ⟨hConfiguration, journal, rfl⟩
    exact ⟨rfl, hConfiguration, _, rfl⟩
  unfold solve
  refine parallel_get fun engine journal _ => ?_
  rw [hSystem engine journal, hBudget engine journal]
  generalize (system engine).solve (budget engine) limit root = found
  obtain ⟨outcome, notes⟩ := found
  refine (hReported notes).bind fun _ => ?_
  cases outcome with
  | ok solution => exact parallel_pure solution
  | error fault => exact parallel_throw fault

/-- What is remembered is the result, and what is not is computed. -/
theorem parallel_recalled {change : Tables Λ → Option α × Tables Λ}
    {next : Option α → Action Λ α} (hFound : ∀ result, next (some result) = pure result)
    (hNone : Parallel configuration (next none) (next none)) :
    Parallel configuration (remember change >>= next) (remember change >>= next) := by
  refine (parallel_remember change).bind fun found => ?_
  cases found with
  | some result =>
      rw [hFound]
      exact parallel_pure result
  | none => exact hNone

end Rules

section Queries

variable (handle : Handle)

theorem parallel_isNullable :
    Parallel configuration (isNullable handle : Action Λ Bool) (isNullable handle) := by
  refine parallel_recalled (fun _ => rfl) ?_
  refine (parallel_solve (fun _ _ => rfl) (fun _ _ => rfl) _ _).bind fun solution => ?_
  exact (parallel_remember _).bind fun _ => parallel_pure _

theorem parallel_isInhabited :
    Parallel configuration (isInhabited handle : Action Λ Bool) (isInhabited handle) := by
  refine parallel_recalled (fun _ => rfl) ?_
  refine (parallel_solve (fun _ _ => rfl) (fun _ _ => rfl) _ _).bind fun solution => ?_
  exact (parallel_remember _).bind fun _ => parallel_pure _

theorem parallel_isEmpty :
    Parallel configuration (isEmpty handle : Action Λ Bool) (isEmpty handle) :=
  (parallel_isInhabited handle).bind fun _ => parallel_pure _

theorem parallel_isConsuming :
    Parallel configuration (isConsuming handle : Action Λ Bool) (isConsuming handle) := by
  refine parallel_recalled (fun _ => rfl) ((parallel_isInhabited handle).bind fun _ => ?_)
  refine (parallel_solve (fun _ _ => rfl) (fun _ _ => rfl) _ _).bind fun solution => ?_
  exact (parallel_remember _).bind fun _ => parallel_pure _

theorem parallel_isNullOnly :
    Parallel configuration (isNullOnly handle : Action Λ Bool) (isNullOnly handle) := by
  refine (parallel_isNullable handle).bind fun nullable => ?_
  cases nullable with
  | true => exact (parallel_isConsuming handle).bind fun _ => parallel_pure _
  | false => exact parallel_pure false

theorem parallel_forestOf :
    Parallel configuration (forestOf handle : Action Λ (Forest Λ.Token))
      (forestOf handle) := by
  have hSolve : Parallel configuration (solveForest handle : Action Λ _) (solveForest handle) :=
    parallel_get fun _ _ _ => parallel_solve (fun _ _ => rfl) (fun _ _ => rfl) _ _
  refine parallel_recalled (fun _ => rfl) ?_
  refine hSolve.bind fun solution => ?_
  cases solution.converged with
  | true => exact (parallel_remember _).bind fun _ => parallel_pure _
  | false => exact parallel_pure _

end Queries

section Tasks

theorem parallel_alloc (node : Node Λ) :
    Parallel configuration (alloc node) (alloc node) :=
  parallel_build _

theorem parallel_epsCarrying (trees : Forest Λ.Token) :
    Parallel configuration (epsCarrying trees) (epsCarrying trees) := by
  unfold epsCarrying
  split
  · exact parallel_pure _
  · exact parallel_alloc _

theorem parallel_fusedReduction (inner : Handle) (reducer : Reducer Λ) :
    Parallel configuration (fusedReduction inner reducer) (fusedReduction inner reducer) := by
  refine (parallel_node inner).bind fun node => ?_
  split
  · exact parallel_alloc _
  · exact parallel_alloc _

variable {serve : Handle → Action Λ Handle}
  (hServe : ∀ handle, Parallel configuration (serve handle) (serve handle))

include hServe

/-- A node is built out of what two others lead to. -/
theorem parallel_both (first second : Handle) (combine : Handle → Handle → Node Λ) :
    Parallel configuration
      (do
        let left ← serve first
        let right ← serve second
        alloc (combine left right))
      (do
        let left ← serve first
        let right ← serve second
        alloc (combine left right)) :=
  (hServe first).bind fun _ => (hServe second).bind fun _ => parallel_alloc _

/-- A placeholder is remembered while the target of a delegate is taken care of. -/
theorem parallel_delegate (note : Handle → Action Λ Unit)
    (hNote : ∀ handle, Parallel configuration (note handle) (note handle)) (target : Handle) :
    Parallel configuration
      (do
        let placeholder ← build Grammar.placeholder
        note placeholder.handle
        let result ← serve target
        build fun grammar => ((), grammar.fill placeholder result)
        return result)
      (do
        let placeholder ← build Grammar.placeholder
        note placeholder.handle
        let result ← serve target
        build fun grammar => ((), grammar.fill placeholder result)
        return result) := by
  refine (parallel_build _).bind fun placeholder => (hNote _).bind fun _ => ?_
  refine (hServe target).bind fun result => (parallel_build _).bind fun _ => ?_
  exact parallel_pure result

theorem parallel_deriveParts (handle : Handle) (token : Λ.Token) (node : Node Λ) :
    Parallel configuration (plain.deriveParts serve handle token node)
      (plain.deriveParts serve handle token node) := by
  cases node with
  | empty => exact parallel_pure _
  | eps forest => exact parallel_pure _
  | token matcher =>
      rw [Manner.deriveParts]
      split
      · exact parallel_alloc _
      · exact parallel_pure _
  | union left right => exact parallel_both hServe left right .union
  | sequence first second =>
      refine (hServe first).bind fun firstDerived => (parallel_alloc _).bind fun inFirst => ?_
      refine (parallel_isNullable first).bind fun nullable => ?_
      cases nullable with
      | false => exact parallel_pure inFirst
      | true =>
          refine (parallel_forestOf first).bind fun trees => ?_
          refine (parallel_epsCarrying trees).bind fun kept => ?_
          refine (hServe second).bind fun secondDerived => ?_
          exact (parallel_alloc _).bind fun inSecond => parallel_alloc _
  | repetition inner =>
      refine (hServe inner).bind fun innerDerived => ?_
      exact (parallel_alloc _).bind fun iteration => parallel_alloc _
  | reduction inner reducer => exact (hServe inner).bind fun innerDerived => parallel_alloc _
  | delegate target =>
      cases target with
      | none => exact parallel_pure _
      | some target =>
          exact parallel_delegate hServe (rememberDerivative ⟨handle, token⟩)
            (fun _ => parallel_remember _) target

theorem parallel_compactParts (handle : Handle) (node : Node Λ) :
    Parallel configuration (plain.compactParts serve handle node)
      (plain.compactParts serve handle node) := by
  cases node with
  | empty => exact parallel_pure _
  | eps forest => exact parallel_pure _
  | token matcher => exact parallel_pure _
  | union left right =>
      refine (parallel_isEmpty left).bind fun leftEmpty => ?_
      cases leftEmpty with
      | true => exact hServe right
      | false =>
          refine (parallel_isEmpty right).bind fun rightEmpty => ?_
          cases rightEmpty with
          | true => exact hServe left
          | false => exact parallel_both hServe left right .union
  | sequence first second =>
      refine (parallel_isNullOnly first).bind fun firstNull => ?_
      cases firstNull with
      | true =>
          refine (parallel_forestOf first).bind fun trees => ?_
          exact (hServe second).bind fun _ => parallel_fusedReduction _ _
      | false =>
          refine (parallel_isNullOnly second).bind fun secondNull => ?_
          cases secondNull with
          | true =>
              refine (parallel_forestOf second).bind fun trees => ?_
              exact (hServe first).bind fun _ => parallel_fusedReduction _ _
          | false => exact parallel_both hServe first second .sequence
  | repetition inner =>
      refine (parallel_isEmpty inner).bind fun innerEmpty => ?_
      cases innerEmpty with
      | true => exact parallel_alloc _
      | false => exact (hServe inner).bind fun _ => parallel_alloc _
  | reduction inner reducer =>
      exact (hServe inner).bind fun _ => parallel_fusedReduction _ _
  | delegate target =>
      cases target with
      | none => exact parallel_pure _
      | some target =>
          exact parallel_delegate hServe (rememberCompaction handle)
            (fun _ => parallel_remember _) target

theorem parallel_compactNode (handle : Handle) (node : Node Λ) :
    Parallel configuration (plain.compactNode serve handle node)
      (plain.compactNode serve handle node) := by
  unfold Manner.compactNode
  split
  · exact parallel_pure _
  · exact parallel_pure _
  · exact parallel_pure _
  · refine (parallel_isEmpty handle).bind fun isEmpty => ?_
    cases isEmpty with
    | true => exact parallel_pure _
    | false =>
        refine (parallel_isNullOnly handle).bind fun isNullOnly => ?_
        cases isNullOnly with
        | true => exact (parallel_forestOf handle).bind fun _ => parallel_epsCarrying _
        | false => exact parallel_compactParts hServe handle node

omit hServe

theorem parallel_deriveWithin (token : Λ.Token) (fuel : Nat) (handle : Handle) :
    Parallel configuration (plain.deriveWithin token fuel handle)
      (plain.deriveWithin token fuel handle) := by
  induction fuel generalizing handle with
  | zero => exact parallel_throw _
  | succ fuel ih =>
      simp only [Manner.deriveWithin, liftM_self]
      refine parallel_recalled (fun _ => rfl) ?_
      refine (parallel_node handle).bind fun node => ?_
      refine (parallel_deriveParts ih handle token node).bind fun derivative => ?_
      exact (parallel_remember _).bind fun _ => parallel_pure derivative

theorem parallel_compactWithin (fuel : Nat) (handle : Handle) :
    Parallel configuration (plain.compactWithin fuel handle : Action Λ Handle)
      (plain.compactWithin fuel handle) := by
  induction fuel generalizing handle with
  | zero => exact parallel_throw _
  | succ fuel ih =>
      simp only [Manner.compactWithin, liftM_self]
      refine parallel_recalled (fun _ => rfl) ?_
      refine (parallel_node handle).bind fun node => ?_
      refine (parallel_compactNode ih handle node).bind fun compacted => ?_
      exact (parallel_remember _).bind fun _ => parallel_pure compacted

end Tasks

section Runs

variable (node : Handle)

theorem parallel_advance (token : Λ.Token) :
    Parallel configuration (plain.advance node token) (plain.advance node token) := by
  have hDerive : Parallel configuration (derive node token) (derive node token) :=
    parallel_get fun _ _ _ => parallel_deriveWithin _ _ _
  refine hDerive.bind fun derived => parallel_get fun engine journal _ => ?_
  dsimp only
  split
  · exact parallel_get fun _ _ _ => parallel_compactWithin _ _
  · exact parallel_pure derived

variable (hInterval : configuration.collectInterval = 0)

include hInterval

/-- Without collections a step does not depend on how many tokens were consumed before. -/
theorem parallel_parseStep (consumed consumed' : Nat) (token : Λ.Token) :
    Parallel configuration (plain.parseStep consumed node token)
      (plain.parseStep consumed' node token) := by
  have hCollect (steps steps' : Nat) (node : Handle) :
      Parallel configuration (collectAfter steps node : Action Λ Unit)
        (collectAfter steps' node) := by
    refine parallel_get fun engine journal hConfiguration => ?_
    dsimp only
    rw [hConfiguration, hInterval]
    exact parallel_pure ()
  refine (parallel_advance node token).bind fun next => parallel_get fun engine journal _ => ?_
  exact (parallel_report _ _).bind fun _ => (hCollect _ _ next).bind fun _ => parallel_pure next

/-- Without collections a parse does not depend on how many tokens were consumed before. -/
theorem parallel_parseFrom (tokens : List Λ.Token) (consumed consumed' : Nat) :
    Parallel configuration (plain.parseFrom none none tokens consumed node)
      (plain.parseFrom none none tokens consumed' node) := by
  induction tokens generalizing node consumed consumed' with
  | nil => exact (parallel_forestOf node).bind fun _ => parallel_pure _
  | cons token tokens ih =>
      exact (parallel_parseStep node hInterval consumed consumed' token).bind fun next =>
        ih next (consumed + 1) (consumed' + 1)

end Runs

end Engine

end DerivativeParsing
