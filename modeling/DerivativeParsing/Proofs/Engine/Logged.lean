import DerivativeParsing.Engine.Run
import DerivativeParsing.Proofs.Engine.Underway

namespace DerivativeParsing

/-!
# Runs with a log

In a manner that keeps a log an engine does what it does plainly, and notes something of it.
What is noted, and what the notes tell of the engine, is left open: a chronicle says how the
entries of a log go with a change of the engine (`Chronicle`).  A logged action follows a
plain one if both end in the same way, and the entries go with the change (`Follows`).

A manner records a task in a chronicle if the little that a task does goes with its entries:
building a node, remembering a result, solving for a forest, and opening a placeholder for a
delegate (`Manner.Records`).  Then derivation and compaction in this manner follow the plain
ones (`Manner.Records.follows_derive`, `Manner.Records.follows_compact`).
-/

open Fixpoint

namespace Engine

/-- An action that keeps a log, the latest entry first. -/
abbrev Logged (ε : Type) (Λ : Lexicon) := StateT (List ε) (Action Λ)

/-- Make an entry. -/
def log {ε : Type} {Λ : Lexicon} (entry : ε) : Logged ε Λ Unit :=
  modify fun entries => entry :: entries

variable {Λ : Lexicon} {ε α β : Type} {task : Task Λ} {engine before middle after : Engine Λ}
  {node handle : Handle}

/-- A change that no task takes notice of: nodes and results stay as they are, and no query
is stopped. -/
structure Idle (before after : Engine Λ) : Prop where
  grammar : after.grammar = before.grammar
  configuration : after.configuration = before.configuration
  remembered : ∀ (task : Task Λ) node,
    task.remembered after.tables node = task.remembered before.tables node
  stopped : after.stopped = before.stopped

theorem Idle.refl (engine : Engine Λ) : Idle engine engine :=
  ⟨rfl, rfl, fun _ _ => rfl, rfl⟩

theorem Idle.trans (hFirst : Idle before middle) (hSecond : Idle middle after) :
    Idle before after where
  grammar := hSecond.grammar.trans hFirst.grammar
  configuration := hSecond.configuration.trans hFirst.configuration
  remembered task node :=
    (hSecond.remembered task node).trans (hFirst.remembered task node)
  stopped := hSecond.stopped.trans hFirst.stopped

/-- Which entries go with which changes: none with a change that no task takes notice of,
and with one change after another the entries of both. -/
structure Chronicle (ε : Type) (Λ : Lexicon) where
  tells : Engine Λ → List ε → Engine Λ → Prop
  idle : ∀ {before after}, Idle before after → tells before [] after
  trans : ∀ {before middle after entries later}, tells before entries middle →
    tells middle later after → tells before (later ++ entries) after

variable {chronicle : Chronicle ε Λ}

section Rules

/-- A plain and a logged run that began with the given log have ended in the same way, and
the new entries go with the change. -/
def Accords (chronicle : Chronicle ε Λ) (engine : Engine Λ) (log : List ε) :
    EStateM.Result (Fault Handle) (Engine Λ) α →
      EStateM.Result (Fault Handle) (Engine Λ) (α × List ε) → Prop
  | .ok result after, found => ∃ entries,
      found = .ok (result, entries ++ log) after ∧ chronicle.tells engine entries after
  | .error fault after, found => found = .error fault after

/-- A logged action does what the plain one does. -/
def Follows (chronicle : Chronicle ε Λ) (engine : Engine Λ) (logged : Logged ε Λ α)
    (action : Action Λ α) : Prop :=
  ∀ log, Accords chronicle engine log (action.run engine) ((logged.run log).run engine)

/-- The logged run of a plain run that has succeeded. -/
theorem Follows.exists_entries {logged : Logged ε Λ α} {action : Action Λ α} {result : α}
    (hFollows : Follows chronicle engine logged action)
    (hRun : action.run engine = .ok result after) (log : List ε) :
    ∃ entries, (logged.run log).run engine = .ok (result, entries ++ log) after ∧
      chronicle.tells engine entries after := by
  have hAccords := hFollows log
  rw [hRun] at hAccords
  exact hAccords

/-- A logged run that succeeds does what the plain one does. -/
theorem Follows.of_run {logged : Logged ε Λ α} {action : Action Λ α} {result : α}
    {entries entries' : List ε}
    (hFollows : Follows chronicle engine logged action)
    (hRun : (logged.run entries).run engine = .ok (result, entries') after) :
    action.run engine = .ok result after ∧
      ∃ new, entries' = new ++ entries ∧ chronicle.tells engine new after := by
  have hAccords := hFollows entries
  rw [hRun] at hAccords
  cases hPlain : action.run engine with
  | ok result' after' =>
      rw [hPlain] at hAccords
      obtain ⟨new, hSame, hTells⟩ := hAccords
      cases hSame
      exact ⟨rfl, new, rfl, hTells⟩
  | error fault after' =>
      rw [hPlain] at hAccords
      cases hAccords

theorem follows_pure (result : α) :
    Follows chronicle engine (pure result) (pure result) :=
  fun _ => ⟨[], rfl, chronicle.idle (.refl engine)⟩

theorem follows_throw (fault : Fault Handle) :
    Follows chronicle engine (liftM (throw fault : Action Λ α)) (throw fault) :=
  fun _ => rfl

theorem follows_ite {condition : Prop} [Decidable condition] {first second : Logged ε Λ α}
    {first' second' : Action Λ α} (hFirst : Follows chronicle engine first first')
    (hSecond : Follows chronicle engine second second') :
    Follows chronicle engine (if condition then first else second)
      (if condition then first' else second') := by
  split
  · exact hFirst
  · exact hSecond

/-- An action that makes no entry. -/
theorem follows_lift {action : Action Λ α}
    (hTells : ∀ result after, action.run engine = .ok result after →
      chronicle.tells engine [] after) :
    Follows chronicle engine (liftM action) action := by
  intro log
  change Accords chronicle engine log (action.run engine)
    ((action >>= fun result => pure (result, log)).run engine)
  rw [EStateM.run_bind]
  cases hRun : action.run engine with
  | ok result after => exact ⟨[], rfl, hTells result after hRun⟩
  | error fault after => rfl

/-- A change of the engine that goes without an entry. -/
theorem follows_modifyGet {change : Engine Λ → α × Engine Λ}
    (hTells : chronicle.tells engine [] (change engine).2) :
    Follows chronicle engine (liftM (modifyGet change : Action Λ α)) (modifyGet change) := by
  refine follows_lift fun result after hRun => ?_
  cases hRun
  exact hTells

theorem Follows.bind {logged : Logged ε Λ α} {action : Action Λ α} {next : α → Logged ε Λ β}
    {next' : α → Action Λ β} (hFirst : Follows chronicle engine logged action)
    (hNext : ∀ result after, action.run engine = .ok result after →
      Follows chronicle after (next result) (next' result)) :
    Follows chronicle engine (logged >>= next) (action >>= next') := by
  intro log
  change Accords chronicle engine log ((action >>= next').run engine)
    ((logged.run log >>= fun found => (next found.1).run found.2).run engine)
  have hLogged := hFirst log
  rw [EStateM.run_bind, EStateM.run_bind]
  cases hRun : action.run engine with
  | error fault after =>
      rw [hRun] at hLogged
      rw [show (logged.run log).run engine = .error fault after from hLogged]
      rfl
  | ok result middle =>
      rw [hRun] at hLogged
      obtain ⟨entries, hLogged, hTells⟩ := hLogged
      rw [hLogged]
      have hRest := hNext result middle hRun (entries ++ log)
      dsimp only
      cases hRun' : (next' result).run middle with
      | error fault after =>
          rw [hRun'] at hRest
          exact hRest
      | ok result' after =>
          rw [hRun'] at hRest
          obtain ⟨later, hLater, hTells'⟩ := hRest
          refine ⟨later ++ entries, ?_, chronicle.trans hTells hTells'⟩
          rw [List.append_assoc]
          exact hLater

theorem liftM_bind (action : Action Λ α) (next : α → Action Λ β) :
    (liftM (action >>= next) : Logged ε Λ β) =
      liftM action >>= fun result => liftM (next result) := by
  funext log engine
  have hLeft : (liftM (action >>= next) : Logged ε Λ β) log engine =
      ((action >>= next) >>= fun result => pure (result, log)).run engine := rfl
  have hRight : (liftM action >>= fun result => liftM (next result) : Logged ε Λ β) log engine =
      ((action >>= fun result => pure (result, log)) >>= fun found =>
        next found.1 >>= fun result => pure (result, found.2)).run engine := rfl
  rw [hLeft, hRight]
  simp only [EStateM.run_bind]
  cases action.run engine <;> rfl

/-- An action that no task takes notice of, whenever it succeeds. -/
def Idles (action : Action Λ α) : Prop :=
  ∀ engine result after, action.run engine = .ok result after → Idle engine after

theorem Idles.follows_lift {action : Action Λ α} (hIdles : Idles action) :
    Follows chronicle engine (liftM action) action :=
  Engine.follows_lift fun result after hRun =>
    chronicle.idle (hIdles engine result after hRun)

/-- What follows an action that no task takes notice of. -/
theorem Idles.follows {action : Action Λ α} {next : α → Logged ε Λ β} {next' : α → Action Λ β}
    (hIdles : Idles action)
    (hNext : ∀ result after, Idle engine after →
      Follows chronicle after (next result) (next' result)) :
    Follows chronicle engine (liftM action >>= next) (action >>= next') :=
  hIdles.follows_lift.bind fun result after hRun =>
    hNext result after (hIdles engine result after hRun)

end Rules

section Idling

theorem idles_pure (result : α) : Idles (pure result : Action Λ α) := by
  intro engine result after hRun
  cases hRun
  exact .refl engine

theorem idles_get : Idles (get : Action Λ (Engine Λ)) := by
  intro engine result after hRun
  cases hRun
  exact .refl engine

theorem Idles.bind {action : Action Λ α} {next : α → Action Λ β} (hFirst : Idles action)
    (hNext : ∀ result, Idles (next result)) : Idles (action >>= next) := by
  intro engine result after hRun
  obtain ⟨value, middle, hAction, hRest⟩ := Fixpoint.run_bind_eq_ok_iff.mp hRun
  exact (hFirst engine value middle hAction).trans (hNext value middle result after hRest)

theorem idles_remember {change : Tables Λ → α × Tables Λ}
    (hSame : ∀ (task : Task Λ) tables node,
      task.remembered (change tables).2 node = task.remembered tables node) :
    Idles (remember change) := by
  intro engine result after hRun
  cases hRun
  exact ⟨rfl, rfl, fun task node => hSame task engine.tables node, rfl⟩

/-- A query without a limit is not stopped. -/
theorem idles_solve {ν : Type} [DecidableEq ν] {system : Engine Λ → System Handle ν}
    (hQuiet : ∀ engine, (system engine).Quiet) (budget : Engine Λ → Budget) (root : Handle) :
    Idles (solve system budget .unbounded root) := by
  intro engine solution after hRun
  obtain ⟨notes, hSolve, rfl⟩ := run_solve_eq_ok hRun
  refine ⟨rfl, rfl, fun _ _ => rfl, ?_⟩
  have hStops := System.stops_solve_unbounded (hQuiet engine) (budget engine) root
  rw [hSolve] at hStops
  rw [stopped_solved, hStops, List.nil_append]

/-- A query looks its answer up, or finds it and remembers it. -/
theorem idles_recalled {change : Tables Λ → Option α × Tables Λ} {next : Option α → Action Λ α}
    (hSame : ∀ (task : Task Λ) tables node,
      task.remembered (change tables).2 node = task.remembered tables node)
    (hFound : ∀ result, next (some result) = pure result) (hNone : Idles (next none)) :
    Idles (remember change >>= next) := by
  refine (idles_remember hSame).bind fun found => ?_
  cases found with
  | some result =>
      rw [hFound]
      exact idles_pure result
  | none => exact hNone

variable (handle : Handle)

theorem idles_isNullable : Idles (isNullable handle : Action Λ Bool) := by
  refine idles_recalled (fun task tables node => by cases task <;> rfl) (fun _ => rfl) ?_
  refine (idles_solve (fun engine => engine.grammar.quiet_nullability _) _ _).bind
    fun solution => ?_
  exact (idles_remember fun task tables node => by cases task <;> rfl).bind fun _ =>
    idles_pure _

theorem idles_isInhabited : Idles (isInhabited handle : Action Λ Bool) := by
  refine idles_recalled (fun task tables node => by cases task <;> rfl) (fun _ => rfl) ?_
  refine (idles_solve (fun engine => engine.grammar.quiet_inhabitation _) _ _).bind
    fun solution => ?_
  exact (idles_remember fun task tables node => by cases task <;> rfl).bind fun _ =>
    idles_pure _

theorem idles_isEmpty : Idles (isEmpty handle : Action Λ Bool) :=
  (idles_isInhabited handle).bind fun _ => idles_pure _

theorem idles_isConsuming : Idles (isConsuming handle : Action Λ Bool) := by
  refine idles_recalled (fun task tables node => by cases task <;> rfl) (fun _ => rfl) ?_
  refine (idles_isInhabited handle).bind fun _ => ?_
  refine (idles_solve (fun engine => engine.grammar.quiet_consumption _ _) _ _).bind
    fun solution => ?_
  exact (idles_remember fun task tables node => by cases task <;> rfl).bind fun _ =>
    idles_pure _

theorem idles_isNullOnly : Idles (isNullOnly handle : Action Λ Bool) := by
  refine (idles_isNullable handle).bind fun nullable => ?_
  cases nullable with
  | true => exact (idles_isConsuming handle).bind fun _ => idles_pure _
  | false => exact idles_pure false

theorem idles_node : Idles (Engine.node handle : Action Λ (Node Λ)) := by
  intro engine found after hRun
  obtain ⟨rfl, -⟩ := run_node_eq_ok hRun
  exact .refl after

theorem idles_rememberedDerivative (step : Step Λ) : Idles (rememberedDerivative step) := by
  refine idles_remember fun task tables node => ?_
  cases task with
  | derive other => exact tables.derive.peek?_lookup step ⟨node, other⟩
  | compact => rfl

theorem idles_rememberedCompaction :
    Idles (rememberedCompaction handle : Action Λ (Option Handle)) := by
  refine idles_remember fun task tables node => ?_
  cases task with
  | derive other => rfl
  | compact => exact tables.compact.peek?_lookup handle node

end Idling

/-- The entries that a manner makes go with what is done for a task. -/
structure Manner.Records (manner : Manner Λ (Logged ε Λ)) (task : Task Λ)
    (chronicle : Chronicle ε Λ) : Prop where
  fallback : manner.fallback = .solving
  solveForest : ∀ engine handle,
    Follows chronicle engine (manner.solveForest handle) (Engine.solveForest handle)
  alloc : ∀ (engine : Engine Λ) found, found ≠ .delegate none → chronicle.tells engine []
    { engine with grammar := (engine.grammar.alloc found .derived).2 }
  note : ∀ (engine : Engine Λ) node result, chronicle.tells engine []
    { engine with tables := task.note engine.tables node result }
  opening : ∀ engine node (logged : Logged ε Λ Handle) (action : Action Λ Handle),
    task.remembered engine.tables node = none →
    (∀ engine, Follows chronicle engine logged action) →
    Follows chronicle engine
      (do
        let placeholder ← manner.openKnot node
        remember (Λ := Λ) fun tables => ((), task.note tables node placeholder.handle)
        let result ← logged
        build (Λ := Λ) fun grammar => ((), grammar.fill placeholder result)
        return result)
      (do
        let placeholder ← build Grammar.placeholder
        remember fun tables => ((), task.note tables node placeholder.handle)
        let result ← action
        build fun grammar => ((), grammar.fill placeholder result)
        return result)

namespace Manner.Records

variable {manner : Manner Λ (Logged ε Λ)}

section Parts

variable (hRecords : manner.Records task chronicle)

include hRecords

theorem follows_alloc {found : Node Λ} (hFound : found ≠ .delegate none) :
    Follows chronicle engine (liftM (Engine.alloc found)) (Engine.alloc found) :=
  follows_modifyGet (hRecords.alloc engine found hFound)

theorem follows_epsCarrying (trees : Forest Λ.Token) :
    Follows chronicle engine (liftM (epsCarrying trees)) (epsCarrying trees) := by
  unfold epsCarrying
  split
  · exact (idles_pure _).follows_lift
  · exact hRecords.follows_alloc (by nofun)

theorem follows_fusedReduction (inner : Handle) (reducer : Reducer Λ) :
    Follows chronicle engine (liftM (fusedReduction inner reducer))
      (fusedReduction inner reducer) := by
  unfold fusedReduction
  rw [liftM_bind]
  refine (idles_node inner).follows fun found after _ => ?_
  cases found <;> exact hRecords.follows_alloc (by nofun)

theorem follows_isNullOnly {next : Bool → Logged ε Λ β} {next' : Bool → Action Λ β}
    (hNext : ∀ result after, Idle engine after →
      Follows chronicle after (next result) (next' result)) :
    Follows chronicle engine (liftM (isNullOnlyOr manner.fallback handle) >>= next)
      (isNullOnly handle >>= next') := by
  rw [hRecords.fallback]
  exact (idles_isNullOnly handle).follows hNext

theorem follows_forestOf (handle : Handle) :
    Follows chronicle engine (manner.forestOf handle) (Engine.forestOf handle) := by
  have hLookup : Idles (remember fun tables : Tables Λ =>
      ((tables.forest.lookup handle).1,
        { tables with forest := (tables.forest.lookup handle).2 })) :=
    idles_remember fun task tables node => by cases task <;> rfl
  refine hLookup.follows fun found middle _ => ?_
  cases found with
  | some trees => exact follows_pure trees
  | none =>
      refine (hRecords.solveForest middle handle).bind fun solution last _ => ?_
      refine follows_ite ?_ (follows_pure _)
      exact (idles_remember fun task tables node => by cases task <;> rfl).follows
        fun _ _ _ => follows_pure _

/-- A result is looked up, or found and remembered. -/
theorem follows_recollected (logged : Node Λ → Logged ε Λ Handle)
    (parts : Node Λ → Action Λ Handle) {lookup : Action Λ (Option Handle)}
    (hIdles : Idles lookup)
    (hLookup : ∀ result after, lookup.run engine = .ok result after →
      result = task.remembered engine.tables node)
    (hParts : ∀ engine found, task.remembered engine.tables node = none →
      Follows chronicle engine (logged found) (parts found)) :
    Follows chronicle engine
      (do
        match ← lookup with
        | some result => return result
        | none => do
            let result ← logged (← Engine.node (Λ := Λ) node)
            remember (Λ := Λ) fun tables => ((), task.note tables node result)
            return result)
      (do
        match ← lookup with
        | some result => return result
        | none => do
            let result ← parts (← Engine.node node)
            remember fun tables => ((), task.note tables node result)
            return result) := by
  refine hIdles.follows_lift.bind fun recalled middle hRun => ?_
  obtain rfl := hLookup recalled middle hRun
  cases hRecalled : task.remembered engine.tables node with
  | some result => exact follows_pure result
  | none =>
      refine (idles_node node).follows fun found after hFound => ?_
      have hNew : task.remembered after.tables node = none := by
        rw [hFound.remembered, (hIdles engine _ middle hRun).remembered, hRecalled]
      refine (hParts after found hNew).bind fun result last _ => ?_
      exact (follows_modifyGet (hRecords.note last node result)).bind fun _ _ _ =>
        follows_pure result

end Parts

variable {token : Λ.Token} {fuel : Nat}

section Derivation

variable (hRecords : manner.Records (.derive token) chronicle)

include hRecords

/-- The parts of a node that is to be derived, if the recursion follows. -/
theorem follows_deriveParts {logged : Handle → Logged ε Λ Handle}
    {derive : Handle → Action Λ Handle}
    (hDerive : ∀ engine child, Follows chronicle engine (logged child) (derive child))
    (hNew : (Task.derive token).remembered engine.tables node = none) (found : Node Λ) :
    Follows chronicle engine (manner.deriveParts logged node token found)
      (plain.deriveParts derive node token found) := by
  match found with
  | .empty => exact follows_pure _
  | .eps _ => exact follows_pure _
  | .delegate none => exact follows_pure _
  | .token matcher =>
      exact follows_ite (hRecords.follows_alloc (by nofun)) (follows_pure _)
  | .union left right =>
      refine (hDerive engine left).bind fun _ middle _ => ?_
      exact (hDerive middle right).bind fun _ _ _ => hRecords.follows_alloc (by nofun)
  | .sequence first second =>
      refine (hDerive engine first).bind fun _ middle _ => ?_
      refine (hRecords.follows_alloc (by nofun)).bind fun _ middle _ => ?_
      refine (idles_isNullable first).follows fun _ middle _ => ?_
      refine follows_ite ?_ (follows_pure _)
      refine (hRecords.follows_forestOf first).bind fun trees middle _ => ?_
      refine (hRecords.follows_epsCarrying trees).bind fun _ middle _ => ?_
      refine (hDerive middle second).bind fun _ middle _ => ?_
      exact (hRecords.follows_alloc (by nofun)).bind fun _ _ _ =>
        hRecords.follows_alloc (by nofun)
  | .repetition inner =>
      refine (hDerive engine inner).bind fun _ middle _ => ?_
      exact (hRecords.follows_alloc (by nofun)).bind fun _ _ _ =>
        hRecords.follows_alloc (by nofun)
  | .reduction inner reducer =>
      exact (hDerive engine inner).bind fun _ _ _ => hRecords.follows_alloc (by nofun)
  | .delegate (some target) =>
      exact hRecords.opening engine node _ _ hNew fun engine => hDerive engine target

theorem follows_deriveWithin (engine : Engine Λ) (handle : Handle) :
    Follows chronicle engine (manner.deriveWithin token fuel handle)
      (plain.deriveWithin token fuel handle) := by
  induction fuel generalizing engine handle with
  | zero => exact follows_throw _
  | succ fuel ih =>
      refine hRecords.follows_recollected (manner.deriveParts _ handle token)
        (plain.deriveParts _ handle token) (idles_rememberedDerivative _)
        (fun result after hRun => ?_) fun middle found hNew =>
          hRecords.follows_deriveParts ih hNew found
      cases hRun
      exact engine.tables.derive.lookup_fst ⟨handle, token⟩

/-- Derivation with a log does what derivation does. -/
theorem follows_derive (engine : Engine Λ) (handle : Handle) :
    Follows chronicle engine (manner.derive handle token) (Engine.derive handle token) :=
  idles_get.follows fun _ _ _ => hRecords.follows_deriveWithin _ _

end Derivation

section Compaction

variable (hRecords : manner.Records .compact chronicle)

include hRecords

/-- The parts of a node that is to be compacted, if the recursion follows. -/
theorem follows_compactParts {logged : Handle → Logged ε Λ Handle}
    {compact : Handle → Action Λ Handle}
    (hCompact : ∀ engine child, Follows chronicle engine (logged child) (compact child))
    (hNew : Task.compact.remembered engine.tables node = none) (found : Node Λ) :
    Follows chronicle engine (manner.compactParts logged node found)
      (plain.compactParts compact node found) := by
  match found with
  | .empty => exact follows_pure _
  | .eps _ => exact follows_pure _
  | .token _ => exact follows_pure _
  | .delegate none => exact follows_pure _
  | .union left right =>
      refine (idles_isEmpty left).follows fun _ middle _ => ?_
      refine follows_ite (hCompact middle right) ?_
      refine (idles_isEmpty right).follows fun _ middle _ => ?_
      refine follows_ite (hCompact middle left) ?_
      refine (hCompact middle left).bind fun _ middle _ => ?_
      exact (hCompact middle right).bind fun _ _ _ => hRecords.follows_alloc (by nofun)
  | .sequence first second =>
      refine hRecords.follows_isNullOnly fun _ middle _ => ?_
      refine follows_ite ?_ ?_
      · refine (hRecords.follows_forestOf first).bind fun _ middle _ => ?_
        exact (hCompact middle second).bind fun _ _ _ =>
          hRecords.follows_fusedReduction _ _
      · refine hRecords.follows_isNullOnly fun _ middle _ => ?_
        refine follows_ite ?_ ?_
        · refine (hRecords.follows_forestOf second).bind fun _ middle _ => ?_
          exact (hCompact middle first).bind fun _ _ _ =>
            hRecords.follows_fusedReduction _ _
        · refine (hCompact middle first).bind fun _ middle _ => ?_
          exact (hCompact middle second).bind fun _ _ _ =>
            hRecords.follows_alloc (by nofun)
  | .repetition inner =>
      refine (idles_isEmpty inner).follows fun _ middle _ => ?_
      refine follows_ite (hRecords.follows_alloc (by nofun)) ?_
      exact (hCompact middle inner).bind fun _ _ _ => hRecords.follows_alloc (by nofun)
  | .reduction inner reducer =>
      exact (hCompact engine inner).bind fun _ _ _ => hRecords.follows_fusedReduction _ _
  | .delegate (some target) =>
      exact hRecords.opening engine node _ _ hNew fun engine => hCompact engine target

/-- What a node is asked before its parts are looked at is no concern of the task. -/
theorem follows_compactNode {logged : Handle → Logged ε Λ Handle}
    {compact : Handle → Action Λ Handle}
    (hCompact : ∀ engine child, Follows chronicle engine (logged child) (compact child))
    (hNew : Task.compact.remembered engine.tables node = none) (found : Node Λ) :
    Follows chronicle engine (manner.compactNode logged node found)
      (plain.compactNode compact node found) := by
  have hAsked : Follows chronicle engine
      (do
        if ← isEmpty (Λ := Λ) node then return Handle.empty
        else if ← isNullOnlyOr manner.fallback node then
          epsCarrying (← manner.forestOf node)
        else manner.compactParts logged node found)
      (do
        if ← isEmpty node then return Handle.empty
        else if ← isNullOnly node then epsCarrying (← Engine.forestOf node)
        else plain.compactParts compact node found) := by
    refine (idles_isEmpty node).follows fun _ middle hMiddle => ?_
    refine follows_ite (follows_pure _) ?_
    refine hRecords.follows_isNullOnly fun _ last hLast => ?_
    refine follows_ite ?_ (hRecords.follows_compactParts hCompact ?_ found)
    · exact (hRecords.follows_forestOf node).bind fun trees _ _ =>
        hRecords.follows_epsCarrying trees
    · rw [hLast.remembered, hMiddle.remembered, hNew]
  match found with
  | .empty => exact follows_pure _
  | .eps _ => exact follows_pure _
  | .token _ => exact follows_pure _
  | .union _ _ => exact hAsked
  | .sequence _ _ => exact hAsked
  | .repetition _ => exact hAsked
  | .reduction _ _ => exact hAsked
  | .delegate _ => exact hAsked

theorem follows_compactWithin (engine : Engine Λ) (handle : Handle) :
    Follows chronicle engine (manner.compactWithin fuel handle)
      (plain.compactWithin fuel handle) := by
  induction fuel generalizing engine handle with
  | zero => exact follows_throw _
  | succ fuel ih =>
      refine hRecords.follows_recollected (manner.compactNode _ handle)
        (plain.compactNode _ handle) (idles_rememberedCompaction handle)
        (fun result after hRun => ?_) fun middle found hNew =>
          hRecords.follows_compactNode ih hNew found
      cases hRun
      exact engine.tables.compact.lookup_fst handle

/-- Compaction with a log does what compaction does. -/
theorem follows_compact (engine : Engine Λ) (handle : Handle) :
    Follows chronicle engine (manner.compact handle) (Engine.compact handle) :=
  idles_get.follows fun _ _ _ => hRecords.follows_compactWithin _ _

end Compaction

end Manner.Records

end Engine

end DerivativeParsing
