import DerivativeParsing.Proofs.Engine.Logged
import DerivativeParsing.Proofs.Engine.Reached

namespace DerivativeParsing

/-!
# The forest queries of an engine

The journal of an engine says which queries were stopped.  To say that this is true of the
queries that were made, there is a manner that notes each forest query, with the engine that
was asked and the solution that was found (`tracing`).

An engine that does the same in this manner ends in the same state, and its journal tells
exactly those queries as stopped whose solution had not converged (`Accounts`).  This holds for
every operation (`follows_call`), so for the whole history of an engine: no query was ever
stopped, according to the journal, exactly if the solutions of all forest queries converged
(`Recorded.untruncated_iff`).
-/

open Fixpoint

namespace Engine

/-- A forest query: the engine that was asked, the node, and the solution that was found. -/
structure ForestQuery (Λ : Lexicon) where
  asked : Engine Λ
  node : Handle
  solution : Solution Handle (Forest Λ.Token)

/-- The solution is what a solver finds for the forest of the node, in the grammar, with the
table and under the limit of the engine that was asked. -/
def ForestQuery.IsAnswer {Λ : Lexicon} (query : ForestQuery Λ) : Prop :=
  ∃ notes, (query.asked.grammar.emptyMatches query.asked.tables.forest).solve
    (forestBudget query.asked) (forestLimit query.asked.configuration) query.node =
      (.ok query.solution, notes)

/-- The manner of an engine that notes its forest queries. -/
def tracing {Λ : Lexicon} : Manner Λ (Logged (ForestQuery Λ) Λ) where
  fallback := .solving
  solveForest node := do
    let asked ← (get : Action Λ (Engine Λ))
    let solution ← solveForest (Λ := Λ) node
    log ⟨asked, node, solution⟩
    return solution
  openKnot _ := build (Λ := Λ) Grammar.placeholder

variable {Λ : Lexicon} {engine before middle after : Engine Λ}
  {queries later : List (ForestQuery Λ)} {query : ForestQuery Λ}

/-- The roots of the forest queries that were stopped, the latest first. -/
def stoppedNodes (queries : List (ForestQuery Λ)) : List Handle :=
  (queries.filter fun query => !query.solution.converged).map ForestQuery.node

/-- How an engine has changed while it has made some forest queries: each was answered by a
solver, and those that were stopped are told as stopped in the journal, and no others. -/
structure Accounts (before : Engine Λ) (queries : List (ForestQuery Λ)) (after : Engine Λ) :
    Prop where
  configuration : after.configuration = before.configuration
  stopped : after.stopped = stoppedNodes queries ++ before.stopped
  answered : ∀ query ∈ queries,
    query.IsAnswer ∧ query.asked.configuration = before.configuration

/-- A query without a limit is not stopped. -/
theorem ForestQuery.IsAnswer.converged_of_unlimited (hAnswer : query.IsAnswer)
    (hUnlimited : query.asked.configuration.forestPassLimit = 0) :
    query.solution.converged = true := by
  obtain ⟨notes, hSolve⟩ := hAnswer
  rw [forestLimit, hUnlimited] at hSolve
  exact System.converged_of_unbounded hSolve

theorem stoppedNodes_append (queries later : List (ForestQuery Λ)) :
    stoppedNodes (later ++ queries) = stoppedNodes later ++ stoppedNodes queries := by
  rw [stoppedNodes, List.filter_append, List.map_append]
  rfl

theorem stoppedNodes_eq_nil_iff :
    stoppedNodes queries = [] ↔ ∀ query ∈ queries, query.solution.converged = true := by
  simp [stoppedNodes]

section Changes

/-- Without a forest query the journal may grow, but tells of no stopped query. -/
theorem accounts_nil (hConfiguration : after.configuration = before.configuration)
    (hStopped : after.stopped = before.stopped) : Accounts before [] after :=
  ⟨hConfiguration, hStopped, by simp⟩

theorem Accounts.trans (hFirst : Accounts before queries middle)
    (hSecond : Accounts middle later after) : Accounts before (later ++ queries) after where
  configuration := hSecond.configuration.trans hFirst.configuration
  stopped := by
    rw [hSecond.stopped, hFirst.stopped, stoppedNodes_append, List.append_assoc]
  answered query hQuery := by
    rcases List.mem_append.mp hQuery with hLater | hEarlier
    · obtain ⟨hAnswer, hAsked⟩ := hSecond.answered query hLater
      exact ⟨hAnswer, hAsked.trans hFirst.configuration⟩
    · exact hFirst.answered query hEarlier

/-- No query was stopped, according to the journal, exactly if that was so before and the
solutions of the queries since then have converged. -/
theorem Accounts.untruncated_iff (hAccounts : Accounts before queries after) :
    after.Untruncated ↔
      (∀ query ∈ queries, query.solution.converged = true) ∧ before.Untruncated := by
  rw [untruncated_iff_stopped, untruncated_iff_stopped, hAccounts.stopped,
    List.append_eq_nil_iff, stoppedNodes_eq_nil_iff]

/-- The forest queries that an engine makes go with what its journal tells. -/
def accounts : Chronicle (ForestQuery Λ) Λ where
  tells := Accounts
  idle hIdle := accounts_nil hIdle.configuration hIdle.stopped
  trans := Accounts.trans

/-- A solver tells a forest query as stopped exactly if its solution has not converged. -/
theorem accounts_solveForest {node : Handle} {solution : Solution Handle (Forest Λ.Token)}
    (hRun : (solveForest node).run engine = .ok solution after) :
    Accounts engine [⟨engine, node, solution⟩] after := by
  obtain ⟨notes, hSolve, rfl⟩ := run_solveForest_eq_ok hRun
  refine ⟨rfl, ?_, fun query hQuery => ?_⟩
  · rw [stopped_solved, System.solve_stops (engine.grammar.quiet_emptyMatches _) hSolve]
    cases hConverged : solution.converged <;> simp [stoppedNodes, hConverged]
  · obtain rfl := List.mem_singleton.mp hQuery
    exact ⟨⟨notes, hSolve⟩, rfl⟩

end Changes

section Tasks

/-- A forest query is noted with what was found. -/
theorem follows_solveForest (node : Handle) :
    Follows accounts engine (tracing.solveForest node) (solveForest node) := by
  intro queries
  change Accords accounts engine queries ((solveForest node).run engine)
    (((solveForest node >>= fun solution => pure (solution, queries)) >>= fun found =>
      pure (found.1, ⟨engine, node, found.1⟩ :: found.2)).run engine)
  rw [EStateM.run_bind, EStateM.run_bind]
  cases hRun : (solveForest node).run engine with
  | ok solution after => exact ⟨[⟨engine, node, solution⟩], rfl, accounts_solveForest hRun⟩
  | error fault after => rfl

theorem follows_build {α : Type} (change : Grammar Λ → α × Grammar Λ) :
    Follows accounts engine (liftM (build change)) (build change) :=
  follows_modifyGet (show Accounts engine [] _ from accounts_nil rfl rfl)

theorem follows_remember {α : Type} (change : Tables Λ → α × Tables Λ) :
    Follows accounts engine (liftM (remember change)) (remember change) :=
  follows_modifyGet (show Accounts engine [] _ from accounts_nil rfl rfl)

/-- The forest queries that are made are on record, whatever the task. -/
theorem records_tracing (task : Task Λ) : tracing.Records task accounts where
  fallback := rfl
  solveForest _ := follows_solveForest
  alloc _ _ _ := accounts_nil rfl rfl
  note _ _ _ := accounts_nil rfl rfl
  opening engine node logged action _ hTarget := by
    refine (follows_build _).bind fun placeholder middle _ => ?_
    refine (follows_remember _).bind fun _ middle _ => ?_
    refine (hTarget middle).bind fun result middle _ => ?_
    exact (follows_build _).bind fun _ _ _ => follows_pure result

end Tasks

section Runs

variable {node root : Handle} {input : Reading Λ.Token}

theorem follows_report {event : Event Λ} (hEvent : stoppedRoot event = none) :
    Follows accounts engine (liftM (report event)) (report event) := by
  refine follows_modifyGet (accounts_nil rfl ?_)
  rw [stopped, List.filterMap_cons_none hEvent]
  rfl

/-- A collection tells of no stopped query. -/
theorem stopped_collectGarbage {roots : List Handle} {freed : Nat}
    (hRun : (collectGarbage roots).run engine = .ok freed after) :
    after.configuration = engine.configuration ∧ after.stopped = engine.stopped := by
  have hSwept {κ ν : Type} [Ord κ] (memo : Memo κ ν) (evicted : Nat) :
      (Tables.sweepEvents memo evicted : List (Event Λ)).filterMap stoppedRoot = [] := by
    unfold Tables.sweepEvents
    split <;> rfl
  cases hRun
  refine ⟨rfl, ?_⟩
  simp only [stopped, List.filterMap_append, hSwept, List.filterMap_cons,
    stoppedRoot, List.nil_append]

theorem follows_collectGarbage (roots : List Handle) :
    Follows accounts engine (liftM (collectGarbage (Λ := Λ) roots))
      (collectGarbage roots) := by
  refine follows_lift fun _ _ hRun => ?_
  obtain ⟨hConfiguration, hStopped⟩ := stopped_collectGarbage hRun
  exact accounts_nil hConfiguration hStopped

theorem follows_collectAfter (steps : Nat) :
    Follows accounts engine (liftM (collectAfter (Λ := Λ) steps node))
      (collectAfter steps node) := by
  refine follows_lift fun _ after hRun => ?_
  obtain ⟨before, middle, hGet, hRest⟩ := Fixpoint.run_bind_eq_ok_iff.mp hRun
  cases hGet
  dsimp only at hRest
  split at hRest
  · obtain ⟨freed, last, hCollect, hLast⟩ := Fixpoint.run_bind_eq_ok_iff.mp hRest
    cases hLast
    obtain ⟨hConfiguration, hStopped⟩ := stopped_collectGarbage hCollect
    exact accounts_nil hConfiguration hStopped
  · cases hRest
    exact accounts_nil rfl rfl

theorem follows_recogniseStep (steps : Nat) (token : Λ.Token) :
    Follows accounts engine (tracing.recogniseStep steps node token)
      (plain.recogniseStep steps node token) := by
  refine ((records_tracing _).follows_derive engine node).bind fun node middle _ => ?_
  refine idles_get.follows fun _ middle _ => ?_
  refine (follows_report rfl).bind fun _ middle _ => ?_
  exact (follows_collectAfter _).bind fun _ _ _ => follows_pure node

theorem follows_recogniseFrom (failure : Option CursorError) (tokens : List Λ.Token)
    (steps : Nat) :
    Follows accounts engine (tracing.recogniseFrom failure tokens steps node)
      (plain.recogniseFrom failure tokens steps node) := by
  induction tokens generalizing engine node steps with
  | nil =>
      cases failure with
      | some error => exact follows_pure _
      | none => exact (idles_isNullable node).follows fun _ _ _ => follows_pure _
  | cons token tokens ih =>
      exact (follows_recogniseStep steps token).bind fun _ _ _ => ih (steps + 1)

theorem follows_validated {α : Type} {logged : Logged (ForestQuery Λ) Λ (Except ParseError α)}
    {run : Action Λ (Except ParseError α)}
    (hRun : ∀ engine, Follows accounts engine logged run) :
    Follows accounts engine (validated (Λ := Λ) root logged)
      (validated (Λ := Λ) root run) := by
  refine idles_get.follows fun asked middle _ => ?_
  cases asked.grammar.validate root with
  | ok _ => exact hRun middle
  | error error => exact follows_pure _

theorem follows_recognises :
    Follows accounts engine (tracing.recognises root input) (recognises root input) :=
  follows_validated fun _ => follows_recogniseFrom _ _ _

theorem follows_advance (token : Λ.Token) :
    Follows accounts engine (tracing.advance node token) (plain.advance node token) := by
  refine ((records_tracing _).follows_derive engine node).bind fun derived middle _ => ?_
  refine idles_get.follows fun _ middle _ => ?_
  exact follows_ite ((records_tracing _).follows_compact middle derived) (follows_pure derived)

theorem follows_parseStep (consumed : Nat) (token : Λ.Token) :
    Follows accounts engine (tracing.parseStep consumed node token)
      (plain.parseStep consumed node token) := by
  refine (follows_advance token).bind fun node middle _ => ?_
  refine idles_get.follows fun _ middle _ => ?_
  refine (follows_report rfl).bind fun _ middle _ => ?_
  exact (follows_collectAfter _).bind fun _ _ _ => follows_pure node

theorem follows_halt (consumed : Nat) :
    Follows accounts engine (liftM (halt (Λ := Λ) node consumed)) (halt node consumed) := by
  unfold halt
  rw [liftM_bind]
  exact (follows_report rfl).bind fun _ _ _ => (idles_pure _).follows_lift

theorem follows_parseFrom (limit : Option Nat) (failure : Option CursorError)
    (tokens : List Λ.Token) (consumed : Nat) :
    Follows accounts engine (tracing.parseFrom limit failure tokens consumed node)
      (plain.parseFrom limit failure tokens consumed node) := by
  induction tokens generalizing engine node consumed with
  | nil =>
      cases failure with
      | some error => exact follows_ite (follows_halt consumed) (follows_pure _)
      | none =>
          exact ((records_tracing .compact).follows_forestOf node).bind fun _ _ _ =>
            follows_pure _
  | cons token tokens ih =>
      refine follows_ite (follows_halt consumed) ?_
      exact (follows_parseStep consumed token).bind fun _ _ _ => ih (consumed + 1)

theorem follows_parseWithLimit (limit : Option Nat) :
    Follows accounts engine (tracing.parseWithLimit root input limit)
      (parseWithLimit root input limit) :=
  follows_validated fun _ => follows_parseFrom _ _ _ _

theorem follows_parse :
    Follows accounts engine (tracing.parse root input) (parse root input) := by
  refine (follows_parseWithLimit none).bind fun outcome _ _ => ?_
  match outcome with
  | .ok (.complete forest) => exact follows_pure _
  | .ok (.halted _ _) => exact follows_pure _
  | .error error => exact follows_pure _

/-- Whatever the operation, its forest queries are on record. -/
theorem follows_call (call : Call Λ) :
    Follows accounts engine (call.actionIn tracing) call.action := by
  cases call with
  | derive node token =>
      exact ((records_tracing _).follows_derive engine node).bind fun _ _ _ => follows_pure ()
  | compact node =>
      exact ((records_tracing _).follows_compact engine node).bind fun _ _ _ => follows_pure ()
  | isNullable node => exact (idles_isNullable node).follows fun _ _ _ => follows_pure ()
  | isEmpty node => exact (idles_isEmpty node).follows fun _ _ _ => follows_pure ()
  | isConsuming node => exact (idles_isConsuming node).follows fun _ _ _ => follows_pure ()
  | isNullOnly node => exact (idles_isNullOnly node).follows fun _ _ _ => follows_pure ()
  | forestOf node =>
      exact ((records_tracing .compact).follows_forestOf node).bind fun _ _ _ =>
        follows_pure ()
  | collectGarbage roots =>
      exact (follows_collectGarbage roots).bind fun _ _ _ => follows_pure ()
  | recognises root input => exact follows_recognises.bind fun _ _ _ => follows_pure ()
  | parse root input => exact follows_parse.bind fun _ _ _ => follows_pure ()
  | parseWithLimit root input limit =>
      exact (follows_parseWithLimit limit).bind fun _ _ _ => follows_pure ()

end Runs

section History

/-- The states that an engine gets into, with the forest queries it has made on the way, the
latest first. -/
inductive Recorded : Engine Λ → List (ForestQuery Λ) → Prop
  | fresh {grammar : Grammar Λ} (configuration : Configuration) (patience : Nat) :
      grammar.Built →
      Recorded { grammar := grammar, configuration := configuration, patience := patience } []
  | call {engine after : Engine Λ} {queries later : List (ForestQuery Λ)} (call : Call Λ) :
      Recorded engine queries →
      (∀ node ∈ call.nodes, engine.grammar.validate node = .ok ()) →
      ((call.actionIn tracing).run queries).run engine = .ok ((), later) after →
      Recorded after later
  | alloc {engine : Engine Λ} {queries : List (ForestQuery Λ)} (node : Node Λ)
      (origin : Origin) : Recorded engine queries →
      Recorded { engine with grammar := (engine.grammar.alloc node origin).2 } queries
  | setTarget {engine : Engine Λ} {queries : List (ForestQuery Λ)} {grammar : Grammar Λ}
      {delegate target : Handle} :
      Recorded engine queries → engine.grammar.setTarget delegate target = .ok grammar →
      Recorded { engine with grammar := grammar } queries
  | fill {engine : Engine Λ} {queries : List (ForestQuery Λ)} {placeholder : Placeholder}
      (target : Handle) :
      Recorded engine queries → engine.grammar.get? placeholder.handle = some (.delegate none) →
      Recorded { engine with grammar := engine.grammar.fill placeholder target } queries

/-- Every state that an engine gets into has its record. -/
theorem Reached.exists_recorded (hReached : engine.Reached) :
    ∃ queries, engine.Recorded queries := by
  induction hReached with
  | fresh configuration patience hBuilt => exact ⟨[], .fresh configuration patience hBuilt⟩
  | call call _ hNodes hRun ih =>
      obtain ⟨queries, hRecorded⟩ := ih
      obtain ⟨later, hLogged, -⟩ := (follows_call call).exists_entries hRun queries
      exact ⟨later ++ queries, .call call hRecorded hNodes hLogged⟩
  | alloc node origin _ ih =>
      obtain ⟨queries, hRecorded⟩ := ih
      exact ⟨queries, .alloc node origin hRecorded⟩
  | setTarget _ hSet ih =>
      obtain ⟨queries, hRecorded⟩ := ih
      exact ⟨queries, .setTarget hRecorded hSet⟩
  | fill target _ hUnset ih =>
      obtain ⟨queries, hRecorded⟩ := ih
      exact ⟨queries, .fill target hRecorded hUnset⟩

theorem Recorded.reached (hRecorded : engine.Recorded queries) : engine.Reached := by
  induction hRecorded with
  | fresh configuration patience hBuilt => exact .fresh configuration patience hBuilt
  | call call _ hNodes hRun ih => exact .call call ih hNodes ((follows_call call).of_run hRun).1
  | alloc node origin _ ih => exact .alloc node origin ih
  | setTarget _ hSet ih => exact .setTarget ih hSet
  | fill target _ hUnset ih => exact .fill target ih hUnset

/-- Over its whole history the journal of an engine tells exactly those forest queries as
stopped whose solution had not converged. -/
theorem Recorded.accounted (hRecorded : engine.Recorded queries) :
    engine.stopped = stoppedNodes queries ∧ ∀ query ∈ queries,
      query.IsAnswer ∧ query.asked.configuration = engine.configuration := by
  induction hRecorded with
  | fresh => exact ⟨rfl, by simp⟩
  | @call engine after queries later call _ _ hRun ih =>
      obtain ⟨-, new, rfl, hTells⟩ := (follows_call call).of_run hRun
      refine ⟨?_, fun query hQuery => ?_⟩
      · rw [hTells.stopped, ih.1, stoppedNodes_append]
      · rw [hTells.configuration]
        exact (List.mem_append.mp hQuery).elim (hTells.answered query) (ih.2 query)
  | alloc => assumption
  | setTarget => assumption
  | fill => assumption

/-- No query was ever stopped, according to the journal, exactly if the solutions of all
forest queries converged. -/
theorem Recorded.untruncated_iff (hRecorded : engine.Recorded queries) :
    engine.Untruncated ↔ ∀ query ∈ queries, query.solution.converged = true := by
  rw [untruncated_iff_stopped, hRecorded.accounted.1, stoppedNodes_eq_nil_iff]

/-- Without a limit on forest queries none is ever stopped. -/
theorem Recorded.untruncated_of_unlimited (hRecorded : engine.Recorded queries)
    (hUnlimited : engine.configuration.forestPassLimit = 0) : engine.Untruncated := by
  refine hRecorded.untruncated_iff.mpr fun query hQuery => ?_
  obtain ⟨hAnswer, hConfiguration⟩ := hRecorded.accounted.2 query hQuery
  exact hAnswer.converged_of_unlimited (hConfiguration ▸ hUnlimited)

end History

end Engine

end DerivativeParsing
