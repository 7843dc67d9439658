import DerivativeParsing.Engine.Query

namespace DerivativeParsing

/-!
# Reasoning about actions

An action of an engine attains a condition if it succeeds with a result and an engine
that satisfy it.  It may also give up because a bound was used up, if that is excused: a
forest query that the configuration does not limit ends only when the engine's patience
does.  It may never meet a stale handle.

There is one rule for every action that others are made of.
-/

open Fixpoint

namespace Engine

variable {Λ : Lexicon} {α β : Type} {excused : Prop} {engine : Engine Λ}

/-- The action succeeds with what satisfies a condition, or gives up with an excuse. -/
def Attains (excused : Prop) (action : Action Λ α) (engine : Engine Λ)
    (post : α → Engine Λ → Prop) : Prop :=
  match action.run engine with
  | .ok result after => post result after
  | .error fault _ => fault = .exhausted ∧ excused

section Plain

theorem liftM_self (action : Action Λ α) : (liftM action : Action Λ α) = action := rfl

theorem plain_solveForest (handle : Handle) :
    (plain : Manner Λ (Action Λ)).solveForest handle = solveForest handle := rfl

end Plain

/-- The result alone of an action that has succeeded. -/
theorem run'_eq_some {action : Action Λ α} {result : α} {after : Engine Λ}
    (hRun : action.run engine = .ok result after) : action.run' engine = some result := by
  delta EStateM.run'
  rw [hRun]

/-- The engine that an action leaves, whether or not it succeeds. -/
def afterwards (engine : Engine Λ) (action : Action Λ α) : Engine Λ :=
  match action.run engine with
  | .ok _ after => after
  | .error _ after => after

theorem afterwards_of_run {action : Action Λ α} {result : α} {after : Engine Λ}
    (hRun : action.run engine = .ok result after) : engine.afterwards action = after := by
  rw [afterwards, hRun]

/-- What an action attains holds when it has succeeded. -/
theorem Attains.of_run {action : Action Λ α} {post : α → Engine Λ → Prop} {result : α}
    {after : Engine Λ} (hAttains : Attains excused action engine post)
    (hRun : action.run engine = .ok result after) : post result after := by
  unfold Attains at hAttains
  rw [hRun] at hAttains
  exact hAttains

/-- Without an excuse an action that attains something succeeds. -/
theorem Attains.exists_run {action : Action Λ α} {post : α → Engine Λ → Prop}
    (hAttains : Attains excused action engine post) (hExcused : ¬ excused) :
    ∃ result after, action.run engine = .ok result after ∧ post result after := by
  unfold Attains at hAttains
  cases hRun : action.run engine with
  | ok result after =>
      rw [hRun] at hAttains
      exact ⟨result, after, rfl, hAttains⟩
  | error fault after =>
      rw [hRun] at hAttains
      exact absurd hAttains.2 hExcused

theorem Attains.mono {action : Action Λ α} {post post' : α → Engine Λ → Prop}
    (hAttains : Attains excused action engine post)
    (hPost : ∀ result after, post result after → post' result after) :
    Attains excused action engine post' := by
  unfold Attains at hAttains ⊢
  split at hAttains
  · next result after hRun => exact hPost result after hAttains
  · exact hAttains

theorem attains_pure {result : α} {post : α → Engine Λ → Prop} :
    Attains excused (pure result) engine post ↔ post result engine := Iff.rfl

theorem attains_bind {action : Action Λ α} {next : α → Action Λ β}
    {post : β → Engine Λ → Prop} :
    Attains excused (action >>= next) engine post ↔
      Attains excused action engine fun result after =>
        Attains excused (next result) after post := by
  unfold Attains
  rw [EStateM.run_bind]
  cases action.run engine <;> rfl

/-- An action that has attained something goes on from there. -/
theorem Attains.bind {action : Action Λ α} {next : α → Action Λ β}
    {between : α → Engine Λ → Prop} {post : β → Engine Λ → Prop}
    (hFirst : Attains excused action engine between)
    (hNext : ∀ result after, between result after →
      Attains excused (next result) after post) :
    Attains excused (action >>= next) engine post :=
  attains_bind.mpr (hFirst.mono hNext)

theorem attains_throw {post : α → Engine Λ → Prop} :
    Attains excused (throw .exhausted) engine post ↔ excused :=
  ⟨And.right, fun h => ⟨rfl, h⟩⟩

theorem run_get (engine : Engine Λ) :
    (get : Action Λ (Engine Λ)).run engine = .ok engine engine := rfl

theorem attains_get {post : Engine Λ → Engine Λ → Prop} :
    Attains excused get engine post ↔ post engine engine := Iff.rfl

theorem attains_report {event : Event Λ} {post : Unit → Engine Λ → Prop} :
    Attains excused (report event) engine post ↔
      post () { engine with journal := event :: engine.journal } := Iff.rfl

theorem attains_modifyGet {change : Engine Λ → α × Engine Λ} {post : α → Engine Λ → Prop} :
    Attains excused (modifyGet change) engine post ↔
      post (change engine).1 (change engine).2 := Iff.rfl

theorem attains_build {change : Grammar Λ → α × Grammar Λ}
    {post : α → Engine Λ → Prop} :
    Attains excused (build change) engine post ↔
      post (change engine.grammar).1
        { engine with grammar := (change engine.grammar).2 } := Iff.rfl

theorem attains_alloc {node : Node Λ} {post : Handle → Engine Λ → Prop} :
    Attains excused (alloc node) engine post ↔
      post engine.grammar.nextHandle
        { engine with grammar := (engine.grammar.alloc node .derived).2 } := Iff.rfl

theorem attains_remember {change : Tables Λ → α × Tables Λ}
    {post : α → Engine Λ → Prop} :
    Attains excused (remember change) engine post ↔
      post (change engine.tables).1
        { engine with tables := (change engine.tables).2 } := Iff.rfl

/-- A node that is found is the node behind the handle, and nothing changes. -/
theorem run_node_eq_ok {handle : Handle} {node : Node Λ} {after : Engine Λ}
    (hRun : (Engine.node handle).run engine = .ok node after) :
    after = engine ∧ engine.grammar.get? handle = some node := by
  unfold Engine.node at hRun
  rw [EStateM.run_bind, run_get] at hRun
  dsimp only at hRun
  cases hNode : engine.grammar.get? handle with
  | some found =>
      rw [hNode] at hRun
      cases hRun
      exact ⟨rfl, rfl⟩
  | none =>
      rw [hNode] at hRun
      cases hRun

theorem attains_node {handle : Handle} {node : Node Λ} {post : Node Λ → Engine Λ → Prop}
    (hNode : engine.grammar.get? handle = some node) :
    Attains excused (Engine.node handle) engine post ↔ post node engine := by
  unfold Engine.node
  rw [attains_bind, attains_get, hNode]
  exact Iff.rfl

/-- Solving leaves notes in the journal, and changes nothing else. -/
theorem run_solve_eq_ok {ν : Type} [DecidableEq ν] {system : Engine Λ → System Handle ν}
    {budget : Engine Λ → Budget} {limit : PassLimit} {root : Handle}
    {solution : Solution Handle ν} {after : Engine Λ}
    (hRun : (solve system budget limit root).run engine = .ok solution after) :
    ∃ notes, (system engine).solve (budget engine) limit root = (.ok solution, notes) ∧
      after = { engine with journal := notes.map Event.solved ++ engine.journal } := by
  unfold solve at hRun
  rw [EStateM.run_bind, run_get] at hRun
  dsimp only at hRun
  cases hSolve : (system engine).solve (budget engine) limit root with
  | mk outcome notes =>
      rw [hSolve] at hRun
      cases outcome with
      | ok solution =>
          cases hRun
          exact ⟨notes, rfl, rfl⟩
      | error fault => cases hRun

theorem attains_solve {ν : Type} [DecidableEq ν] {system : Engine Λ → System Handle ν}
    {budget : Engine Λ → Budget} {limit : PassLimit} {root : Handle}
    {solution : Solution Handle ν} {notes : List (Note Handle)}
    {post : Solution Handle ν → Engine Λ → Prop}
    (hSolve : (system engine).solve (budget engine) limit root = (.ok solution, notes)) :
    Attains excused (solve system budget limit root) engine post ↔
      post solution
        { engine with journal := notes.map Event.solved ++ engine.journal } := by
  unfold solve
  rw [attains_bind, attains_get, hSolve]
  exact Iff.rfl

/-- A query that gives up because a bound was used up needs an excuse. -/
theorem attains_solve_of_error {ν : Type} [DecidableEq ν]
    {system : Engine Λ → System Handle ν} {budget : Engine Λ → Budget}
    {limit : PassLimit} {root : Handle} {notes : List (Note Handle)}
    {post : Solution Handle ν → Engine Λ → Prop}
    (hSolve : (system engine).solve (budget engine) limit root =
      (.error .exhausted, notes)) (hExcused : excused) :
    Attains excused (solve system budget limit root) engine post := by
  unfold solve
  rw [attains_bind, attains_get, hSolve]
  exact ⟨rfl, hExcused⟩

end Engine

end DerivativeParsing
