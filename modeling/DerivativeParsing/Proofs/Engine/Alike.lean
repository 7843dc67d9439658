import DerivativeParsing.Proofs.Engine.Fallback
import DerivativeParsing.Proofs.Engine.Reached

namespace DerivativeParsing

/-!
# Operations with a fallback

Two actions are alike if they run alike, with what holds once they have succeeded (`Alike`).
With any fallback the operations on validated nodes are alike, since an engine surveys what a
node reaches before it asks whether the node is consuming, and leave a survey
(`alike_actionOr`).

While nodes are derived and compacted other nodes are only built, so what was valid stays
valid (`Surveys`).  Between the steps of a run nodes are collected, and the node that was
reached stays valid because the step consumes a token (`Ready`).
-/

open Fixpoint

namespace Engine

variable {Λ : Lexicon} {α β : Type} {engine before middle after : Engine Λ}
  {handle node : Handle} {fallback : Fallback Λ}

/-- What an operation does with a fallback, without its result. -/
def Call.actionOr (fallback : Fallback Λ) (call : Call Λ) : Action Λ Unit :=
  call.actionIn (plainOr fallback)

section Rules

/-- Two actions run alike, and what holds whenever they have succeeded. -/
structure Alike (action' action : Action Λ α) (engine : Engine Λ)
    (post : α → Engine Λ → Prop) : Prop where
  run : action'.run engine = action.run engine
  post : ∀ result after, action.run engine = .ok result after → post result after

/-- Nodes were built, and the table is a survey that includes what it included before. -/
structure Extends (before after : Engine Λ) : Prop where
  keeps : before.grammar.Keeps after.grammar
  surveyed : after.Surveyed
  included : ∀ handle, before.tables.inhabited.contains handle = true →
    after.tables.inhabited.contains handle = true

/-- Two actions run alike, build nodes and leave a survey.  This is what the recursions hand
on from one call to the next. -/
def Surveys (action' action : Action Λ α) (engine : Engine Λ) : Prop :=
  Alike action' action engine fun _ after => engine.Extends after

theorem Surveyed.extends_self (hSurveyed : engine.Surveyed) : engine.Extends engine :=
  ⟨Grammar.Keeps.refl _, hSurveyed, fun _ => id⟩

theorem Extends.trans (hFirst : before.Extends middle) (hSecond : middle.Extends after) :
    before.Extends after :=
  ⟨hFirst.keeps.trans hSecond.keeps, hSecond.surveyed,
    fun handle hHandle => hSecond.included handle (hFirst.included handle hHandle)⟩

theorem Extends.valid (hExtends : before.Extends after) (hValid : before.grammar.Valid node) :
    after.grammar.Valid node :=
  (hValid.agrees hExtends.keeps.grows).valid hValid

theorem Alike.mono {action' action : Action Λ α} {post post' : α → Engine Λ → Prop}
    (hAlike : Alike action' action engine post)
    (hPost : ∀ result after, post result after → post' result after) :
    Alike action' action engine post' :=
  ⟨hAlike.run, fun result after hRun => hPost result after (hAlike.post result after hRun)⟩

theorem Alike.bind {action' action : Action Λ α} {next' next : α → Action Λ β}
    {between : α → Engine Λ → Prop} {post : β → Engine Λ → Prop}
    (hFirst : Alike action' action engine between)
    (hNext : ∀ result after, between result after →
      Alike (next' result) (next result) after post) :
    Alike (action' >>= next') (action >>= next) engine post := by
  constructor
  · rw [EStateM.run_bind, EStateM.run_bind, hFirst.run]
    cases hRun : action.run engine with
    | ok result after => exact (hNext result after (hFirst.post result after hRun)).run
    | error fault after => rfl
  · intro result after hRun
    obtain ⟨value, middle, hAction, hRest⟩ := Fixpoint.run_bind_eq_ok_iff.mp hRun
    exact (hNext value middle (hFirst.post value middle hAction)).post result after hRest

theorem alike_pure {result : α} {post : α → Engine Λ → Prop} (hPost : post result engine) :
    Alike (pure result) (pure result) engine post := by
  refine ⟨rfl, fun _ _ hRun => ?_⟩
  cases hRun
  exact hPost

theorem alike_ite {condition : Prop} [Decidable condition]
    {first' first second' second : Action Λ α} {post : α → Engine Λ → Prop}
    (hFirst : Alike first' first engine post) (hSecond : Alike second' second engine post) :
    Alike (if condition then first' else second') (if condition then first else second) engine
      post := by
  split
  · exact hFirst
  · exact hSecond

/-- What an action attains holds whenever it has succeeded. -/
theorem Attains.alike {excused : Prop} {action : Action Λ α} {post : α → Engine Λ → Prop}
    (hAttains : Attains excused action engine post) : Alike action action engine post :=
  ⟨rfl, fun _ _ hRun => hAttains.of_run hRun⟩

theorem Surveys.bind {action' action : Action Λ α} {next' next : α → Action Λ β}
    (hFirst : Surveys action' action engine)
    (hNext : ∀ result after, engine.Extends after →
      Surveys (next' result) (next result) after) :
    Surveys (action' >>= next') (action >>= next) engine :=
  Alike.bind hFirst fun result after hAfter =>
    (hNext result after hAfter).mono fun _ _ hLater => hAfter.trans hLater

theorem Surveyed.surveys_pure (hSurveyed : engine.Surveyed) (result : α) :
    Surveys (pure result) (pure result) engine :=
  alike_pure hSurveyed.extends_self

end Rules

section Neutrality

/-- An action that leaves the nodes and the survey as they are. -/
def Neutral (action : Action Λ α) : Prop :=
  ∀ engine result after, action.run engine = .ok result after →
    after.grammar = engine.grammar ∧ after.tables.inhabited = engine.tables.inhabited

theorem Neutral.surveys {action : Action Λ α} (hNeutral : Neutral action)
    (hSurveyed : engine.Surveyed) : Surveys action action engine := by
  refine ⟨rfl, fun result after hRun => ?_⟩
  obtain ⟨hGrammar, hTable⟩ := hNeutral engine result after hRun
  refine ⟨?_, ?_, fun handle hHandle => ?_⟩
  · rw [hGrammar]
    exact Grammar.Keeps.refl _
  · unfold Surveyed
    rw [hGrammar, hTable]
    exact hSurveyed
  · rw [hTable]
    exact hHandle

theorem neutral_pure (result : α) : Neutral (pure result : Action Λ α) := by
  intro engine result after hRun
  cases hRun
  exact ⟨rfl, rfl⟩

theorem neutral_get : Neutral (get : Action Λ (Engine Λ)) := by
  intro engine result after hRun
  cases hRun
  exact ⟨rfl, rfl⟩

theorem neutral_report (event : Event Λ) : Neutral (report event) := by
  intro engine result after hRun
  cases hRun
  exact ⟨rfl, rfl⟩

theorem Neutral.bind {action : Action Λ α} {next : α → Action Λ β} (hFirst : Neutral action)
    (hNext : ∀ result, Neutral (next result)) : Neutral (action >>= next) := by
  intro engine result after hRun
  obtain ⟨value, middle, hAction, hRest⟩ := Fixpoint.run_bind_eq_ok_iff.mp hRun
  obtain ⟨hGrammar, hTable⟩ := hFirst engine value middle hAction
  obtain ⟨hGrammar', hTable'⟩ := hNext value middle result after hRest
  exact ⟨hGrammar'.trans hGrammar, hTable'.trans hTable⟩

theorem neutral_remember {change : Tables Λ → α × Tables Λ}
    (hSame : ∀ tables, (change tables).2.inhabited = tables.inhabited) :
    Neutral (remember change) := by
  intro engine result after hRun
  cases hRun
  exact ⟨rfl, hSame engine.tables⟩

theorem neutral_solve {ν : Type} [DecidableEq ν] (system : Engine Λ → System Handle ν)
    (budget : Engine Λ → Budget) (limit : PassLimit) (root : Handle) :
    Neutral (solve system budget limit root) := by
  intro engine solution after hRun
  obtain ⟨notes, -, rfl⟩ := run_solve_eq_ok hRun
  exact ⟨rfl, rfl⟩

variable (handle : Handle)

theorem neutral_isNullable : Neutral (isNullable handle : Action Λ Bool) := by
  refine (neutral_remember fun _ => rfl).bind fun found => ?_
  cases found with
  | some value => exact neutral_pure value
  | none =>
      refine (neutral_solve _ _ _ _).bind fun solution => ?_
      exact (neutral_remember fun _ => rfl).bind fun _ => neutral_pure _

theorem neutral_solveForest :
    Neutral (solveForest handle : Action Λ (Solution Handle (Forest Λ.Token))) :=
  neutral_get.bind fun _ => neutral_solve _ _ _ _

theorem neutral_forestOf : Neutral (forestOf handle : Action Λ (Forest Λ.Token)) := by
  refine (neutral_remember fun _ => rfl).bind fun found => ?_
  cases found with
  | some trees => exact neutral_pure trees
  | none =>
      refine (neutral_solveForest handle).bind fun solution => ?_
      cases solution.converged with
      | true => exact (neutral_remember fun _ => rfl).bind fun _ => neutral_pure _
      | false => exact neutral_pure _

theorem neutral_rememberedDerivative (step : Step Λ) : Neutral (rememberedDerivative step) :=
  neutral_remember fun _ => rfl

theorem neutral_rememberDerivative (step : Step Λ) (result : Handle) :
    Neutral (rememberDerivative step result) :=
  neutral_remember fun _ => rfl

theorem neutral_rememberedCompaction :
    Neutral (rememberedCompaction handle : Action Λ (Option Handle)) :=
  neutral_remember fun _ => rfl

theorem neutral_rememberCompaction (result : Handle) :
    Neutral (rememberCompaction handle result : Action Λ Unit) :=
  neutral_remember fun _ => rfl

end Neutrality

section Queries

/-- Systems that are solved alike are solved alike by an engine. -/
theorem Surveyed.surveys_solve {ν : Type} [DecidableEq ν]
    {system' system : Engine Λ → System Handle ν} {budget : Engine Λ → Budget}
    {limit : PassLimit} {root : Handle} (hSurveyed : engine.Surveyed)
    (hSame : (system' engine).solve (budget engine) limit root =
      (system engine).solve (budget engine) limit root) :
    Surveys (solve system' budget limit root) (solve system budget limit root) engine := by
  refine ⟨?_, ((neutral_solve system budget limit root).surveys hSurveyed).post⟩
  unfold solve
  rw [EStateM.run_bind, EStateM.run_bind, run_get]
  dsimp only
  rw [hSame]

variable (hSurveyed : engine.Surveyed) (hValid : engine.grammar.Valid handle)

include hSurveyed hValid

theorem alike_isInhabited : Alike (isInhabited handle) (isInhabited handle) engine
    fun _ after => engine.Extends after ∧ after.tables.inhabited.contains handle = true := by
  refine (hSurveyed.attains_isInhabited hValid).alike.mono ?_
  rintro value after ⟨hGrammar, hAfter, hContains, hIncluded⟩
  refine ⟨⟨?_, hAfter, hIncluded⟩, hContains⟩
  rw [hGrammar]
  exact Grammar.Keeps.refl _

theorem surveys_isEmpty : Surveys (isEmpty handle) (isEmpty handle) engine :=
  (alike_isInhabited hSurveyed hValid).bind fun _ _ hAfter => alike_pure hAfter.1

/-- Before the equations of consumption are solved the survey includes the node, so there is
no use for the fallback. -/
theorem alike_isConsumingOr (fallback : Fallback Λ) :
    Alike (isConsumingOr fallback handle) (isConsuming handle) engine fun _ after =>
      engine.Extends after ∧ (engine.tables.consuming.peek? handle = none →
        after.tables.inhabited.contains handle = true) := by
  have hLookup : Attains False
      (remember fun tables : Tables Λ => ((tables.consuming.lookup handle).1,
        { tables with consuming := (tables.consuming.lookup handle).2 })) engine
      fun found after =>
        engine.Extends after ∧ found = engine.tables.consuming.peek? handle :=
    attains_remember.mpr
      ⟨⟨Grammar.Keeps.refl _, hSurveyed, fun _ => id⟩, Memo.lookup_fst _ _⟩
  refine hLookup.alike.bind ?_
  rintro found counted ⟨hCounted, rfl⟩
  cases hPeek : engine.tables.consuming.peek? handle with
  | some value => exact alike_pure ⟨hCounted, nofun⟩
  | none =>
      refine (alike_isInhabited hCounted.surveyed (hCounted.valid hValid)).bind ?_
      rintro value middle ⟨hMiddle, hContains⟩
      have hAgrees := hMiddle.surveyed.agrees_consumption fallback middle.tables.consuming
      refine Alike.mono (Surveys.bind (hMiddle.surveyed.surveys_solve
        (hAgrees.solve_eq hContains _ _)) fun solution _ hSolved => ?_)
        fun _ _ hAfter => ⟨hCounted.trans (hMiddle.trans hAfter), fun _ =>
          hAfter.included handle hContains⟩
      refine ((neutral_remember fun _ => rfl).surveys hSolved.surveyed).bind fun _ _ hAfter => ?_
      exact hAfter.surveyed.surveys_pure solution.value

theorem surveys_isNullOnlyOr :
    Surveys (isNullOnlyOr fallback handle) (isNullOnly handle) engine := by
  refine ((neutral_isNullable handle).surveys hSurveyed).bind fun nullable middle hMiddle => ?_
  refine alike_ite ?_ (hMiddle.surveyed.surveys_pure false)
  refine Alike.bind (alike_isConsumingOr hMiddle.surveyed (hMiddle.valid hValid) fallback) ?_
  exact fun value _ hAfter => alike_pure hAfter.1

end Queries

section Building

theorem Surveyed.surveys_alloc (hSurveyed : engine.Surveyed) (built : Node Λ) :
    Surveys (alloc built) (alloc built) engine := by
  refine ⟨rfl, fun result after hRun => ?_⟩
  cases hRun
  have hKeeps := engine.grammar.keeps_alloc built .derived
  exact ⟨hKeeps, Grammar.Surveyed.grows hSurveyed hKeeps.grows, fun _ => id⟩

theorem Surveyed.surveys_epsCarrying (hSurveyed : engine.Surveyed) (trees : Forest Λ.Token) :
    Surveys (epsCarrying trees) (epsCarrying trees) engine :=
  alike_ite (hSurveyed.surveys_pure Handle.eps) (hSurveyed.surveys_alloc (.eps trees))

/-- The node that is found is the node behind the handle. -/
theorem Surveyed.alike_node (hSurveyed : engine.Surveyed) (handle : Handle) :
    Alike (Engine.node handle) (Engine.node handle) engine fun found after =>
      engine.Extends after ∧ after.grammar.get? handle = some found := by
  refine ⟨rfl, fun found after hRun => ?_⟩
  obtain ⟨rfl, hNode⟩ := run_node_eq_ok hRun
  exact ⟨hSurveyed.extends_self, hNode⟩

theorem Surveyed.surveys_fusedReduction (hSurveyed : engine.Surveyed) (inner : Handle)
    (reducer : Reducer Λ) :
    Surveys (fusedReduction inner reducer) (fusedReduction inner reducer) engine := by
  have hNode : Surveys (Engine.node inner) (Engine.node inner) engine :=
    (hSurveyed.alike_node inner).mono fun _ _ hAfter => hAfter.1
  refine hNode.bind fun found _ hAfter => ?_
  cases found <;> exact hAfter.surveyed.surveys_alloc _

/-- A placeholder is opened, noted, and pointed at what the target becomes. -/
theorem Surveyed.surveys_opening {action' action : Action Λ Handle}
    {note : Handle → Action Λ Unit} {target : Handle} (hSurveyed : engine.Surveyed)
    (hNote : ∀ placeholder, Neutral (note placeholder)) (hValid : engine.grammar.Valid target)
    (hTarget : ∀ engine : Engine Λ, engine.Surveyed → engine.grammar.Valid target →
      Surveys action' action engine) :
    Surveys
      (do
        let placeholder ← build Grammar.placeholder
        note placeholder.handle
        let result ← action'
        build fun grammar => ((), grammar.fill placeholder result)
        return result)
      (do
        let placeholder ← build Grammar.placeholder
        note placeholder.handle
        let result ← action
        build fun grammar => ((), grammar.fill placeholder result)
        return result) engine := by
  let opened : Engine Λ :=
    { engine with grammar := (engine.grammar.alloc (.delegate none) .derived).2 }
  have hOpened : engine.Extends opened :=
    (hSurveyed.surveys_alloc (.delegate none)).post _ _ rfl
  have hBuilt : Alike (build Grammar.placeholder) (build Grammar.placeholder) engine
      fun placeholder after => placeholder = ⟨engine.grammar.nextHandle⟩ ∧ after = opened := by
    refine ⟨rfl, fun placeholder after hRun => ?_⟩
    cases hRun
    exact ⟨rfl, rfl⟩
  refine hBuilt.bind ?_
  rintro _ _ ⟨rfl, rfl⟩
  refine Alike.bind ((hNote engine.grammar.nextHandle).surveys hOpened.surveyed) ?_
  intro _ noted hNoted
  have hNotedValid := (hOpened.trans hNoted).valid hValid
  refine Alike.bind (hTarget noted hNoted.surveyed hNotedValid) fun result last hLast => ?_
  -- Filling the placeholder changes a node that was not there before.
  have hSince := hNoted.trans hLast
  refine ⟨rfl, fun _ _ hRun => ?_⟩
  cases hRun
  exact ⟨hSince.keeps.patch_opened result,
    Grammar.Surveyed.grows hLast.surveyed (Grammar.grows_patch hSince.keeps.get?_opened _),
    hSince.included⟩

/-- A result is looked up, or found and noted. -/
theorem Surveyed.surveys_recollected {parts' parts : Node Λ → Action Λ Handle}
    {lookup : Action Λ (Option Handle)} {note : Handle → Action Λ Unit}
    (hSurveyed : engine.Surveyed) (hLookup : Neutral lookup)
    (hNote : ∀ result, Neutral (note result))
    (hParts : ∀ after found, engine.Extends after → after.grammar.get? node = some found →
      Surveys (parts' found) (parts found) after) :
    Surveys
      (do
        match ← lookup with
        | some result => return result
        | none => do
            let result ← parts' (← Engine.node node)
            note result
            return result)
      (do
        match ← lookup with
        | some result => return result
        | none => do
            let result ← parts (← Engine.node node)
            note result
            return result) engine := by
  refine (hLookup.surveys hSurveyed).bind fun recalled middle hMiddle => ?_
  cases recalled with
  | some result => exact hMiddle.surveyed.surveys_pure result
  | none =>
      refine (hMiddle.surveyed.alike_node node).bind fun found last hFound => ?_
      have hRest : Surveys (do let result ← parts' found; note result; return result)
          (do let result ← parts found; note result; return result) last := by
        refine (hParts last found (hMiddle.trans hFound.1) hFound.2).bind fun result _ hAfter => ?_
        refine ((hNote result).surveys hAfter.surveyed).bind fun _ _ hNoted => ?_
        exact hNoted.surveyed.surveys_pure result
      exact hRest.mono fun _ _ hAfter => hFound.1.trans hAfter

end Building

section Recursions

variable {token : Λ.Token} {fuel : Nat} {found : Node Λ}

/-- Derivatives are taken without the survey, and leave it one. -/
theorem surveys_deriveParts {derive' derive : Handle → Action Λ Handle}
    (hDerive : ∀ (engine : Engine Λ) child, engine.Surveyed → engine.grammar.Valid child →
      Surveys (derive' child) (derive child) engine)
    (hSurveyed : engine.Surveyed) (hNode : engine.grammar.get? node = some found)
    (hValid : engine.grammar.Valid node) :
    Surveys ((plainOr fallback).deriveParts derive' node token found)
      (plain.deriveParts derive node token found) engine := by
  have hChild {child : Handle} (hMem : child ∈ found.children) : engine.grammar.Valid child :=
    hValid.child hNode hMem
  match found with
  | .empty => exact hSurveyed.surveys_pure _
  | .eps _ => exact hSurveyed.surveys_pure _
  | .delegate none => exact hSurveyed.surveys_pure _
  | .token matcher =>
      exact alike_ite (hSurveyed.surveys_alloc _) (hSurveyed.surveys_pure _)
  | .union left right =>
      have hRight := hChild (Node.mem_children_union.mpr (Or.inr rfl))
      refine (hDerive engine left hSurveyed
        (hChild (Node.mem_children_union.mpr (Or.inl rfl)))).bind fun _ middle hMiddle => ?_
      refine (hDerive middle right hMiddle.surveyed (hMiddle.valid hRight)).bind
        fun _ last hLast => ?_
      exact hLast.surveyed.surveys_alloc _
  | .sequence first second =>
      have hSecond := hChild (Node.mem_children_sequence.mpr (Or.inr rfl))
      refine (hDerive engine first hSurveyed
        (hChild (Node.mem_children_sequence.mpr (Or.inl rfl)))).bind fun _ derived hDerived => ?_
      refine (hDerived.surveyed.surveys_alloc _).bind fun inFirst built hBuilt => ?_
      refine ((neutral_isNullable first).surveys hBuilt.surveyed).bind fun _ asked hAsked => ?_
      refine alike_ite ?_ (hAsked.surveyed.surveys_pure inFirst)
      refine ((neutral_forestOf first).surveys hAsked.surveyed).bind fun trees told hTold => ?_
      refine (hTold.surveyed.surveys_epsCarrying trees).bind fun _ kept hKept => ?_
      have hExtends := hDerived.trans (hBuilt.trans (hAsked.trans (hTold.trans hKept)))
      refine (hDerive kept second hKept.surveyed (hExtends.valid hSecond)).bind
        fun _ last hLast => ?_
      refine (hLast.surveyed.surveys_alloc _).bind fun _ _ hAfter => ?_
      exact hAfter.surveyed.surveys_alloc _
  | .repetition inner =>
      refine (hDerive engine inner hSurveyed (hChild (List.mem_singleton_self inner))).bind
        fun _ middle hMiddle => ?_
      refine (hMiddle.surveyed.surveys_alloc _).bind fun _ last hLast => ?_
      exact hLast.surveyed.surveys_alloc _
  | .reduction inner reducer =>
      refine (hDerive engine inner hSurveyed (hChild (List.mem_singleton_self inner))).bind
        fun _ middle hMiddle => ?_
      exact hMiddle.surveyed.surveys_alloc _
  | .delegate (some target) =>
      exact hSurveyed.surveys_opening (neutral_rememberDerivative _)
        (hChild (List.mem_singleton_self target)) fun engine => hDerive engine target

theorem surveys_deriveWithin (hSurveyed : engine.Surveyed)
    (hValid : engine.grammar.Valid node) :
    Surveys ((plainOr fallback).deriveWithin token fuel node)
      (plain.deriveWithin token fuel node) engine := by
  induction fuel generalizing engine node with
  | zero => exact ⟨rfl, fun _ _ hRun => nomatch hRun⟩
  | succ fuel ih =>
      refine hSurveyed.surveys_recollected (neutral_rememberedDerivative _)
        (neutral_rememberDerivative _) fun after found hAfter hNode => ?_
      exact surveys_deriveParts (fun _ _ => ih) hAfter.surveyed hNode (hAfter.valid hValid)

/-- The parts of a node are compacted alike with any fallback, if the recursion is. -/
theorem surveys_compactParts {compact' compact : Handle → Action Λ Handle}
    (hCompact : ∀ (engine : Engine Λ) child, engine.Surveyed → engine.grammar.Valid child →
      Surveys (compact' child) (compact child) engine)
    (hSurveyed : engine.Surveyed) (hNode : engine.grammar.get? node = some found)
    (hValid : engine.grammar.Valid node) :
    Surveys ((plainOr fallback).compactParts compact' node found)
      (plain.compactParts compact node found) engine := by
  have hChild {child : Handle} (hMem : child ∈ found.children) : engine.grammar.Valid child :=
    hValid.child hNode hMem
  match found with
  | .empty => exact hSurveyed.surveys_pure _
  | .eps _ => exact hSurveyed.surveys_pure _
  | .token _ => exact hSurveyed.surveys_pure _
  | .delegate none => exact hSurveyed.surveys_pure _
  | .union left right =>
      have hLeft := hChild (Node.mem_children_union.mpr (Or.inl rfl))
      have hRight := hChild (Node.mem_children_union.mpr (Or.inr rfl))
      refine (surveys_isEmpty hSurveyed hLeft).bind fun _ asked hAsked => ?_
      refine alike_ite (hCompact asked right hAsked.surveyed (hAsked.valid hRight)) ?_
      refine (surveys_isEmpty hAsked.surveyed (hAsked.valid hRight)).bind fun _ told hTold => ?_
      have hExtends := hAsked.trans hTold
      refine alike_ite (hCompact told left hTold.surveyed (hExtends.valid hLeft)) ?_
      refine (hCompact told left hTold.surveyed (hExtends.valid hLeft)).bind
        fun _ middle hMiddle => ?_
      refine (hCompact middle right hMiddle.surveyed
        ((hExtends.trans hMiddle).valid hRight)).bind fun _ last hLast => ?_
      exact hLast.surveyed.surveys_alloc _
  | .sequence first second =>
      have hFirst := hChild (Node.mem_children_sequence.mpr (Or.inl rfl))
      have hSecond := hChild (Node.mem_children_sequence.mpr (Or.inr rfl))
      -- An operand that accepts only the empty string gives its trees to the other one.
      have hOther {engine : Engine Λ} (hSurveyed : engine.Surveyed) (operand : Handle)
          {other : Handle} (hOther : engine.grammar.Valid other)
          (reducer : Forest Λ.Token → Reducer Λ) :
          Surveys
            (do
              let trees ← forestOf operand
              let compacted ← compact' other
              fusedReduction compacted (reducer trees))
            (do
              let trees ← forestOf operand
              let compacted ← compact other
              fusedReduction compacted (reducer trees)) engine := by
        refine ((neutral_forestOf operand).surveys hSurveyed).bind fun _ middle hMiddle => ?_
        refine (hCompact middle other hMiddle.surveyed (hMiddle.valid hOther)).bind
          fun _ _ hAfter => ?_
        exact hAfter.surveyed.surveys_fusedReduction _ _
      refine (surveys_isNullOnlyOr hSurveyed hFirst).bind fun _ asked hAsked => ?_
      refine alike_ite (hOther hAsked.surveyed first (hAsked.valid hSecond) .prepend) ?_
      refine (surveys_isNullOnlyOr hAsked.surveyed (hAsked.valid hSecond)).bind
        fun _ told hTold => ?_
      have hExtends := hAsked.trans hTold
      refine alike_ite (hOther hTold.surveyed second (hExtends.valid hFirst) .append) ?_
      refine (hCompact told first hTold.surveyed (hExtends.valid hFirst)).bind
        fun _ middle hMiddle => ?_
      refine (hCompact middle second hMiddle.surveyed
        ((hExtends.trans hMiddle).valid hSecond)).bind fun _ last hLast => ?_
      exact hLast.surveyed.surveys_alloc _
  | .repetition inner =>
      have hInner := hChild (List.mem_singleton_self inner)
      refine (surveys_isEmpty hSurveyed hInner).bind fun _ asked hAsked => ?_
      refine alike_ite (hAsked.surveyed.surveys_alloc _) ?_
      refine (hCompact asked inner hAsked.surveyed (hAsked.valid hInner)).bind
        fun _ last hLast => ?_
      exact hLast.surveyed.surveys_alloc _
  | .reduction inner reducer =>
      refine (hCompact engine inner hSurveyed (hChild (List.mem_singleton_self inner))).bind
        fun _ last hLast => ?_
      exact hLast.surveyed.surveys_fusedReduction _ _
  | .delegate (some target) =>
      exact hSurveyed.surveys_opening (neutral_rememberCompaction node)
        (hChild (List.mem_singleton_self target)) fun engine => hCompact engine target

theorem surveys_compactNode {compact' compact : Handle → Action Λ Handle}
    (hCompact : ∀ (engine : Engine Λ) child, engine.Surveyed → engine.grammar.Valid child →
      Surveys (compact' child) (compact child) engine)
    (hSurveyed : engine.Surveyed) (hNode : engine.grammar.get? node = some found)
    (hValid : engine.grammar.Valid node) :
    Surveys ((plainOr fallback).compactNode compact' node found)
      (plain.compactNode compact node found) engine := by
  have hAsked : Surveys
      (do
        if ← isEmpty node then return Handle.empty
        else if ← isNullOnlyOr fallback node then epsCarrying (← forestOf node)
        else (plainOr fallback).compactParts compact' node found)
      (do
        if ← isEmpty node then return Handle.empty
        else if ← isNullOnly node then epsCarrying (← forestOf node)
        else plain.compactParts compact node found) engine := by
    refine (surveys_isEmpty hSurveyed hValid).bind fun _ asked hAsked => ?_
    refine alike_ite (hAsked.surveyed.surveys_pure _) ?_
    refine (surveys_isNullOnlyOr hAsked.surveyed (hAsked.valid hValid)).bind
      fun _ told hTold => ?_
    have hExtends := hAsked.trans hTold
    refine alike_ite ?_ (surveys_compactParts hCompact hTold.surveyed
      (hExtends.keeps.get? hNode) (hExtends.valid hValid))
    refine ((neutral_forestOf node).surveys hTold.surveyed).bind fun trees _ hAfter => ?_
    exact hAfter.surveyed.surveys_epsCarrying trees
  match found with
  | .empty => exact hSurveyed.surveys_pure _
  | .eps _ => exact hSurveyed.surveys_pure _
  | .token _ => exact hSurveyed.surveys_pure _
  | .union _ _ => exact hAsked
  | .sequence _ _ => exact hAsked
  | .repetition _ => exact hAsked
  | .reduction _ _ => exact hAsked
  | .delegate _ => exact hAsked

theorem surveys_compactWithin (hSurveyed : engine.Surveyed)
    (hValid : engine.grammar.Valid node) :
    Surveys ((plainOr fallback).compactWithin fuel node) (plain.compactWithin fuel node)
      engine := by
  induction fuel generalizing engine node with
  | zero => exact ⟨rfl, fun _ _ hRun => nomatch hRun⟩
  | succ fuel ih =>
      refine hSurveyed.surveys_recollected (neutral_rememberedCompaction _)
        (neutral_rememberCompaction _) fun after found hAfter hNode => ?_
      exact surveys_compactNode (fun _ _ => ih) hAfter.surveyed hNode (hAfter.valid hValid)

variable (hSurveyed : engine.Surveyed) (hValid : engine.grammar.Valid node)

include hSurveyed hValid

theorem surveys_derive :
    Surveys ((plainOr fallback).derive node token) (derive node token) engine := by
  refine Surveys.bind (neutral_get.surveys hSurveyed) fun _ _ hAfter => ?_
  exact surveys_deriveWithin hAfter.surveyed (hAfter.valid hValid)

theorem surveys_compact : Surveys ((plainOr fallback).compact node) (compact node) engine := by
  refine Surveys.bind (neutral_get.surveys hSurveyed) fun _ _ hAfter => ?_
  exact surveys_compactWithin hAfter.surveyed (hAfter.valid hValid)

end Recursions

section Runs

variable {root : Handle} {token : Λ.Token} {tokens : List Λ.Token}

/-- A run may go on from a node. -/
structure Ready (engine : Engine Λ) (node : Handle) : Prop where
  coherent : engine.Coherent
  valid : engine.grammar.Valid node
  surveyed : engine.Surveyed

/-- A sweep follows every collection, so a survey is left. -/
theorem Surveyed.attains_collectGarbage (hSurveyed : engine.Surveyed) (roots : List Handle) :
    Attains False (collectGarbage roots) engine fun _ after => after.Surveyed := by
  unfold collectGarbage collectNodes
  simp only [attains_bind, attains_build, attains_report, attains_get, attains_pure,
    attains_modifyGet]
  exact Grammar.Surveyed.collect hSurveyed roots

theorem Surveyed.attains_collectAfter (hSurveyed : engine.Surveyed) (steps : Nat)
    (node : Handle) : Attains False (collectAfter steps node) engine fun _ after =>
      after.Surveyed := by
  unfold collectAfter
  rw [attains_bind, attains_get]
  dsimp only
  split
  · exact (hSurveyed.attains_collectGarbage [node]).bind fun _ _ hAfter => attains_pure.mpr hAfter
  · exact attains_pure.mpr hSurveyed

/-- What a step of a run does alike leaves the run ready to go on, if it consumes a word and
leaves a survey. -/
theorem alike_of_consumes {word : List Λ.Token} {action' action : Action Λ Handle}
    {node : Handle}
    (hConsumes : Attains True action engine fun result after =>
      Consumes word engine node after result)
    (hAlike : Alike action' action engine fun _ after => after.Surveyed) :
    Alike action' action engine fun result after => after.Ready result := by
  refine ⟨hAlike.run, fun result after hRun => ?_⟩
  have hAfter := hConsumes.of_run hRun
  exact ⟨hAfter.coherent, hAfter.residual.valid, hAlike.post result after hRun⟩

theorem Ready.alike_get (hReady : engine.Ready node) :
    Alike get get engine fun _ after => after.Ready node := by
  refine ⟨rfl, fun _ _ hRun => ?_⟩
  cases hRun
  exact hReady

theorem Ready.alike_derive (hReady : engine.Ready node) :
    Alike ((plainOr fallback).derive node token) (derive node token) engine
      fun result after => after.Ready result := by
  refine alike_of_consumes (attains_derive hReady.coherent hReady.valid (fun _ => trivial)
    fun _ => trivial) ?_
  exact (surveys_derive hReady.surveyed hReady.valid).mono fun _ _ hAfter => hAfter.surveyed

theorem Ready.alike_compact (hReady : engine.Ready node) :
    Alike ((plainOr fallback).compact node) (compact node) engine
      fun result after => after.Ready result := by
  refine alike_of_consumes (attains_compact hReady.coherent hReady.valid (fun _ => trivial)
    fun _ => trivial) ?_
  exact (surveys_compact hReady.surveyed hReady.valid).mono fun _ _ hAfter => hAfter.surveyed

/-- A step ends with a report and perhaps a collection. -/
theorem Ready.alike_concluded (hReady : engine.Ready node) (event : Event Λ) (steps : Nat) :
    Alike
      (do
        report event
        collectAfter steps node
        return node)
      (do
        report event
        collectAfter steps node
        return node) engine fun result after => after.Ready result := by
  have hSelf : Consumes [] engine node engine node :=
    .of_agrees hReady.coherent rfl List.suffix_rfl hReady.valid fun _ _ => rfl
  refine alike_of_consumes (hSelf.attains_concluded event steps) ?_
  have hReported : Attains False (report event) engine fun _ after => after.Surveyed :=
    hReady.surveyed
  refine hReported.alike.bind fun _ _ hAfter => ?_
  exact (hAfter.attains_collectAfter steps node).alike.bind fun _ _ hAfter => alike_pure hAfter

theorem Ready.alike_recogniseStep (hReady : engine.Ready node) (steps : Nat) :
    Alike ((plainOr fallback).recogniseStep steps node token)
      (plain.recogniseStep steps node token) engine fun result after => after.Ready result := by
  refine hReady.alike_derive.bind fun derived middle hDerived => ?_
  exact hDerived.alike_get.bind fun _ _ hMiddle => hMiddle.alike_concluded _ _

theorem Ready.alike_parseStep (hReady : engine.Ready node) (consumed : Nat) :
    Alike ((plainOr fallback).parseStep consumed node token)
      (plain.parseStep consumed node token) engine fun result after => after.Ready result := by
  have hAdvance : Alike ((plainOr fallback).advance node token) (plain.advance node token)
      engine fun result after => after.Ready result := by
    refine hReady.alike_derive.bind fun derived middle hDerived => ?_
    refine hDerived.alike_get.bind fun _ _ hMiddle => ?_
    exact alike_ite hMiddle.alike_compact (alike_pure hMiddle)
  refine hAdvance.bind fun advanced middle hAdvanced => ?_
  exact hAdvanced.alike_get.bind fun _ _ hMiddle => hMiddle.alike_concluded _ _

theorem Ready.alike_recogniseFrom (hReady : engine.Ready node) (failure : Option CursorError)
    (steps : Nat) :
    Alike ((plainOr fallback).recogniseFrom failure tokens steps node)
      (plain.recogniseFrom failure tokens steps node) engine fun _ after =>
        after.Surveyed := by
  induction tokens generalizing engine node steps with
  | nil =>
      cases failure with
      | some error => exact alike_pure hReady.surveyed
      | none =>
          refine Alike.bind ((neutral_isNullable node).surveys hReady.surveyed)
            fun _ _ hAfter => ?_
          exact alike_pure hAfter.surveyed
  | cons token tokens ih =>
      exact (hReady.alike_recogniseStep steps).bind fun _ _ hNext => ih hNext (steps + 1)

theorem Ready.alike_parseFrom (hReady : engine.Ready node) (limit : Option Nat)
    (failure : Option CursorError) (consumed : Nat) :
    Alike ((plainOr fallback).parseFrom limit failure tokens consumed node)
      (plain.parseFrom limit failure tokens consumed node) engine
        fun _ after => after.Surveyed := by
  have hHalt {engine : Engine Λ} (hSurveyed : engine.Surveyed) (node : Handle)
      (consumed : Nat) :
      Alike (halt node consumed) (halt node consumed) engine fun _ after => after.Surveyed := by
    refine Alike.bind ((neutral_report _).surveys hSurveyed) fun _ _ hAfter => ?_
    exact alike_pure hAfter.surveyed
  induction tokens generalizing engine node consumed with
  | nil =>
      cases failure with
      | some error =>
          exact alike_ite (hHalt hReady.surveyed node consumed) (alike_pure hReady.surveyed)
      | none =>
          refine Alike.bind ((neutral_forestOf node).surveys hReady.surveyed)
            fun _ _ hAfter => ?_
          exact alike_pure hAfter.surveyed
  | cons token tokens ih =>
      refine alike_ite (hHalt hReady.surveyed node consumed) ?_
      exact (hReady.alike_parseStep consumed).bind fun _ _ hNext => ih hNext (consumed + 1)

/-- A run begins with a valid root, or not at all. -/
theorem alike_validated {run' run : Action Λ (Except ParseError α)}
    (hCoherent : engine.Coherent) (hSurveyed : engine.Surveyed)
    (hRun : engine.Ready root → Alike run' run engine fun _ after => after.Surveyed) :
    Alike (validated (Λ := Λ) root run') (validated (Λ := Λ) root run) engine
      fun _ after => after.Surveyed := by
  cases hRoot : engine.grammar.validate root with
  | ok _ =>
      have hAlike := hRun ⟨hCoherent, Grammar.validate_eq_ok_iff.mp hRoot, hSurveyed⟩
      refine ⟨?_, fun result after hFinished => ?_⟩
      · rw [run_validated_of_ok hRoot, run_validated_of_ok hRoot, hAlike.run]
      · rw [run_validated_of_ok hRoot] at hFinished
        exact hAlike.post result after hFinished
  | error error =>
      refine ⟨?_, fun result after hFinished => ?_⟩
      · rw [run_validated_of_error hRoot, run_validated_of_error hRoot]
      · rw [run_validated_of_error hRoot] at hFinished
        cases hFinished
        exact hSurveyed

theorem alike_parseWithLimit (hCoherent : engine.Coherent) (hSurveyed : engine.Surveyed)
    (input : Reading Λ.Token) (limit : Option Nat) :
    Alike ((plainOr fallback).parseWithLimit root input limit) (parseWithLimit root input limit)
      engine fun _ after => after.Surveyed :=
  alike_validated hCoherent hSurveyed fun hReady => hReady.alike_parseFrom _ _ 0

/-- An operation on validated nodes is the same with every fallback, and leaves a survey. -/
theorem alike_actionOr (fallback : Fallback Λ) (hCoherent : engine.Coherent)
    (hSurveyed : engine.Surveyed) (call : Call Λ)
    (hNodes : ∀ node ∈ call.nodes, engine.grammar.Valid node) :
    Alike (call.actionOr fallback) call.action engine fun _ after => after.Surveyed := by
  have hSelf {node : Handle} {nodes : List Handle} (hNode : call.nodes = node :: nodes) :
      engine.grammar.Valid node := hNodes node (by rw [hNode]; exact List.mem_cons_self)
  -- The result of an operation is not kept.
  have hForget {β : Type} {action' action : Action Λ β}
      (hAlike : Alike action' action engine fun _ after => after.Surveyed) :
      Alike (do let _ ← action') (do let _ ← action) engine fun _ after => after.Surveyed :=
    hAlike.bind fun _ _ hAfter => alike_pure hAfter
  have hExtends {β : Type} {action' action : Action Λ β}
      (hSurveys : Surveys action' action engine) :
      Alike (do let _ ← action') (do let _ ← action) engine fun _ after => after.Surveyed :=
    hForget (hSurveys.mono fun _ _ hAfter => hAfter.surveyed)
  cases call with
  | derive node token => exact hExtends (surveys_derive hSurveyed (hSelf rfl))
  | compact node => exact hExtends (surveys_compact hSurveyed (hSelf rfl))
  | isNullable node => exact hExtends ((neutral_isNullable node).surveys hSurveyed)
  | isEmpty node => exact hExtends (surveys_isEmpty hSurveyed (hSelf rfl))
  | isConsuming node =>
      exact hForget ((alike_isConsumingOr hSurveyed (hSelf rfl) fallback).mono
        fun _ _ hAfter => hAfter.1.surveyed)
  | isNullOnly node => exact hExtends (surveys_isNullOnlyOr hSurveyed (hSelf rfl))
  | forestOf node => exact hExtends ((neutral_forestOf node).surveys hSurveyed)
  | collectGarbage roots => exact hForget (hSurveyed.attains_collectGarbage roots).alike
  | recognises root input =>
      exact hForget (alike_validated hCoherent hSurveyed fun hReady =>
        hReady.alike_recogniseFrom _ 0)
  | parse root input =>
      refine hForget ((alike_parseWithLimit hCoherent hSurveyed input none).bind ?_)
      -- The outcome is only repackaged.
      rintro (error | (trees | ⟨node, consumed⟩)) after hAfter
      · exact alike_pure hAfter
      · exact alike_pure hAfter
      · exact alike_pure hAfter
  | parseWithLimit root input limit =>
      exact hForget (alike_parseWithLimit hCoherent hSurveyed input limit)

end Runs

end Engine

end DerivativeParsing
