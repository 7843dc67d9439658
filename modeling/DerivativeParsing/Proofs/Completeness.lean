import DerivativeParsing.Proofs.Analysis.Finiteness
import DerivativeParsing.Proofs.Tables

namespace DerivativeParsing

/-!
# Finite forests and the limit on passes

A forest query whose forests are all finite finds every tree, and remembers what it found,
if its limit leaves it enough passes (`finite_forests_converge`).  The limit that grows with
the number of nodes is enough by itself if the reducers on cycles make trees larger.  In
general it has to exceed the number of trees, and without a limit the engine's patience has
to.

A reducer on a cycle that makes trees smaller can be applied more often than there are nodes
or passes, although there are finitely many trees.  Such a query is stopped before it has
found them (`finite_forest_cut_short`).
-/

open Fixpoint

namespace Engine

variable {Λ : Lexicon} {engine : Engine Λ} {node : Handle}

/-- When a limited forest query is stopped. -/
theorem isReached_forestLimit {configuration : Configuration}
    (hLimit : configuration.forestPassLimit ≠ 0) {passes size : Nat} :
    (forestLimit configuration).isReached passes size = true ↔
      max configuration.forestPassLimit (size + 2) ≤ passes := by
  unfold forestLimit
  split
  · next hZero => exact absurd hZero hLimit
  · simp [PassLimit.ofFloor, PassLimit.isReached]

/-- A limited forest query converges if its limit exceeds the rounds that it takes to find
all trees, whatever the number of evaluated nodes. -/
theorem exists_converged_of_limit {most : Nat} (hValid : engine.grammar.Valid node)
    (hPaced : engine.grammar.Paced engine.tables.forest node)
    (hMost : engine.grammar.Suffices engine.tables.forest node most)
    (hLimit : engine.configuration.forestPassLimit ≠ 0)
    (hEnough : most < max engine.configuration.forestPassLimit
      ((engine.grammar.evaluated engine.tables.forest node).ncard + 2)) :
    ∃ solution notes, (engine.grammar.emptyMatches engine.tables.forest).solve
        (forestBudget engine) (forestLimit engine.configuration) node =
          (.ok solution, notes) ∧ solution.converged = true := by
  obtain ⟨solution, notes, hSolve⟩ := exists_solve_forest engine.tables.forest hValid hLimit
  refine ⟨solution, notes, hSolve, hPaced.converged hMost (fun passes size hSize hReached => ?_)
    hSolve⟩
  have hPasses := (isReached_forestLimit hLimit).mp hReached
  have hCount : (engine.grammar.evaluated engine.tables.forest node).ncard ≤ size := hSize
  omega

/-- A forest query without a limit converges if the engine's patience exceeds the rounds
that it takes to find all trees. -/
theorem exists_converged_of_patience {most : Nat}
    (hPaced : engine.grammar.Paced engine.tables.forest node)
    (hMost : engine.grammar.Suffices engine.tables.forest node most)
    (hLimit : engine.configuration.forestPassLimit = 0) (hEnough : most < engine.patience) :
    ∃ solution notes, (engine.grammar.emptyMatches engine.tables.forest).solve
        (forestBudget engine) (forestLimit engine.configuration) node =
          (.ok solution, notes) ∧ solution.converged = true := by
  have hUnlimited : forestLimit engine.configuration = .unbounded := by
    simp [forestLimit, hLimit]
  have hPasses : most < (forestBudget engine).passes := by
    simpa [forestBudget, hLimit] using hEnough
  have hDepth : engine.grammar.handles.length < (forestBudget engine).depth := by
    have hLength := engine.grammar.length_handles_le
    show engine.grammar.handles.length < engine.grammar.capacity + 2
    omega
  rw [hUnlimited]
  obtain ⟨solution, notes, hSolve⟩ :=
    hPaced.exists_solve hMost (fun _ h => h.mem_handles) hDepth hPasses
  refine ⟨solution, notes, hSolve, hPaced.converged hMost (fun passes size _ hReached => ?_)
    hSolve⟩
  cases hReached

/-- A query for finite forests finds all the trees and remembers them, if reducers on cycles
make trees larger, or if more passes are allowed than there are trees in reach. -/
theorem finite_forests_converge (hReached : engine.Reached)
    (hNode : engine.grammar.validate node = .ok ())
    (hFinite : ∀ handle, engine.grammar.Reaches node handle →
      {tree | engine.grammar.Bears handle tree}.Finite)
    (hEnough :
      1 ≤ engine.configuration.forestPassLimit ∧
          (∃ weight, engine.grammar.Swells weight node) ∨
        (engine.grammar.crop node).ncard < engine.configuration.forestPassLimit ∨
        engine.configuration.forestPassLimit = 0 ∧
          (engine.grammar.crop node).ncard < engine.patience) :
    ∃ trees after, (forestOf node).run engine = .ok trees after ∧
      (∀ tree, tree ∈ trees ↔ engine.grammar.Bears node tree) ∧
      after.tables.forest.peek? node = some trees := by
  have hInformed : engine.Informed := hReached.coherent.informed
  have hValid : engine.grammar.Valid node := Grammar.validate_eq_ok_iff.mp hNode
  have hKnown (handle : Handle) (trees : Forest Λ.Token) (tree : Tree Λ.Token)
      (hPeek : engine.tables.forest.peek? handle = some trees) :
      tree ∈ trees ↔ engine.grammar.Bears handle tree :=
    ((hInformed.forest handle trees hPeek).2 tree).trans Grammar.bears_iff.symm
  cases hPeek : engine.tables.forest.peek? node with
  | some found =>
      obtain ⟨trees, after, hRun, rfl, hFound⟩ :=
        (attains_forestOf_of_peek hPeek).exists_run not_false
      exact ⟨trees, after, hRun, fun tree => hKnown node trees tree hPeek, hFound⟩
  | none =>
      have hPaced : engine.grammar.Paced engine.tables.forest node :=
        Grammar.paced_emptyMatches hValid hKnown
      have hCrop := Grammar.finite_crop hValid hFinite
      have hCounted := Grammar.suffices_ncard_crop hPaced hCrop
      have hConverges : ∃ solution notes,
          (engine.grammar.emptyMatches engine.tables.forest).solve (forestBudget engine)
              (forestLimit engine.configuration) node = (.ok solution, notes) ∧
            solution.converged = true := by
        rcases hEnough with ⟨hLimit, weight, hSwells⟩ | hLimit | ⟨hLimit, hPatience⟩
        · exact exists_converged_of_limit hValid hPaced
            (Grammar.suffices_ncard_evaluated hPaced hSwells hFinite) (by omega) (by omega)
        · exact exists_converged_of_limit hValid hPaced hCounted (by omega) (by omega)
        · exact exists_converged_of_patience hPaced hCounted hLimit hPatience
      obtain ⟨solution, notes, hSolve, hConverged⟩ := hConverges
      obtain ⟨trees, after, hRun, rfl, hFound⟩ :=
        (attains_forestOf_of_solve hPeek hSolve).exists_run not_false
      obtain ⟨-, hExact⟩ := hInformed.solve_forest hValid hSolve
      obtain ⟨-, hTrees⟩ := hExact hConverged node solution.value List.mem_cons_self
      refine ⟨solution.value, after, hRun, fun tree => ?_, ?_⟩
      · exact (hTrees tree).trans Grammar.bears_iff.symm
      · rw [hFound, if_pos hConverged]

/-- Only finite forests are remembered. -/
theorem finite_bears_of_remembered (hInformed : engine.Informed)
    (hNode : engine.grammar.validate node = .ok ())
    (hLimit : engine.configuration.forestPassLimit ≠ 0)
    (hKept : (engine.afterwards (forestOf node)).tables.forest.peek? node ≠ none) :
    {tree | engine.grammar.Bears node tree}.Finite := by
  have hValid : engine.grammar.Valid node := Grammar.validate_eq_ok_iff.mp hNode
  obtain ⟨trees, after, hRun, -, hComplete⟩ := exists_forestOf hInformed hValid hLimit
  have hAfter : engine.afterwards (forestOf node) = after := afterwards_of_run hRun
  rw [hAfter] at hKept
  exact (List.finite_toSet trees.trees).subset (hComplete hKept)

end Engine

namespace Winding

/-- A rule that leads back to itself through a reducer. -/
def rule : Handle := ⟨2, 0⟩

/-- The nodes behind the rule: a letter and the rule again, with a tree appended, or
nothing. -/
def untied : Grammar Lexicon.characters :=
  let (rule, grammar) := Grammar.initial.delegate
  let (letter, grammar) := grammar.literal 'a'
  let (more, grammar) := grammar.sequence letter rule
  let (longer, grammar) := grammar.reduction more (.append (Forest.singleton .nil))
  (grammar.union longer Handle.eps).2

def grammar : Grammar Lexicon.characters := untied.patch rule (.delegate (some ⟨6, 0⟩))

/-- What the rule reaches. -/
def nodes : List Handle := [rule, ⟨3, 0⟩, ⟨4, 0⟩, ⟨5, 0⟩, ⟨6, 0⟩, Handle.eps]

/-- A new engine over the grammar that stops forest queries as early as it may. -/
def engine : Engine Lexicon.characters :=
  { grammar := grammar, configuration := { forestPassLimit := 1 } }

theorem layered : ∀ handle ∈ nodes, grammar.layered nodes handle = true := by decide

theorem reached : engine.Reached := by
  have hUntied : untied.Built :=
    .alloc _ _ (.alloc _ _ (.alloc _ _ (.alloc _ _ (.alloc _ _ .initial))))
  have hSet : untied.setTarget rule ⟨6, 0⟩ = .ok grammar := rfl
  exact .fresh _ _ (.setTarget hUntied hSet)

theorem finite_bears (handle : Handle) (hReaches : grammar.Reaches rule handle) :
    {tree | grammar.Bears handle tree}.Finite := by
  have hMem : handle ∈ nodes := Grammar.mem_of_layered layered List.mem_cons_self hReaches
  have hNodes : ∀ handle ∈ nodes, engine.grammar.validate handle = .ok () ∧
      (engine.afterwards (Engine.forestOf handle)).tables.forest.peek? handle ≠ none := by
    decide +kernel
  obtain ⟨hNode, hKept⟩ := hNodes handle hMem
  exact Engine.finite_bears_of_remembered reached.coherent.informed hNode (by decide) hKept

theorem swells_rule : grammar.Swells sizeOf rule := by
  refine Grammar.swells_of_pairs fun handle inner reducer hReaches hNode _ => ?_
  have hMem : handle ∈ nodes := Grammar.mem_of_layered layered List.mem_cons_self hReaches
  -- There is one reducer in reach, and it appends.
  have hReducers : ∀ handle ∈ nodes, ∀ inner reducer,
      grammar.get? handle = some (.reduction inner reducer) →
        reducer = .append (Forest.singleton .nil) := by
    simp only [nodes, List.forall_mem_cons]
    exact ⟨nofun, nofun, nofun, fun _ _ h => by cases h; rfl, nofun, nofun, nofun⟩
  rw [hReducers handle hMem inner reducer hNode]
  exact trivial

end Winding

namespace Engine

theorem finite_forests_converge_winding :
    Winding.engine.Reached ∧ Winding.engine.grammar.validate Winding.rule = .ok () ∧
      (∀ handle, Winding.engine.grammar.Reaches Winding.rule handle →
        {tree | Winding.engine.grammar.Bears handle tree}.Finite) ∧
      1 ≤ Winding.engine.configuration.forestPassLimit ∧
      Winding.engine.grammar.Swells sizeOf Winding.rule ∧
      ∃ trees after, (forestOf Winding.rule).run Winding.engine = .ok trees after ∧
        (∀ tree, tree ∈ trees ↔ Winding.engine.grammar.Bears Winding.rule tree) ∧
        after.tables.forest.peek? Winding.rule = some trees := by
  have hRule : Winding.engine.grammar.validate Winding.rule = .ok () := by decide +kernel
  exact ⟨Winding.reached, hRule, Winding.finite_bears, by decide, Winding.swells_rule,
    finite_forests_converge Winding.reached hRule Winding.finite_bears
      (Or.inl ⟨by decide, sizeOf, Winding.swells_rule⟩)⟩

end Engine

namespace Peeling

/-- A rule whose trees are those of a seed, and the left parts of its own. -/
def rule : Handle := ⟨3, 0⟩

/-- A tree from which so many layers can be peeled. -/
def layers : Nat → Tree Lexicon.characters.Token
  | 0 => .leaf 'a'
  | depth + 1 => .pair (layers depth) (.leaf 'b')

/-- The nodes behind the rule. -/
def untied : Grammar Lexicon.characters :=
  let (seed, grammar) := Grammar.initial.epsWith (Forest.singleton (layers 16)) .grammar
  let (rule, grammar) := grammar.delegate
  let (peeled, grammar) := grammar.reduction rule (.map ⟨0, .left⟩)
  (grammar.union peeled seed).2

def grammar : Grammar Lexicon.characters := untied.patch rule (.delegate (some ⟨5, 0⟩))

/-- What the rule reaches. -/
def nodes : List Handle := [rule, ⟨2, 0⟩, ⟨4, 0⟩, ⟨5, 0⟩]

/-- A new engine over the grammar, with the standard configuration. -/
def engine : Engine Lexicon.characters := { grammar := grammar }

/-- A new engine over the grammar that allows for more passes. -/
def generous : Engine Lexicon.characters :=
  { grammar := grammar, configuration := { forestPassLimit := 20 } }

theorem layered : ∀ handle ∈ nodes, grammar.layered nodes handle = true := by decide +kernel

theorem built : grammar.Built := by
  have hUntied : untied.Built := .alloc _ _ (.alloc _ _ (.alloc _ _ (.alloc _ _ .initial)))
  have hSet : untied.setTarget rule ⟨5, 0⟩ = .ok grammar := rfl
  exact .setTarget hUntied hSet

theorem reached_generous : generous.Reached := .fresh _ _ built

theorem finite_bears (handle : Handle) (hReaches : grammar.Reaches rule handle) :
    {tree | grammar.Bears handle tree}.Finite := by
  have hMem : handle ∈ nodes := Grammar.mem_of_layered layered List.mem_cons_self hReaches
  have hNodes : ∀ handle ∈ nodes, generous.grammar.validate handle = .ok () ∧
      (generous.afterwards (Engine.forestOf handle)).tables.forest.peek? handle ≠ none := by
    decide +kernel
  obtain ⟨hNode, hKept⟩ := hNodes handle hMem
  exact Engine.finite_bears_of_remembered reached_generous.coherent.informed hNode (by decide)
    hKept

/-- Peeling a tree of the rule to the core gives trees of the rule. -/
theorem bears_core (depth : Nat) (hLayers : grammar.Bears rule (layers depth)) :
    grammar.Bears rule (layers 0) := by
  induction depth with
  | zero => exact hLayers
  | succ depth ih =>
      have hPeeled : grammar.Bears ⟨4, 0⟩ (layers depth) :=
        Grammar.bears_of_layer rfl
          ⟨layers (depth + 1), ⟨rfl, hLayers⟩, Reducer.mem_apply_map.mpr rfl⟩
      have hEither : grammar.Bears ⟨5, 0⟩ (layers depth) :=
        Grammar.bears_of_layer rfl (Or.inl ⟨rfl, hPeeled⟩)
      exact ih (Grammar.bears_of_layer rfl ⟨rfl, hEither⟩)

theorem bears_seed : grammar.Bears rule (layers 16) := by
  have hSeed : grammar.Bears ⟨2, 0⟩ (layers 16) :=
    Grammar.bears_of_layer rfl ⟨rfl, Forest.mem_singleton.mpr rfl⟩
  have hEither : grammar.Bears ⟨5, 0⟩ (layers 16) :=
    Grammar.bears_of_layer rfl (Or.inr ⟨rfl, hSeed⟩)
  exact Grammar.bears_of_layer rfl ⟨rfl, hEither⟩

end Peeling

/-- A query for finite forests is stopped by the standard limit, and misses a tree. -/
theorem Engine.finite_forest_cut_short :
    Peeling.engine.Reached ∧ Peeling.engine.configuration = {} ∧
      Peeling.engine.grammar.validate Peeling.rule = .ok () ∧
      (∀ handle, Peeling.engine.grammar.Reaches Peeling.rule handle →
        {tree | Peeling.engine.grammar.Bears handle tree}.Finite) ∧
      Peeling.engine.grammar.Bears Peeling.rule (.leaf 'a') ∧
      ∃ trees after, (forestOf Peeling.rule).run Peeling.engine = .ok trees after ∧
        .leaf 'a' ∉ trees ∧ after.tables.forest.peek? Peeling.rule = none := by
  have hReached : Peeling.engine.Reached := .fresh _ _ Peeling.built
  have hRule : Peeling.engine.grammar.validate Peeling.rule = .ok () := by decide +kernel
  obtain ⟨trees, after, hRun, -, -⟩ := exists_forestOf hReached.coherent.informed
    (Grammar.validate_eq_ok_iff.mp hRule) (by decide)
  have hStopped : (Peeling.engine.afterwards (forestOf Peeling.rule)).tables.forest.peek?
      Peeling.rule = none := by decide +kernel
  have hMissing : ∀ trees ∈ (forestOf Peeling.rule).run' Peeling.engine,
      .leaf 'a' ∉ trees.trees := by decide +kernel
  refine ⟨hReached, rfl, hRule, Peeling.finite_bears, Peeling.bears_core 16 Peeling.bears_seed,
    trees, after, hRun, hMissing trees (run'_eq_some hRun), ?_⟩
  rw [afterwards_of_run hRun] at hStopped
  exact hStopped

end DerivativeParsing
