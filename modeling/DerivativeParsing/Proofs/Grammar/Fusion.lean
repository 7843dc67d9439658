import DerivativeParsing.Engine.Compaction
import DerivativeParsing.Proofs.Engine.Action
import DerivativeParsing.Proofs.Grammar.Growth
import DerivativeParsing.Proofs.Grammar.Loops

namespace DerivativeParsing

/-!
# Fusing reducers

Composition of reducers is composition of what they do to forests
(`Reducer.applyAll_compose`), so all that counts of nested compositions is the chain of
reducers that they are made of (`Reducer.applyChain_flatten`).

Two places rely on this.  Compaction folds a reduction of a reduction into one, and gives
the trees of both (`Engine.exists_fusedReduction`).  The comparison of nodes looks at nested
reductions as one chain over a body, and the chain makes of the body's trees the trees of the
node (`Grammar.parses_iff_reductionChain`), whatever cycles there are.
-/

namespace Reducer

variable {Λ : Lexicon} {reducer first second : Reducer Λ} {chain later : List (Reducer Λ)}
  {forest : Forest Λ.Token} {tree : Tree Λ.Token}

/-- What the reducers of a chain, outermost first, make of a forest. -/
def applyChain (chain : List (Reducer Λ)) (forest : Forest Λ.Token) : Forest Λ.Token :=
  chain.foldr applyAll forest

@[simp]
theorem applyChain_nil : applyChain [] forest = forest := rfl

theorem applyChain_append :
    applyChain (chain ++ later) forest = applyChain chain (applyChain later forest) :=
  List.foldr_append

@[simp]
theorem applyAll_singleton : reducer.applyAll (Forest.singleton tree) = reducer.apply tree := by
  apply Forest.ext
  intro candidate
  simp

/-- A composition rewrites a forest as its parts do one after the other. -/
theorem applyAll_compose (outer inner : Reducer Λ) (forest : Forest Λ.Token) :
    (compose outer inner).applyAll forest = outer.applyAll (inner.applyAll forest) := by
  apply Forest.ext
  intro candidate
  simp only [mem_applyAll, mem_apply_compose]
  constructor
  · rintro ⟨tree, hTree, between, hBetween, hCandidate⟩
    exact ⟨between, ⟨tree, hTree, hBetween⟩, hCandidate⟩
  · rintro ⟨between, ⟨tree, hTree, hBetween⟩, hCandidate⟩
    exact ⟨tree, hTree, between, hBetween, hCandidate⟩

/-- The chain of a reducer does what the reducer does. -/
theorem applyChain_flatten (reducer : Reducer Λ) (forest : Forest Λ.Token) :
    applyChain reducer.flatten forest = reducer.applyAll forest := by
  induction reducer generalizing forest with
  | compose outer inner ihOuter ihInner =>
      rw [flatten, applyChain_append, ihInner, ihOuter, applyAll_compose]
  | _ => rfl

/-- Reducers with the same chain rewrite every forest alike. -/
theorem applyAll_eq_of_flatten_eq (hSame : first.flatten = second.flatten)
    (forest : Forest Λ.Token) : first.applyAll forest = second.applyAll forest := by
  rw [← applyChain_flatten, hSame, applyChain_flatten]

end Reducer

namespace Grammar

variable {Λ : Lexicon} {grammar : Grammar Λ} {handle target inner result body : Handle}
  {reducer : Reducer Λ} {reducers : List (Reducer Λ)} {passed : List Handle}
  {string : List Λ.Token} {tree : Tree Λ.Token}

/-- A reduction has the trees that its reducer makes of the inner node's trees. -/
theorem parses_reduction_iff (hNode : grammar.get? handle = some (.reduction inner reducer)) :
    grammar.Parses handle string tree ↔
      ∃ given, grammar.Parses inner string given ∧ tree ∈ reducer.apply given := by
  simp only [parses_iff, meaning_eq hNode]
  exact Iff.rfl

/-- A delegate has the trees of its target. -/
theorem Forwards.parses_iff (hForwards : grammar.Forwards handle target) :
    grammar.Parses handle string tree ↔ grammar.Parses target string tree := by
  simp only [Grammar.parses_iff, meaning_eq hForwards]
  exact Iff.rfl

/-- Following delegates leads to a node with the same trees, also in a cycle. -/
theorem Resolves.parses_iff (hResolves : grammar.Resolves passed handle result) :
    grammar.Parses handle string tree ↔ grammar.Parses result string tree := by
  induction hResolves with
  | stop _ => exact Iff.rfl
  | back _ _ => exact Iff.rfl
  | step hForwards _ _ ih => exact hForwards.parses_iff.trans ih

/-- The reducers that are collected below a node make its trees of the trees of the node at
which the collection ends. -/
theorem Chains.parses_iff (hChains : grammar.Chains passed handle reducers body) :
    grammar.Parses handle string tree ↔ ∃ given, grammar.Parses body string given ∧
      tree ∈ Reducer.applyChain reducers (Forest.singleton given) := by
  induction hChains generalizing tree with
  | stop _ => simp
  | back _ _ => simp
  | @step _ _ inner next body reducer reducers hNode _ hResolves _ ih =>
      simp only [parses_reduction_iff hNode, hResolves.parses_iff, ih,
        Reducer.applyChain_append, Reducer.applyChain_flatten, Reducer.mem_applyAll]
      constructor
      · rintro ⟨between, ⟨given, hGiven, hBetween⟩, hTree⟩
        exact ⟨given, hGiven, between, hBetween, hTree⟩
      · rintro ⟨given, hGiven, between, hBetween, hTree⟩
        exact ⟨between, ⟨given, hGiven, hBetween⟩, hTree⟩

/-- The reduction chain of a node makes its trees of the trees of the chain's body. -/
theorem parses_iff_reductionChain (grammar : Grammar Λ) (handle : Handle) :
    grammar.Parses handle string tree ↔
      ∃ given, grammar.Parses (grammar.reductionChain handle).2 string given ∧
        tree ∈ Reducer.applyChain (grammar.reductionChain handle).1
          (Forest.singleton given) :=
  (grammar.resolves_resolve handle).parses_iff.trans
    (grammar.chains_reductionChain handle).parses_iff

end Grammar

namespace Engine

variable {Λ : Lexicon} {engine : Engine Λ} {inner : Handle} {node : Node Λ}

/-- A fused reduction is a new node with the trees that the reducer makes of the inner node's
trees. -/
theorem exists_fusedReduction (hNode : engine.grammar.get? inner = some node)
    (reducer : Reducer Λ) :
    ∃ fused after, (fusedReduction inner reducer).run engine = .ok fused after ∧
      engine.grammar.Keeps after.grammar ∧
      ∀ string tree, after.grammar.Parses fused string tree ↔
        ∃ given, after.grammar.Parses inner string given ∧ tree ∈ reducer.apply given := by
  -- Whatever is built, the inner node stays what it is.
  have hBuilt (built : Node Λ) :
      (engine.grammar.alloc built .derived).2.get? engine.grammar.nextHandle = some built ∧
        (engine.grammar.alloc built .derived).2.get? inner = some node :=
    ⟨by rw [Grammar.get?_alloc, if_pos rfl],
      (Grammar.keeps_alloc engine.grammar built .derived).get? hNode⟩
  have hAttains : Attains False (fusedReduction inner reducer) engine fun fused after =>
      engine.grammar.Keeps after.grammar ∧
        ∀ string tree, after.grammar.Parses fused string tree ↔
          ∃ given, after.grammar.Parses inner string given ∧ tree ∈ reducer.apply given := by
    unfold fusedReduction
    rw [attains_bind, attains_node hNode]
    split
    · next innermost innerReducer =>
        refine attains_alloc.mpr ⟨Grammar.keeps_alloc _ _ _, fun string tree => ?_⟩
        obtain ⟨hFused, hInner⟩ :=
          hBuilt (.reduction innermost (.compose reducer innerReducer))
        simp only [Grammar.parses_reduction_iff hFused, Grammar.parses_reduction_iff hInner,
          Reducer.mem_apply_compose]
        constructor
        · rintro ⟨given, hGiven, between, hBetween, hTree⟩
          exact ⟨between, ⟨given, hGiven, hBetween⟩, hTree⟩
        · rintro ⟨between, ⟨given, hGiven, hBetween⟩, hTree⟩
          exact ⟨given, hGiven, between, hBetween, hTree⟩
    · refine attains_alloc.mpr ⟨Grammar.keeps_alloc _ _ _, fun string tree => ?_⟩
      exact Grammar.parses_reduction_iff (hBuilt (.reduction inner reducer)).1
  exact hAttains.exists_run id

end Engine

namespace Reducer

variable {Λ : Lexicon}

/-- How compositions are nested never matters to trees: not to what reducers with one chain
make of a tree or a forest, not to the trees of a fused reduction, and not to those of nodes
whose reductions form one chain over bodies with the same trees. -/
theorem chains_determine_trees :
    (∀ (outer inner : Reducer Λ) (forest : Forest Λ.Token),
      (compose outer inner).applyAll forest = outer.applyAll (inner.applyAll forest)) ∧
    (∀ first second : Reducer Λ, first.flatten = second.flatten →
      (∀ tree, first.apply tree = second.apply tree) ∧
        ∀ forest, first.applyAll forest = second.applyAll forest) ∧
    (∀ (engine : Engine Λ) (inner : Handle) (node : Node Λ) (reducer : Reducer Λ),
      engine.grammar.get? inner = some node →
      ∃ fused after, (Engine.fusedReduction inner reducer).run engine = .ok fused after ∧
        engine.grammar.Keeps after.grammar ∧
        ∀ string tree, after.grammar.Parses fused string tree ↔
          ∃ given, after.grammar.Parses inner string given ∧ tree ∈ reducer.apply given) ∧
    (∀ (grammar : Grammar Λ) (first second : Handle),
      (grammar.reductionChain first).1 = (grammar.reductionChain second).1 →
      (∀ string tree, grammar.Parses (grammar.reductionChain first).2 string tree ↔
        grammar.Parses (grammar.reductionChain second).2 string tree) →
      ∀ string tree, grammar.Parses first string tree ↔ grammar.Parses second string tree) := by
  refine ⟨applyAll_compose, fun first second hSame => ⟨fun tree => ?_, ?_⟩,
    fun engine inner node reducer hNode => Engine.exists_fusedReduction hNode reducer,
    fun grammar first second hReducers hBodies string tree => ?_⟩
  · rw [← applyAll_singleton, applyAll_eq_of_flatten_eq hSame, applyAll_singleton]
  · exact applyAll_eq_of_flatten_eq hSame
  · rw [grammar.parses_iff_reductionChain, grammar.parses_iff_reductionChain, hReducers]
    exact exists_congr fun given => and_congr_left' (hBodies string given)

end Reducer

namespace Wrapping

/-- Put a tree into a list of its own. -/
def wrap : Reducer Lexicon.characters := .map ⟨0, .wrap⟩

/-- Pair a tree with an empty list. -/
def close : Reducer Lexicon.characters := .append (Forest.singleton (.list []))

/-- Wrapping, closing and folding, with the first two put together first. -/
def early : Reducer Lexicon.characters := .compose .cons (.compose close wrap)

/-- Wrapping, closing and folding, with the last two put together first. -/
def late : Reducer Lexicon.characters := .compose (.compose .cons close) wrap

/-- A letter, and two nodes over it: one reduction that does everything, and a reduction of a
reduction. -/
def grammar : Grammar Lexicon.characters :=
  let (letter, grammar) := Grammar.initial.literal 'a'
  let (_, grammar) := grammar.reduction letter late
  let (closed, grammar) := grammar.reduction letter (.compose close wrap)
  (grammar.reduction closed .cons).2

/-- A new engine over the grammar. -/
def engine : Engine Lexicon.characters := { grammar := grammar }

end Wrapping

namespace Reducer

theorem chains_determine_trees_wrapping :
    Wrapping.early ≠ Wrapping.late ∧
      (∀ forest, Wrapping.early.applyAll forest = Wrapping.late.applyAll forest) ∧
      (∀ string tree, Wrapping.grammar.Parses ⟨3, 0⟩ string tree ↔
        Wrapping.grammar.Parses ⟨5, 0⟩ string tree) ∧
      ∃ fused after,
        (Engine.fusedReduction ⟨4, 0⟩ .cons).run Wrapping.engine = .ok fused after ∧
        after.grammar.get? fused = some (.reduction ⟨2, 0⟩ Wrapping.early) ∧
        ∀ string tree, after.grammar.Parses fused string tree ↔
          after.grammar.Parses ⟨5, 0⟩ string tree := by
  obtain ⟨-, hSame, hFused, hChains⟩ := chains_determine_trees (Λ := Lexicon.characters)
  have hInner : Wrapping.grammar.get? ⟨4, 0⟩ =
      some (.reduction ⟨2, 0⟩ (.compose Wrapping.close Wrapping.wrap)) := rfl
  have hNested : Wrapping.grammar.get? ⟨5, 0⟩ = some (.reduction ⟨4, 0⟩ .cons) := rfl
  have hBodies : (Wrapping.grammar.reductionChain ⟨3, 0⟩).2 =
      (Wrapping.grammar.reductionChain ⟨5, 0⟩).2 := by decide
  obtain ⟨fused, after, hRun, hKeeps, hTrees⟩ := hFused Wrapping.engine ⟨4, 0⟩ _ .cons hInner
  refine ⟨by decide, (hSame _ _ rfl).2, hChains _ _ _ (by decide) fun string tree => ?_,
    fused, after, hRun, ?_, fun string tree => ?_⟩
  · rw [hBodies]
  · cases hRun
    rfl
  · rw [hTrees, Grammar.parses_reduction_iff (hKeeps.get? hNested)]

end Reducer

end DerivativeParsing
