import DerivativeParsing.Proofs.Correctness

namespace DerivativeParsing

/-!
# Derivatives and compacted nodes are exact

Whatever an engine did before, the derivative of a validated node by a token accepts
exactly what the node accepts after the token, and parses it into the same trees unless a
forest query was stopped (`derive_iff`).  The nodes that were live stay live, and none of
them changes.

The compacted form of a node stands for the node itself in the same sense (`compact_iff`),
whichever of its rewritings applied below it.
-/

namespace Engine

variable {Λ : Lexicon} {engine : Engine Λ} {node : Handle}

/-- The derivative of a node stands for what the node leaves after the token, and taking it
leaves every live node as it is. -/
theorem derive_iff (hReached : engine.Reached)
    (hLimit : 1 ≤ engine.configuration.forestPassLimit)
    (hNode : engine.grammar.validate node = .ok ())
    (hGuarded : engine.grammar.Guarded node) (token : Λ.Token) :
    ∃ derivative after, (derive node token).run engine = .ok derivative after ∧
      (∀ string, after.grammar.Accepts derivative string ↔
        engine.grammar.Accepts node (token :: string)) ∧
      (after.Untruncated → ∀ string tree, after.grammar.Parses derivative string tree ↔
        engine.grammar.Parses node (token :: string) tree) ∧
      ∀ handle found, engine.grammar.get? handle = some found →
        after.grammar.get? handle = some found := by
  have hCoherent := hReached.coherent
  obtain ⟨derivative, after, hRun, hYields⟩ :=
    (yields_derive hCoherent (Grammar.validate_eq_ok_iff.mp hNode) id
      (absurd hGuarded)).exists_run (Nat.one_le_iff_ne_zero.mp hLimit)
  have hResidual := (hYields.consumes hCoherent).residual
  obtain ⟨_, hUnderway, -, -⟩ := hYields
  refine ⟨derivative, after, hRun, fun string => hResidual.accepts_iff,
    fun hExact string tree => hResidual.parses_iff hExact, fun handle found hFound => ?_⟩
  exact hUnderway.keeps.get? hFound

end Engine

namespace Tangle

/-- The engine once it took the derivative of the rule by a letter. -/
def begun : Engine Lexicon.characters := engine.afterwards (Engine.Call.derive rule 'a').action

/-- The derivative of the rule by a letter. -/
def rest : Handle := ⟨9, 0⟩

/-- What the derivative reaches. -/
def restNodes : List Handle := rest :: ⟨6, 0⟩ :: ⟨7, 0⟩ :: ⟨8, 0⟩ :: nodes

theorem reached_begun : begun.Reached :=
  reached.afterwards (.derive rule 'a') (List.forall_mem_singleton.mpr validate_rule)
    (by decide +kernel)

theorem layered_begun : ∀ handle ∈ restNodes, begun.grammar.layered restNodes handle = true := by
  decide +kernel

theorem validate_rest : begun.grammar.validate rest = .ok () :=
  Grammar.validate_eq_ok_iff.mpr (Grammar.valid_of_layered layered_begun List.mem_cons_self)

theorem guarded_rest : begun.grammar.Guarded rest :=
  Grammar.guarded_of_layered layered_begun List.mem_cons_self

/-- Two more letters, each put behind what there is. -/
theorem parses_rest : begun.grammar.Parses rest ['a', 'a'] leftmost := by
  have hNodes : begun.grammar.get? rest = some (.union ⟨7, 0⟩ ⟨8, 0⟩) ∧
      begun.grammar.get? ⟨6, 0⟩ = some (.delegate (some rest)) ∧
      begun.grammar.get? ⟨7, 0⟩ = some (.eps (Forest.singleton (.leaf 'a'))) ∧
      begun.grammar.get? ⟨8, 0⟩ = some (.sequence ⟨6, 0⟩ rule) ∧
      begun.grammar.get? rule = some (.delegate (some ⟨5, 0⟩)) ∧
      begun.grammar.get? ⟨5, 0⟩ = some (.union ⟨3, 0⟩ ⟨4, 0⟩) ∧
      begun.grammar.get? ⟨3, 0⟩ = some (.token (.literal 'a')) := by decide +kernel
  obtain ⟨hRest, hAgain, hNone, hMore, hRule, hUnion, hLetter⟩ := hNodes
  have hOne : begun.grammar.Parses rule ['a'] (.leaf 'a') :=
    .delegate hRule (.left hUnion (.token hLetter rfl))
  have hNext {string : List Char} {tree : Tree Lexicon.characters.Token}
      (hTree : begun.grammar.Parses rest string tree) :
      begun.grammar.Parses rest (string ++ ['a']) (.pair tree (.leaf 'a')) :=
    .right hRest (.sequence hMore (.delegate hAgain hTree) hOne)
  exact hNext (hNext (.left hRest (.eps hNone (Forest.mem_singleton.mpr rfl))))

end Tangle

namespace Engine

theorem derive_iff_tangle :
    Tangle.begun.Reached ∧ 1 ≤ Tangle.begun.configuration.forestPassLimit ∧
      Tangle.begun.grammar.validate Tangle.rest = .ok () ∧
      Tangle.begun.grammar.Guarded Tangle.rest ∧
      ∃ derivative after, (derive Tangle.rest 'a').run Tangle.begun = .ok derivative after ∧
        after.Untruncated ∧
        (∀ string, after.grammar.Accepts derivative string ↔
          Tangle.begun.grammar.Accepts Tangle.rest ('a' :: string)) ∧
        (∀ string tree, after.grammar.Parses derivative string tree ↔
          Tangle.begun.grammar.Parses Tangle.rest ('a' :: string) tree) ∧
        after.grammar.Parses derivative ['a'] Tangle.leftmost ∧
        after.grammar.get? Tangle.rest = some (.union ⟨7, 0⟩ ⟨8, 0⟩) := by
  have hLimit : 1 ≤ Tangle.begun.configuration.forestPassLimit := by decide +kernel
  have hUntruncated : (Tangle.begun.afterwards (derive Tangle.rest 'a')).Untruncated := by
    decide +kernel
  have hRest : Tangle.begun.grammar.get? Tangle.rest = some (.union ⟨7, 0⟩ ⟨8, 0⟩) := by
    decide +kernel
  obtain ⟨derivative, after, hRun, hAccepts, hParses, hKeeps⟩ := derive_iff
    Tangle.reached_begun hLimit Tangle.validate_rest Tangle.guarded_rest 'a'
  rw [afterwards_of_run hRun] at hUntruncated
  exact ⟨Tangle.reached_begun, hLimit, Tangle.validate_rest, Tangle.guarded_rest, derivative,
    after, hRun, hUntruncated, hAccepts, hParses hUntruncated,
    (hParses hUntruncated ['a'] Tangle.leftmost).mpr Tangle.parses_rest, hKeeps _ _ hRest⟩

variable {Λ : Lexicon} {engine : Engine Λ} {node : Handle}

/-- The compacted form of a node accepts and parses what the node does, and compacting it
leaves every live node as it is. -/
theorem compact_iff (hReached : engine.Reached)
    (hLimit : 1 ≤ engine.configuration.forestPassLimit)
    (hNode : engine.grammar.validate node = .ok ())
    (hGuarded : engine.grammar.Guarded node) :
    ∃ compacted after, (compact node).run engine = .ok compacted after ∧
      (∀ string, after.grammar.Accepts compacted string ↔
        engine.grammar.Accepts node string) ∧
      (after.Untruncated → ∀ string tree, after.grammar.Parses compacted string tree ↔
        engine.grammar.Parses node string tree) ∧
      ∀ handle found, engine.grammar.get? handle = some found →
        after.grammar.get? handle = some found := by
  have hCoherent := hReached.coherent
  have hValid : engine.grammar.Valid node := Grammar.validate_eq_ok_iff.mp hNode
  have hLimited : engine.configuration.forestPassLimit ≠ 0 := by omega
  obtain ⟨compacted, after, hRun, hYields⟩ :=
    (yields_compact hCoherent hValid id (absurd hGuarded)).exists_run hLimited
  -- A residual by the empty word stands for the node itself.
  have hResidual : engine.grammar.Residual after.Untruncated after.grammar [] node compacted :=
    (hYields.consumes hCoherent).residual
  obtain ⟨_, hUnderway, -, -⟩ := hYields
  have hAccepts (string : List Λ.Token) :
      after.grammar.Accepts compacted string ↔ engine.grammar.Accepts node string :=
    hResidual.accepts_iff
  have hParses (hExact : after.Untruncated) (string : List Λ.Token) (tree : Tree Λ.Token) :
      after.grammar.Parses compacted string tree ↔ engine.grammar.Parses node string tree :=
    hResidual.parses_iff hExact
  have hKeeps (handle : Handle) (found : Node Λ)
      (hFound : engine.grammar.get? handle = some found) :
      after.grammar.get? handle = some found := hUnderway.keeps.get? hFound
  exact ⟨compacted, after, hRun, hAccepts, hParses, hKeeps⟩

end Engine

namespace Tangle

/-- The engine once it took the derivative by another letter, for which it needed a forest. -/
def halfway : Engine Lexicon.characters := begun.afterwards (Engine.Call.derive rest 'a').action

/-- The derivative of the rule by two letters. -/
def remainder : Handle := ⟨20, 0⟩

/-- What the derivative by two letters reaches. -/
def remainderNodes : List Handle :=
  remainder :: Handle.empty :: (List.range 10).map (fun index => ⟨index + 10, 0⟩) ++ restNodes

theorem reached_halfway : halfway.Reached :=
  reached_begun.afterwards (.derive rest 'a') (List.forall_mem_singleton.mpr validate_rest)
    (by decide +kernel)

theorem layered_halfway : ∀ handle ∈ remainderNodes,
    halfway.grammar.layered remainderNodes handle = true := by decide +kernel

theorem validate_remainder : halfway.grammar.validate remainder = .ok () :=
  Grammar.validate_eq_ok_iff.mpr (Grammar.valid_of_layered layered_halfway List.mem_cons_self)

theorem guarded_remainder : halfway.grammar.Guarded remainder :=
  Grammar.guarded_of_layered layered_halfway List.mem_cons_self

/-- A last letter, put behind the two that were there. -/
theorem parses_remainder : halfway.grammar.Parses remainder ['a'] leftmost := by
  have hNodes : halfway.grammar.get? remainder = some (.union Handle.empty ⟨19, 0⟩) ∧
      halfway.grammar.get? ⟨19, 0⟩ = some (.union ⟨16, 0⟩ ⟨18, 0⟩) ∧
      halfway.grammar.get? ⟨16, 0⟩ = some (.sequence ⟨15, 0⟩ rule) ∧
      halfway.grammar.get? ⟨15, 0⟩ = some (.union Handle.empty ⟨14, 0⟩) ∧
      halfway.grammar.get? ⟨14, 0⟩ = some (.union ⟨11, 0⟩ ⟨13, 0⟩) ∧
      halfway.grammar.get? ⟨13, 0⟩ = some (.sequence ⟨12, 0⟩ rest) ∧
      halfway.grammar.get? ⟨12, 0⟩ = some (.eps (Forest.singleton (.leaf 'a'))) ∧
      halfway.grammar.get? rest = some (.union ⟨7, 0⟩ ⟨8, 0⟩) ∧
      halfway.grammar.get? ⟨7, 0⟩ = some (.eps (Forest.singleton (.leaf 'a'))) ∧
      halfway.grammar.get? rule = some (.delegate (some ⟨5, 0⟩)) ∧
      halfway.grammar.get? ⟨5, 0⟩ = some (.union ⟨3, 0⟩ ⟨4, 0⟩) ∧
      halfway.grammar.get? ⟨3, 0⟩ = some (.token (.literal 'a')) := by decide +kernel
  obtain ⟨hWhole, hEither, hLonger, hTwo, hBoth, hPair, hKept, hRest, hNone, hRule, hUnion,
    hLetter⟩ := hNodes
  have hOne : halfway.grammar.Parses rule ['a'] (.leaf 'a') :=
    .delegate hRule (.left hUnion (.token hLetter rfl))
  have hLeaf : (.leaf 'a' : Tree Lexicon.characters.Token) ∈ Forest.singleton (.leaf 'a') :=
    Forest.mem_singleton.mpr rfl
  have hLetters : halfway.grammar.Parses ⟨15, 0⟩ [] (.pair (.leaf 'a') (.leaf 'a')) :=
    .right hTwo (.right hBoth (.sequence hPair (.eps hKept hLeaf)
      (.left hRest (.eps hNone hLeaf))))
  exact .right hWhole (.left hEither (.sequence hLonger hLetters hOne))

end Tangle

namespace Engine

theorem compact_iff_tangle :
    Tangle.halfway.Reached ∧ 1 ≤ Tangle.halfway.configuration.forestPassLimit ∧
      Tangle.halfway.grammar.validate Tangle.remainder = .ok () ∧
      Tangle.halfway.grammar.Guarded Tangle.remainder ∧
      ∃ compacted after, (compact Tangle.remainder).run Tangle.halfway = .ok compacted after ∧
        after.Untruncated ∧
        (∀ string, after.grammar.Accepts compacted string ↔
          Tangle.halfway.grammar.Accepts Tangle.remainder string) ∧
        (∀ string tree, after.grammar.Parses compacted string tree ↔
          Tangle.halfway.grammar.Parses Tangle.remainder string tree) ∧
        after.grammar.Parses compacted ['a'] Tangle.leftmost ∧
        after.grammar.get? Tangle.remainder = some (.union Handle.empty ⟨19, 0⟩) := by
  have hLimit : 1 ≤ Tangle.halfway.configuration.forestPassLimit := by decide +kernel
  have hUntruncated : (Tangle.halfway.afterwards (compact Tangle.remainder)).Untruncated := by
    decide +kernel
  have hWhole : Tangle.halfway.grammar.get? Tangle.remainder =
      some (.union Handle.empty ⟨19, 0⟩) := by decide +kernel
  obtain ⟨compacted, after, hRun, hAccepts, hParses, hKeeps⟩ := compact_iff
    Tangle.reached_halfway hLimit Tangle.validate_remainder Tangle.guarded_remainder
  rw [afterwards_of_run hRun] at hUntruncated
  exact ⟨Tangle.reached_halfway, hLimit, Tangle.validate_remainder, Tangle.guarded_remainder,
    compacted, after, hRun, hUntruncated, hAccepts, hParses hUntruncated,
    (hParses hUntruncated ['a'] Tangle.leftmost).mpr Tangle.parses_remainder,
    hKeeps _ _ hWhole⟩

end Engine

end DerivativeParsing
