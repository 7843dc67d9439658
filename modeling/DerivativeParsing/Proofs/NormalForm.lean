import DerivativeParsing.Lexicon.Standard
import DerivativeParsing.Proofs.Compaction.Upkeep

namespace DerivativeParsing

/-!
# Compaction reaches a normal form

A compacted node is the empty node, or everything it reaches is in normal form: the queries
of the engine find matches at every node, find nothing but the empty string only at `eps`
nodes and never below a node other than a union, and no reduction stands on another one
(`compact_normalizes`).  That holds for every engine state, so also for nodes that were
compacted before or on the way.
-/

namespace Overgrown

/-- The rule of the grammar. -/
def rule : Handle := ⟨3, 0⟩

/-- The nodes behind the rule: a letter that nothing can follow, or a letter, or the rule and
a letter under two reductions and after an empty string. -/
def untied : Grammar Lexicon.characters :=
  let (letter, grammar) := Grammar.initial.literal 'a'
  let (rule, grammar) := grammar.delegate
  let (dead, grammar) := grammar.sequence letter Handle.empty
  let (step, grammar) := grammar.sequence rule letter
  let (padded, grammar) := grammar.sequence Handle.eps step
  let (inner, grammar) := grammar.reduction padded .cons
  let (outer, grammar) := grammar.reduction inner .cons
  let (live, grammar) := grammar.union outer letter
  (grammar.union dead live).2

/-- A left recursive grammar in which every law of compaction applies. -/
def grammar : Grammar Lexicon.characters := untied.patch rule (.delegate (some ⟨10, 0⟩))

/-- What the rule reaches. -/
def nodes : List Handle :=
  [rule, ⟨2, 0⟩, ⟨4, 0⟩, ⟨5, 0⟩, ⟨6, 0⟩, ⟨7, 0⟩, ⟨8, 0⟩, ⟨9, 0⟩, ⟨10, 0⟩, Handle.eps, Handle.empty]

theorem layered : ∀ handle ∈ nodes, grammar.layered nodes handle = true := by decide

theorem built : grammar.Built := by
  have hUntied : untied.Built :=
    .alloc _ _ (.alloc _ _ (.alloc _ _ (.alloc _ _ (.alloc _ _ (.alloc _ _ (.alloc _ _
      (.alloc _ _ (.alloc _ _ .initial))))))))
  have hSet : untied.setTarget rule ⟨10, 0⟩ = .ok grammar := rfl
  exact .setTarget hUntied hSet

theorem validate_rule : grammar.validate rule = .ok () :=
  Grammar.validate_eq_ok_iff.mpr (Grammar.valid_of_layered layered List.mem_cons_self)

theorem guarded_rule : grammar.Guarded rule :=
  Grammar.guarded_of_layered layered List.mem_cons_self

/-- The rule has matches, among them the letter. -/
theorem inhabited_rule : grammar.Inhabited rule := by
  have hLetter : grammar.Accepts rule ['a'] :=
    .delegate rfl (.right rfl (.right rfl (.token rfl rfl)))
  obtain ⟨depth, hWithin⟩ := Grammar.accepts_iff.mp hLetter
  exact Grammar.inhabited_of_within hWithin

/-- A new engine over the grammar. -/
def engine : Engine Lexicon.characters := { grammar := grammar }

theorem reached : engine.Reached := .fresh {} _ built

end Overgrown

namespace Engine

open Grammar

variable {Λ : Lexicon} {engine : Engine Λ} {node handle : Handle} {found : Node Λ}

/-- What the queries of an engine say about a node in normal form. -/
structure Normal (engine : Engine Λ) (handle : Handle) (found : Node Λ) : Prop where
  inhabited : ∃ after, (isEmpty handle).run engine = .ok false after
  nullOnly : ∃ value after, (isNullOnly handle).run engine = .ok value after ∧
    (value = true ↔ ∃ forest, found = .eps forest)
  parts : (∀ left right, found ≠ .union left right) → ∀ child ∈ found.children,
    ∃ after, (isNullOnly child).run engine = .ok false after
  flat : ∀ inner reducer, found = .reduction inner reducer →
    ∀ innermost innerReducer, engine.grammar.get? inner ≠ some (.reduction innermost innerReducer)

theorem Coherent.run_isEmpty_eq_false (hCoherent : engine.Coherent)
    (hValid : engine.grammar.Valid handle) (hInhabited : engine.grammar.Inhabited handle) :
    ∃ after, (isEmpty handle).run engine = .ok false after := by
  obtain ⟨value, after, hRun, -, hValue⟩ :=
    (attains_isEmpty hCoherent.informed hValid).exists_run not_false
  have hFalse : value = false := by
    by_contra hTrue
    exact hValue.mp (Bool.eq_true_of_not_eq_false hTrue) hInhabited
  exact ⟨after, hFalse ▸ hRun⟩

theorem Coherent.run_isNullOnly_eq_false (hCoherent : engine.Coherent)
    (hValid : engine.grammar.Valid handle) (hConsuming : engine.grammar.Consuming handle) :
    ∃ after, (isNullOnly handle).run engine = .ok false after := by
  obtain ⟨value, after, hRun, -, hValue⟩ :=
    (attains_isNullOnly hCoherent.informed hValid).exists_run not_false
  have hFalse : value = false := by
    by_contra hTrue
    exact (hValue.mp (Bool.eq_true_of_not_eq_false hTrue)).2 hConsuming
  exact ⟨after, hFalse ▸ hRun⟩

/-- A trim node is in normal form. -/
theorem Coherent.normal_of_trim (hCoherent : engine.Coherent)
    (hValid : engine.grammar.Valid handle) (hFound : engine.grammar.get? handle = some found)
    (hInhabited : engine.grammar.Inhabited handle) (hTrim : engine.grammar.Trim found) :
    engine.Normal handle found where
  inhabited := hCoherent.run_isEmpty_eq_false hValid hInhabited
  nullOnly := by
    obtain ⟨value, after, hRun, -, hValue⟩ :=
      (attains_isNullOnly hCoherent.informed hValid).exists_run not_false
    refine ⟨value, after, hRun, hValue.trans ⟨fun hNull => ?_, ?_⟩⟩
    · by_contra hMore
      exact hNull.2 (hTrim.consuming hFound fun forest hEps => hMore ⟨forest, hEps⟩)
    · rintro ⟨forest, rfl⟩
      exact ⟨(nullable_iff hFound).mpr trivial, (consuming_iff hFound).not.mpr not_false⟩
  parts hOther child hChild :=
    hCoherent.run_isNullOnly_eq_false (hValid.child hFound hChild)
      (hTrim.consuming_child hOther hChild)
  flat := by
    rintro inner reducer rfl
    exact hTrim.2

/-- Compaction gives the empty node, or a node in normal form all the way down. -/
theorem compact_normalizes (hReached : engine.Reached)
    (hLimit : 1 ≤ engine.configuration.forestPassLimit)
    (hNode : engine.grammar.validate node = .ok ())
    (hGuarded : engine.grammar.Guarded node) :
    ∃ compacted after, (compact node).run engine = .ok compacted after ∧
      (after.grammar.get? compacted = some .empty ∨
        ∀ handle ∈ after.grammar.reachable [compacted], ∃ found,
          after.grammar.get? handle = some found ∧ after.Normal handle found) := by
  obtain ⟨compacted, after, hRun, hShrunk⟩ := hReached.coherent.exists_shrunk hReached.condensed
    hLimit (validate_eq_ok_iff.mp hNode) hGuarded
  refine ⟨compacted, after, hRun, ?_⟩
  by_cases hInhabited : after.grammar.Inhabited node
  · refine Or.inr fun handle hHandle => ?_
    obtain ⟨-, root, hRoot, hReaches⟩ := mem_reachable.mp hHandle
    obtain rfl := List.mem_singleton.mp hRoot
    have hStems : after.grammar.Stems handle :=
      Stems.reaches ⟨node, hInhabited, hShrunk.shrinks⟩ hReaches
    obtain ⟨found, hFound, hMatches, hTrim⟩ := hStems.trim
    exact ⟨found, hFound, hShrunk.consumes.coherent.normal_of_trim
      (hShrunk.consumes.residual.valid.mono hReaches) hFound hMatches hTrim⟩
  · obtain ⟨image, hImage, hShapes⟩ := hShrunk.shrinks
    exact Or.inl (hShapes.eq_empty hInhabited ▸ hImage)

theorem compact_normalizes_overgrown :
    Overgrown.engine.Reached ∧ 1 ≤ Overgrown.engine.configuration.forestPassLimit ∧
      Overgrown.engine.grammar.validate Overgrown.rule = .ok () ∧
      Overgrown.engine.grammar.Guarded Overgrown.rule ∧
      ∃ compacted after, (compact Overgrown.rule).run Overgrown.engine = .ok compacted after ∧
        ∀ handle ∈ after.grammar.reachable [compacted], ∃ found,
          after.grammar.get? handle = some found ∧ after.Normal handle found := by
  obtain ⟨compacted, after, hRun, hEmpty | hNormal⟩ := compact_normalizes Overgrown.reached
    (by decide) Overgrown.validate_rule Overgrown.guarded_rule
  · -- The rule has matches, so compaction has not made it the empty node.
    have hValid := validate_eq_ok_iff.mp Overgrown.validate_rule
    have hShrunk := Overgrown.reached.coherent.shrunk Overgrown.reached.condensed hValid hRun
    have hInhabited : after.grammar.Inhabited Overgrown.rule :=
      (hValid.agrees hShrunk.keeps.grows).inhabited Overgrown.inhabited_rule
    exact ((inhabited_iff hEmpty).mp (hShrunk.shrinks.inhabited hInhabited)).elim
  · exact ⟨Overgrown.reached, by decide, Overgrown.validate_rule, Overgrown.guarded_rule,
      compacted, after, hRun, hNormal⟩

end Engine

end DerivativeParsing
