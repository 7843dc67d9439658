import DerivativeParsing.Proofs.Engine.Alike
import DerivativeParsing.Proofs.Tables

namespace DerivativeParsing

/-!
# The table of inhabited nodes covers what they reach

Whatever an engine does with validated nodes, with every node its table of inhabited nodes
holds all that the node reaches.  So the equation of consumption finds every operand there:
with any fallback the operations of the engine are the same
(`inhabitation_covers_reach`).
-/

open Fixpoint

namespace Engine

variable {Λ : Lexicon} {engine : Engine Λ}

/-- The table of every engine is a survey of its grammar. -/
theorem Reached.surveyed (hReached : Reached engine) : engine.Surveyed := by
  induction hReached with
  | fresh configuration patience _ => exact fun handle hHandle => nomatch hHandle
  | call call hReached hNodes hRun ih =>
      refine (alike_actionOr .solving hReached.coherent ih call fun node hNode => ?_).post _ _ hRun
      exact Grammar.validate_eq_ok_iff.mp (hNodes node hNode)
  | @alloc engine node origin _ ih =>
      exact Grammar.Surveyed.grows ih (engine.grammar.keeps_alloc node origin).grows
  | setTarget _ hSet ih =>
      obtain ⟨hUnset, rfl⟩ := Grammar.setTarget_eq_ok hSet
      exact Grammar.Surveyed.grows ih (Grammar.grows_patch hUnset _)
  | fill target _ hUnset ih =>
      exact Grammar.Surveyed.grows ih (Grammar.grows_patch hUnset _)

/-- Together with a node the table of inhabited nodes holds all that the node reaches.  When
the equations of consumption are solved, the table holds all that the root reaches, so
nothing is left to the fallback: with any fallback whatever the question is answered, and
every operation does what it does with the solver as its fallback. -/
theorem inhabitation_covers_reach (hReached : engine.Reached) :
    (∀ node other, engine.tables.inhabited.contains node = true →
      engine.grammar.Reaches node other → engine.tables.inhabited.contains other = true) ∧
    (∀ node, engine.grammar.validate node = .ok () →
      ∃ value after, (isConsuming node).run engine = .ok value after ∧
        (∀ fallback, (isConsumingOr fallback node).run engine = .ok value after) ∧
        (engine.tables.consuming.peek? node = none → ∀ other,
          engine.grammar.Reaches node other →
            after.tables.inhabited.contains other = true)) ∧
    ∀ call : Call Λ, call.actionOr .solving = call.action ∧
      ((∀ node ∈ call.nodes, engine.grammar.validate node = .ok ()) →
        ∀ fallback, (call.actionOr fallback).run engine = call.action.run engine) := by
  have hCoherent := hReached.coherent
  have hSurveyed := hReached.surveyed
  refine ⟨fun node other hNode => (hSurveyed node hNode).2 other, fun node hNode => ?_,
    fun call => ⟨rfl, fun hNodes fallback => ?_⟩⟩
  · have hValid := Grammar.validate_eq_ok_iff.mp hNode
    have hAttains : Attains False (isConsuming node) engine fun _ after =>
        engine.Consulted after :=
      (attains_isConsuming hCoherent.informed hValid).mono fun _ _ hAfter => hAfter.1
    obtain ⟨value, after, hRun, hConsulted⟩ := hAttains.exists_run id
    have hAlike := alike_isConsumingOr hSurveyed hValid
    obtain ⟨hExtends, hContains⟩ := (hAlike .solving).post value after hRun
    refine ⟨value, after, hRun, fun fallback => (hAlike fallback).run.trans hRun, ?_⟩
    intro hPeek other hReaches
    rw [← hConsulted.grammar] at hReaches
    exact (hExtends.surveyed node (hContains hPeek)).2 other hReaches
  · exact (alike_actionOr fallback hCoherent hSurveyed call fun node hNode =>
      Grammar.validate_eq_ok_iff.mp (hNodes node hNode)).run

end Engine

namespace Ladder

/-- The derivative of the rule. -/
def derivative : Handle := ⟨9, 0⟩

/-- The compaction of the derivative. -/
def compaction : Engine.Call Lexicon.characters := .compact derivative

/-- The engine once the derivative was also compacted. -/
def compacted : Engine Lexicon.characters := advanced.afterwards compaction.action

/-- Give up on an operand that the table does not know. -/
def refusing : Fallback Lexicon.characters := fun _ _ handle => .fail (.absent handle)

theorem reached_compacted : compacted.Reached :=
  reached_advanced.afterwards compaction (by decide +kernel) (by decide +kernel)

theorem reaches_rule : compacted.grammar.Reaches derivative rule := by
  have hUnion : compacted.grammar.get? derivative = some (.union ⟨8, 0⟩ Handle.empty) := by
    decide +kernel
  have hSequence : compacted.grammar.get? ⟨8, 0⟩ = some (.sequence ⟨7, 0⟩ rule) := by
    decide +kernel
  exact (Grammar.reaches_child hUnion (Node.mem_children_union.mpr (Or.inl rfl))).trans
    (Grammar.reaches_child hSequence (Node.mem_children_sequence.mpr (Or.inr rfl)))

end Ladder

namespace Engine

/-- On a right recursive rule the equations do come to the fallback if nothing is in the
table, but no operation of the engine does. -/
theorem inhabitation_covers_reach_ladder :
    Ladder.compacted.Reached ∧
      Ladder.compacted.tables.inhabited.contains Ladder.derivative = true ∧
      Ladder.compacted.tables.inhabited.contains Ladder.rule = true ∧
      ((Grammar.consumptionOr Ladder.refusing Ladder.grammar {} {}).solve
        Ladder.grammar.budget .unbounded Ladder.rule).1.isOk = false ∧
      (∃ value after, (isConsuming Ladder.rule).run Ladder.engine = .ok value after ∧
        (isConsumingOr Ladder.refusing Ladder.rule).run Ladder.engine = .ok value after ∧
        after.tables.inhabited.contains ⟨5, 0⟩ = true) ∧
      Ladder.advanced.succeeds Ladder.compaction.action = true ∧
      (Ladder.compaction.actionOr Ladder.refusing).run Ladder.advanced =
        Ladder.compaction.action.run Ladder.advanced := by
  have hKnown : Ladder.compacted.tables.inhabited.contains Ladder.derivative = true := by
    decide +kernel
  have hRule : Ladder.engine.grammar.validate Ladder.rule = .ok () := by decide +kernel
  have hTarget : Ladder.engine.grammar.get? Ladder.rule = some (.delegate (some ⟨5, 0⟩)) := rfl
  have hDerivative : ∀ node ∈ Ladder.compaction.nodes,
      Ladder.advanced.grammar.validate node = .ok () := by decide +kernel
  obtain ⟨hClosed, -, -⟩ := inhabitation_covers_reach Ladder.reached_compacted
  obtain ⟨-, hConsuming, -⟩ := inhabitation_covers_reach Ladder.reached
  obtain ⟨-, -, hCall⟩ := inhabitation_covers_reach Ladder.reached_advanced
  obtain ⟨value, after, hRun, hSame, hCovered⟩ := hConsuming Ladder.rule hRule
  refine ⟨Ladder.reached_compacted, hKnown, hClosed _ _ hKnown Ladder.reaches_rule,
    by decide +kernel, ⟨value, after, hRun, hSame Ladder.refusing, hCovered rfl _ ?_⟩,
    by decide +kernel, (hCall Ladder.compaction).2 hDerivative Ladder.refusing⟩
  exact Grammar.reaches_child hTarget (List.mem_singleton_self _)

end Engine

end DerivativeParsing
