import DerivativeParsing.Proofs.Correctness
import DerivativeParsing.Proofs.Engine.Openings

namespace DerivativeParsing

/-!
# Every knot is closed

Taking a derivative and compacting a node both end, although the graph has cycles and grows
meanwhile.  The recursion enters every delegate at most once, and each time it opens a
placeholder, which has a target when the call returns.  A cycle that is reached from the
result passes through a delegate again, so the result is fit for the next call.
-/

namespace Engine

variable {Λ : Lexicon} {task : Task Λ} {engine before after : Engine Λ} {node result : Handle}
  {logged : Logged Opening Λ Handle} {action : Action Λ Handle}

/-- A call has entered each delegate of its log once, has left no placeholder without a
target, and has given a result whose cycles all pass through delegates. -/
structure Closes (before : Engine Λ) (result : Handle) (entries : List Opening)
    (after : Engine Λ) : Prop where
  once : (entries.map Opening.delegate).Nodup
  filled : ∀ entry ∈ entries, ∃ target,
    after.grammar.get? entry.placeholder = some (.delegate (some target))
  closed : ∀ handle, after.grammar.get? handle = some (.delegate none) →
    before.grammar.get? handle = some (.delegate none)
  guarded : after.grammar.Guarded result

/-- A call that gives a residual of a guarded node closes its knots. -/
theorem Follows.closes (hFollows : Follows (opens task) engine logged action)
    (hRun : action.run engine = .ok result after)
    (hResidual : Grammar.Residual after.Untruncated engine.grammar after.grammar task.word node
      result) (hGuarded : engine.grammar.Guarded node) :
    ∃ entries, (logged.run []).run engine = .ok (result, entries) after ∧
      Closes engine result entries after := by
  obtain ⟨entries, hLogged, hOpens⟩ := hFollows.exists_entries hRun []
  rw [List.append_nil] at hLogged
  exact ⟨entries, hLogged, hOpens.once, hOpens.filled, hOpens.closed,
    hResidual.guarded hGuarded⟩

/-- Derivation and compaction of a validated node whose cycles all pass through delegates
end, and the same is true of their logged runs, which tell that all knots are closed. -/
theorem derivation_closes_knots (hReached : engine.Reached)
    (hLimit : 1 ≤ engine.configuration.forestPassLimit)
    (hNode : engine.grammar.validate node = .ok ())
    (hGuarded : engine.grammar.Guarded node) :
    (∀ token, ∃ derivative entries after,
      (derive node token).run engine = .ok derivative after ∧
        ((deriveLogged node token).run []).run engine = .ok (derivative, entries) after ∧
          Closes engine derivative entries after) ∧
      ∃ compacted entries after,
        (compact node).run engine = .ok compacted after ∧
          ((compactLogged node).run []).run engine = .ok (compacted, entries) after ∧
            Closes engine compacted entries after := by
  have hCoherent := hReached.coherent
  have hValid : engine.grammar.Valid node := Grammar.validate_eq_ok_iff.mp hNode
  have hLimited : engine.configuration.forestPassLimit ≠ 0 := by omega
  constructor
  · intro token
    obtain ⟨derivative, after, hRun, hYields⟩ :=
      (yields_derive hCoherent hValid id (absurd hGuarded)).exists_run hLimited
    have hFollows := (records_openings (.derive token)).follows_derive engine node
    obtain ⟨entries, hLogged, hCloses⟩ := hFollows.closes hRun
      (hYields.consumes hCoherent).residual hGuarded
    exact ⟨derivative, entries, after, hRun, hLogged, hCloses⟩
  · obtain ⟨compacted, after, hRun, hYields⟩ :=
      (yields_compact hCoherent hValid id (absurd hGuarded)).exists_run hLimited
    have hFollows := (records_openings .compact).follows_compact engine node
    obtain ⟨entries, hLogged, hCloses⟩ := hFollows.closes hRun
      (hYields.consumes hCoherent).residual hGuarded
    exact ⟨compacted, entries, after, hRun, hLogged, hCloses⟩

theorem derivation_closes_knots_tangle :
    Tangle.engine.Reached ∧ 1 ≤ Tangle.engine.configuration.forestPassLimit ∧
      Tangle.engine.grammar.validate Tangle.rule = .ok () ∧
      Tangle.engine.grammar.Guarded Tangle.rule ∧
      (∃ derivative entries after,
        (derive Tangle.rule 'a').run Tangle.engine = .ok derivative after ∧
          ((deriveLogged Tangle.rule 'a').run []).run Tangle.engine =
            .ok (derivative, entries) after ∧
          Closes Tangle.engine derivative entries after) ∧
      ∃ compacted entries after,
        (compact Tangle.rule).run Tangle.engine = .ok compacted after ∧
          ((compactLogged Tangle.rule).run []).run Tangle.engine =
            .ok (compacted, entries) after ∧
          Closes Tangle.engine compacted entries after := by
  obtain ⟨hDerive, hCompact⟩ := derivation_closes_knots Tangle.reached (by decide)
    Tangle.validate_rule Tangle.guarded_rule
  exact ⟨Tangle.reached, by decide, Tangle.validate_rule, Tangle.guarded_rule, hDerive 'a',
    hCompact⟩

end Engine

end DerivativeParsing
