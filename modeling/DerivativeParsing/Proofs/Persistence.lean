import DerivativeParsing.Proofs.Correctness

namespace DerivativeParsing

/-!
# Remembered answers while the grammar grows

An engine answers from its tables what it has found out once, although the grammar may
have grown since.  As long as its operations are called on validated nodes that makes no
difference: an engine over the same grammar that remembers nothing gives the same answers
(`answers_persist`).  For growth changes nothing behind a validated node.

Behind a node that is not validated there may be a delegate without a target.  It counts
as a node without strings, and that answer is remembered too.  When the delegate gets its
target the tables are not corrected, so from then on the engine answers what is no longer
true (`answer_outlives_target`).
-/

namespace Engine

variable {Λ : Lexicon} {engine : Engine Λ} {root : Handle}

/-- The same engine without anything that it remembers. -/
def renewed (engine : Engine Λ) : Engine Λ where
  grammar := engine.grammar
  configuration := engine.configuration
  patience := engine.patience

/-- A query gets an answer, and the same one if nothing is remembered. -/
def Persists {α : Type} (engine : Engine Λ) (query : Action Λ α) : Prop :=
  ∃ answer after after', query.run engine = .ok answer after ∧
    query.run engine.renewed = .ok answer after'

theorem Coherent.renewed (hCoherent : engine.Coherent) : engine.renewed.Coherent :=
  coherent_fresh hCoherent.founded engine.configuration engine.patience

/-- An answer that says what is true does not depend on what is remembered. -/
theorem persists_of_attains {query : Action Λ Bool} {truth : Prop}
    (hEngine : Attains False query engine fun value after =>
      engine.Consulted after ∧ (value = true ↔ truth))
    (hRenewed : Attains False query engine.renewed fun value after =>
      engine.renewed.Consulted after ∧ (value = true ↔ truth)) :
    engine.Persists query := by
  obtain ⟨value, after, hRun, -, hValue⟩ := hEngine.exists_run not_false
  obtain ⟨value', after', hRun', -, hValue'⟩ := hRenewed.exists_run not_false
  obtain rfl : value = value' := Bool.eq_iff_iff.mpr (hValue.trans hValue'.symm)
  exact ⟨value, after, after', hRun, hRun'⟩

/-- Two recognitions that have ended, one of them without anything remembered, have the
same result. -/
theorem recognises_renewed (hCoherent : engine.Coherent) {string : List Λ.Token}
    {result result' : Except ParseError Bool} {after after' : Engine Λ}
    (hRun : (recognises root { tokens := string }).run engine = .ok result after)
    (hRun' : (recognises root { tokens := string }).run engine.renewed = .ok result' after') :
    result = result' := by
  cases hRoot : engine.grammar.validate root with
  | error error =>
      have hRoot' : engine.renewed.grammar.validate root = .error error := hRoot
      rw [recognises, Manner.recognises, run_validated_of_error hRoot] at hRun
      rw [recognises, Manner.recognises, run_validated_of_error hRoot'] at hRun'
      cases hRun
      cases hRun'
      rfl
  | ok =>
      have hValid := Grammar.validate_eq_ok_iff.mp hRoot
      obtain ⟨value, rfl, hValue⟩ :=
        ((attains_recognises hCoherent (fun _ => trivial) (fun _ => trivial) _).of_run hRun).2
          hValid rfl
      obtain ⟨value', rfl, hValue'⟩ :=
        ((attains_recognises hCoherent.renewed (fun _ => trivial) (fun _ => trivial) _).of_run
          hRun').2 hValid rfl
      rw [Bool.eq_iff_iff.mpr (hValue.trans hValue'.symm)]

/-- Whatever was asked and built before, an engine whose operations were called on
validated nodes answers as if it remembered nothing. -/
theorem answers_persist (hReached : engine.Reached) :
    (∀ node, engine.grammar.validate node = .ok () →
      engine.Persists (isNullable node) ∧ engine.Persists (isEmpty node) ∧
        engine.Persists (isConsuming node)) ∧
    ∀ root string,
      (∀ result after result' after',
        (recognises root { tokens := string }).run engine = .ok result after →
        (recognises root { tokens := string }).run engine.renewed = .ok result' after' →
        result = result') ∧
      (engine.grammar.Guarded root → 1 ≤ engine.configuration.forestPassLimit →
        engine.Persists (recognises root { tokens := string })) := by
  have hCoherent := hReached.coherent
  have hRenewed := hCoherent.renewed
  refine ⟨fun node hNode => ?_, fun root string => ⟨?_, fun hGuarded hLimit => ?_⟩⟩
  · have hValid : engine.grammar.Valid node := Grammar.validate_eq_ok_iff.mp hNode
    exact ⟨persists_of_attains (attains_isNullable hCoherent.informed hValid)
        (attains_isNullable hRenewed.informed hValid),
      persists_of_attains (attains_isEmpty hCoherent.informed hValid)
        (attains_isEmpty hRenewed.informed hValid),
      persists_of_attains (attains_isConsuming hCoherent.informed hValid)
        (attains_isConsuming hRenewed.informed hValid)⟩
  · exact fun _ _ _ _ => recognises_renewed hCoherent
  · have hLimited := Nat.one_le_iff_ne_zero.mp hLimit
    obtain ⟨result, after, hRun, -⟩ :=
      (attains_recognises hCoherent id (absurd hGuarded) { tokens := string }).exists_run hLimited
    obtain ⟨result', after', hRun', -⟩ :=
      (attains_recognises hRenewed id (absurd hGuarded) { tokens := string }).exists_run hLimited
    obtain rfl := recognises_renewed hCoherent hRun hRun'
    exact ⟨result, after, after', hRun, hRun'⟩

/-- A query about a validated node leads to another state of the engine. -/
theorem Reached.afterwards_isNullable (hReached : engine.Reached)
    (hRoot : engine.grammar.validate root = .ok ()) :
    (engine.afterwards (isNullable root)).Reached := by
  obtain ⟨value, after, hRun, -⟩ :=
    (attains_isNullable hReached.coherent.informed
      (Grammar.validate_eq_ok_iff.mp hRoot)).exists_run not_false
  have hCall : (Call.isNullable root).action.run engine = .ok () after := by
    change (isNullable root >>= _).run engine = _
    rw [EStateM.run_bind, hRun]
    rfl
  rw [afterwards_of_run hRun]
  exact .call (.isNullable root) hReached (List.forall_mem_singleton.mpr hRoot) hCall

end Engine

namespace Tangle

/-- The engine once it was asked about the empty string and another node was built. -/
def grown : Engine Lexicon.characters :=
  { engine.afterwards (Engine.isNullable rule) with
    grammar := ((engine.afterwards (Engine.isNullable rule)).grammar.literal 'b').2 }

theorem reached_grown : grown.Reached :=
  .alloc _ _ (reached.afterwards_isNullable validate_rule)

theorem layered_grown : ∀ handle ∈ nodes, grown.grammar.layered nodes handle = true := by
  decide +kernel

end Tangle

namespace Engine

theorem answers_persist_tangle :
    Tangle.grown.Reached ∧ Tangle.grown.tables.nullable.peek? Tangle.rule = some false ∧
      Tangle.grown.grammar.validate Tangle.rule = .ok () ∧
      Tangle.grown.grammar.Guarded Tangle.rule ∧
      1 ≤ Tangle.grown.configuration.forestPassLimit ∧
      Tangle.grown.Persists (isNullable Tangle.rule) ∧
      Tangle.grown.Persists (isEmpty Tangle.rule) ∧
      Tangle.grown.Persists (isConsuming Tangle.rule) ∧
      Tangle.grown.Persists (recognises Tangle.rule { tokens := ['a', 'a'] }) := by
  have hRoot : Tangle.grown.grammar.validate Tangle.rule = .ok () :=
    Grammar.validate_eq_ok_iff.mpr
      (Grammar.valid_of_layered Tangle.layered_grown List.mem_cons_self)
  have hGuarded : Tangle.grown.grammar.Guarded Tangle.rule :=
    Grammar.guarded_of_layered Tangle.layered_grown List.mem_cons_self
  have hLimit : 1 ≤ Tangle.grown.configuration.forestPassLimit := by decide +kernel
  obtain ⟨hQueries, hRuns⟩ := answers_persist Tangle.reached_grown
  obtain ⟨hNullable, hEmpty, hConsuming⟩ := hQueries Tangle.rule hRoot
  obtain ⟨-, hRecognises⟩ := hRuns Tangle.rule ['a', 'a']
  exact ⟨Tangle.reached_grown, by decide +kernel, hRoot, hGuarded, hLimit, hNullable, hEmpty,
    hConsuming, hRecognises hGuarded hLimit⟩

end Engine

namespace Unset

/-- A delegate without a target. -/
def rule : Handle := ⟨2, 0⟩

/-- A new engine over a grammar with nothing but that delegate. -/
def engine : Engine Lexicon.characters := { grammar := Grammar.initial.delegate.2 }

/-- The engine once it was asked about the empty string. -/
def asked : Engine Lexicon.characters := engine.afterwards (Engine.isNullable rule)

/-- The grammar in which the delegate stands for the empty string. -/
def grammar : Grammar Lexicon.characters :=
  asked.grammar.patch rule (.delegate (some Handle.eps))

end Unset

/-- A delegate that was asked about too early keeps its answer when it gets a target. -/
theorem Engine.answer_outlives_target :
    (isNullable Unset.rule).run Unset.engine = .ok false Unset.asked ∧
      Unset.asked.grammar.setTarget Unset.rule Handle.eps = .ok Unset.grammar ∧
      (∃ after, (isNullable Unset.rule).run { Unset.asked with grammar := Unset.grammar } =
        .ok false after) ∧
      ∃ after, (isNullable Unset.rule).run
        (renewed { Unset.asked with grammar := Unset.grammar }) = .ok true after :=
  ⟨rfl, rfl, ⟨_, rfl⟩, ⟨_, rfl⟩⟩

end DerivativeParsing
