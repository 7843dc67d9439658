import DerivativeParsing.Proofs.Correctness
import DerivativeParsing.Proofs.Cursor

namespace DerivativeParsing

/-!
# Runs meet valid nodes only

A run with a root that is not valid is refused, and leaves the engine as it is.  A run
with a valid root is not refused: it never meets a stale handle, and after every token the
current node is valid again, although slots were freed and used again in between
(`runs_meet_valid_nodes`).
-/

namespace Engine

variable {Λ : Lexicon} {engine after : Engine Λ} {root node : Handle}
  {input : Reading Λ.Token} {start rest : List Λ.Token} {limit : Option Nat}

/-- Recognition goes on from where it is after some of its tokens. -/
theorem run_recognises_of_consume (hRoot : engine.grammar.validate root = .ok ())
    (hTokens : input.tokens = start ++ rest)
    (hConsume : (consume plain.recogniseStep start 0 root).run engine = .ok node after) :
    (recognises root input).run engine =
      (plain.recogniseFrom input.failure rest start.length node).run after := by
  rw [recognises, Manner.recognises, run_validated_of_ok hRoot, hTokens, recogniseFrom_append,
    EStateM.run_bind, hConsume, Nat.zero_add]

/-- A parse goes on from where it is after some of its tokens, up to the limit. -/
theorem run_parseWithLimit_of_consume (hRoot : engine.grammar.validate root = .ok ())
    (hTokens : input.tokens = start ++ rest)
    (hLimit : ∀ most, limit = some most → start.length ≤ most)
    (hConsume : (consume plain.parseStep start 0 root).run engine = .ok node after) :
    (parseWithLimit root input limit).run engine =
      (plain.parseFrom limit input.failure rest start.length node).run after := by
  -- The limit is looked at before every token, and stops the run at the limit itself.
  have hBelow (count : Nat) (hCount : count < start.length) :
      isLimit limit (0 + count) = false := by
    cases limit with
    | none => rfl
    | some most =>
        have hMost := hLimit most rfl
        exact decide_eq_false (by omega)
  rw [parseWithLimit, Manner.parseWithLimit, run_validated_of_ok hRoot, hTokens,
    parseFrom_append hBelow, EStateM.run_bind, hConsume, Nat.zero_add]

theorem run_parse_of_error {error : GrammarError}
    (hError : engine.grammar.validate root = .error error) :
    (parse root input).run engine = .ok (.error (.grammar error)) engine := by
  rw [parse, Manner.parse, EStateM.run_bind, Manner.parseWithLimit,
    run_validated_of_error hError]
  rfl

/-- Runs with a root that is not valid are refused and change nothing.  Runs with a valid
root succeed, and after any part of the input they go on from a node that is valid. -/
theorem runs_meet_valid_nodes (hReached : engine.Reached)
    (hLimit : 1 ≤ engine.configuration.forestPassLimit)
    (hInput : Supplied Λ.Token input) (root : Handle) (limit : Option Nat) :
    (∀ error, engine.grammar.validate root = .error error →
      (recognises root input).run engine = .ok (.error (.grammar error)) engine ∧
      (parse root input).run engine = .ok (.error (.grammar error)) engine ∧
      (parseWithLimit root input limit).run engine =
        .ok (.error (.grammar error)) engine) ∧
    (engine.grammar.validate root = .ok () → engine.grammar.Guarded root →
      (∃ value after, (recognises root input).run engine = .ok (.ok value) after) ∧
      (∃ trees after, (parse root input).run engine = .ok (.ok trees) after) ∧
      (∃ outcome after,
        (parseWithLimit root input limit).run engine = .ok (.ok outcome) after) ∧
      ∀ start rest, input.tokens = start ++ rest →
        (∃ node after, (consume plain.recogniseStep start 0 root).run engine = .ok node after ∧
          (recognises root input).run engine =
            (plain.recogniseFrom input.failure rest start.length node).run after ∧
          after.grammar.validate node = .ok ()) ∧
        ((∀ most, limit = some most → start.length ≤ most) →
          ∃ node after, (consume plain.parseStep start 0 root).run engine = .ok node after ∧
            (parseWithLimit root input limit).run engine =
              (plain.parseFrom limit input.failure rest start.length node).run after ∧
            after.grammar.validate node = .ok ())) := by
  have hCoherent := hReached.coherent
  have hLimited := Nat.one_le_iff_ne_zero.mp hLimit
  refine ⟨fun error hError => ⟨?_, ?_, ?_⟩, fun hRoot hGuarded => ?_⟩
  · exact run_validated_of_error hError _
  · exact run_parse_of_error hError
  · exact run_validated_of_error hError _
  -- With a guarded root and a limit on forest queries there is no excuse for failing, and
  -- a stale handle is never excused.
  have hValid := Grammar.validate_eq_ok_iff.mp hRoot
  refine ⟨?_, ?_, ?_, fun start rest hTokens => ⟨?_, fun hShort => ?_⟩⟩
  · obtain ⟨result, after, hRun, -, hResult⟩ :=
      (attains_recognises hCoherent id (absurd hGuarded) input).exists_run hLimited
    obtain ⟨value, rfl, -⟩ := hResult hValid hInput.failure
    exact ⟨value, after, hRun⟩
  · obtain ⟨result, after, hRun, -, hResult⟩ :=
      (attains_parse hCoherent id (absurd hGuarded) input).exists_run hLimited
    obtain ⟨trees, rfl, -⟩ := hResult hValid hInput.failure
    exact ⟨trees, after, hRun⟩
  · obtain ⟨result, after, hRun, -, hResult⟩ :=
      (attains_parseWithLimit hCoherent id (absurd hGuarded) input limit).exists_run hLimited
    obtain ⟨outcome, rfl⟩ := hResult hValid hInput.failure
    exact ⟨outcome, after, hRun⟩
  · obtain ⟨node, after, hConsume, hConsumes⟩ :=
      (attains_consume attains_recogniseStep hCoherent hValid id (absurd hGuarded)
        0).exists_run hLimited
    exact ⟨node, after, hConsume, run_recognises_of_consume hRoot hTokens hConsume,
      Grammar.validate_eq_ok_iff.mpr hConsumes.residual.valid⟩
  · obtain ⟨node, after, hConsume, hConsumes⟩ :=
      (attains_consume attains_parseStep hCoherent hValid id (absurd hGuarded)
        0).exists_run hLimited
    exact ⟨node, after, hConsume, run_parseWithLimit_of_consume hRoot hTokens hShort hConsume,
      Grammar.validate_eq_ok_iff.mpr hConsumes.residual.valid⟩

theorem runs_meet_valid_nodes_tangle :
    Tangle.engine.Reached ∧ 1 ≤ Tangle.engine.configuration.forestPassLimit ∧
      Supplied Char (Cursor.read ({ source := "aa" } : CharacterCursor)).1 ∧
      Tangle.engine.grammar.validate Tangle.rule = .ok () ∧
      Tangle.engine.grammar.Guarded Tangle.rule ∧
      (∃ outcome after, (parseWithLimit Tangle.rule
        (Cursor.read ({ source := "aa" } : CharacterCursor)).1 (some 1)).run Tangle.engine =
          .ok (.ok outcome) after) ∧
      ∃ node after, (consume plain.parseStep ['a'] 0 Tangle.rule).run Tangle.engine =
          .ok node after ∧
        after.grammar.validate node = .ok () := by
  have hSupplied : Supplied Char (Cursor.read ({ source := "aa" } : CharacterCursor)).1 :=
    .characters (.start "aa")
  obtain ⟨-, hValid⟩ := runs_meet_valid_nodes Tangle.reached (by decide) hSupplied Tangle.rule
    (some 1)
  obtain ⟨-, -, hParsed, hParts⟩ := hValid Tangle.validate_rule Tangle.guarded_rule
  obtain ⟨-, hPart⟩ := hParts ['a'] ['a'] (by decide)
  obtain ⟨node, after, hConsume, -, hNode⟩ := hPart fun most hMost => by
    cases hMost
    exact le_rfl
  exact ⟨Tangle.reached, by decide, hSupplied, Tangle.validate_rule, Tangle.guarded_rule,
    hParsed, node, after, hConsume, hNode⟩

end Engine

end DerivativeParsing
