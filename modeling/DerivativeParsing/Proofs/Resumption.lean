import DerivativeParsing.Proofs.Engine.Parallel
import DerivativeParsing.Proofs.Safety
import DerivativeParsing.Proofs.Tables

namespace DerivativeParsing

/-!
# Halted parses are resumed

A parse with a limit is complete exactly if the input is not longer than the limit.
Otherwise it halts at a valid node, and a parse from there, over the rest of the input,
has the trees that a parse of the whole input has (`parse_resumes`).

Without collections the two runs go through engines that differ in their journals only, so
even forests that were cut short are the same.  With collections the engines differ, but
both forests hold exactly the trees of the whole input, unless a forest query was stopped.
-/

namespace Engine

variable {Λ : Lexicon} {engine after : Engine Λ} {root node : Handle}
  {tokens : List Λ.Token} {trees : Forest Λ.Token}

/-- A parse with a valid root has the trees that it finds from its first token on. -/
theorem run_parse_of_complete (hRoot : engine.grammar.validate root = .ok ())
    (hRun : (plain.parseFrom none none tokens 0 root).run engine =
      .ok (.ok (.complete trees)) after) :
    (parse root { tokens := tokens }).run engine = .ok (.ok trees) after := by
  rw [parse, Manner.parse, EStateM.run_bind, Manner.parseWithLimit, run_validated_of_ok hRoot,
    hRun]
  rfl

/-- A parse whose input is longer than the limit halts at the limit. -/
theorem run_parseWithLimit_halted {start rest : List Λ.Token}
    (hRoot : engine.grammar.validate root = .ok ()) (hRest : rest ≠ [])
    (hConsume : (consume plain.parseStep start 0 root).run engine = .ok node after) :
    (parseWithLimit root { tokens := start ++ rest } (some start.length)).run engine =
      .ok (.ok (.halted node start.length))
        { after with journal := .halted start.length node :: after.journal } := by
  have hShort (most : Nat) (hMost : some start.length = some most) : start.length ≤ most :=
    (Option.some.inj hMost).le
  rw [run_parseWithLimit_of_consume hRoot rfl hShort hConsume]
  obtain ⟨token, rest, rfl⟩ := List.exists_cons_of_ne_nil hRest
  have hLimit : isLimit (some start.length) start.length = true := decide_eq_true le_rfl
  rw [Manner.parseFrom, hLimit]
  rfl

section Guarded

variable (hReached : engine.Reached) (hLimit : 1 ≤ engine.configuration.forestPassLimit)
  (hRoot : engine.grammar.validate root = .ok ()) (hGuarded : engine.grammar.Guarded root)

include hReached hLimit hRoot hGuarded

/-- After any part of its input a parse has reached a residual of the root. -/
theorem exists_consume_parseStep (start : List Λ.Token) :
    ∃ node after, (consume plain.parseStep start 0 root).run engine = .ok node after ∧
      Consumes start engine root after node :=
  (attains_consume attains_parseStep hReached.coherent (Grammar.validate_eq_ok_iff.mp hRoot) id
    (absurd hGuarded) 0).exists_run (Nat.one_le_iff_ne_zero.mp hLimit)

/-- A parse whose input is not longer than the limit is complete. -/
theorem exists_parseWithLimit_complete {string : List Λ.Token} {most : Nat}
    (hShort : string.length ≤ most) :
    ∃ trees after, (parseWithLimit root { tokens := string } (some most)).run engine =
      .ok (.ok (.complete trees)) after := by
  obtain ⟨node, middle, hConsume, hConsumes⟩ :=
    exists_consume_parseStep hReached hLimit hRoot hGuarded string
  have hMost (other : Nat) (hOther : some most = some other) : string.length ≤ other :=
    hShort.trans (Option.some.inj hOther).le
  rw [← hConsumes.configuration] at hLimit
  obtain ⟨trees, after, hForest, -⟩ :=
    (attains_forestOf hConsumes.coherent.informed hConsumes.residual.valid id).exists_run
      (Nat.one_le_iff_ne_zero.mp hLimit)
  refine ⟨trees, after, ?_⟩
  rw [forestOf] at hForest
  rw [run_parseWithLimit_of_consume hRoot (List.append_nil string).symm hMost hConsume,
    Manner.parseFrom, EStateM.run_bind, hForest]
  rfl

omit hReached in
/-- A parse that goes on from a residual in an engine with another journal has the trees of
the whole input. -/
theorem exists_parse_resumed {start rest : List Λ.Token} (event : Event Λ)
    (hConsume : (consume plain.parseStep start 0 root).run engine = .ok node after)
    (hConsumes : Consumes start engine root after node) :
    ∃ resumed afterResumed trees afterWhole,
      (parse node { tokens := rest }).run { after with journal := event :: after.journal } =
        .ok (.ok resumed) afterResumed ∧
      (parse root { tokens := start ++ rest }).run engine = .ok (.ok trees) afterWhole ∧
      (engine.configuration.collectInterval = 0 ∨
        afterResumed.Untruncated ∧ afterWhole.Untruncated → resumed = trees) := by
  have hLimited := Nat.one_le_iff_ne_zero.mp hLimit
  have hReported := hConsumes.reported event
  obtain ⟨_, afterWhole, hWhole, -, trees, rfl, hTrees⟩ :=
    (hConsumes.attains_parseFrom id (absurd hGuarded) start.length).exists_run hLimited
  obtain ⟨_, afterResumed, hRest, -, resumed, rfl, hResumed⟩ :=
    (hReported.attains_parseFrom id (absurd hGuarded) 0).exists_run hLimited
  refine ⟨resumed, afterResumed, trees, afterWhole, run_parse_of_complete ?_ hRest,
    run_parse_of_complete hRoot ?_, ?_⟩
  · exact Grammar.validate_eq_ok_iff.mpr hReported.residual.valid
  · rw [parseFrom_append fun _ _ => rfl, EStateM.run_bind, hConsume, Nat.zero_add]
    exact hWhole
  · rintro (hInterval | ⟨hExact, hExact'⟩)
    · -- Without collections the runs differ in what they report and count only.
      have hMirrors : Mirrors engine.configuration after
          { after with journal := event :: after.journal } :=
        ⟨hConsumes.configuration, _, rfl⟩
      have hSame := (parallel_parseFrom node hInterval rest start.length 0).result_eq hMirrors
        hWhole hRest
      exact ParseOutcome.complete.inj (Except.ok.inj hSame)
    · exact hResumed.eq hTrees hExact hExact'

end Guarded

/-- A parse is complete exactly if its input is not longer than the limit.  If it halts, a
parse of the rest from the node where it halted has the trees of a parse of the whole input:
in any case without collections, and otherwise if no forest query was ever stopped. -/
theorem parse_resumes (hReached : engine.Reached)
    (hLimit : 1 ≤ engine.configuration.forestPassLimit)
    (hRoot : engine.grammar.validate root = .ok ())
    (hGuarded : engine.grammar.Guarded root) (string : List Λ.Token) (most : Nat) :
    ∃ outcome after,
      (parseWithLimit root { tokens := string } (some most)).run engine =
        .ok (.ok outcome) after ∧
      ((∃ trees, outcome = .complete trees) ↔ string.length ≤ most) ∧
      (most < string.length → ∃ node, outcome = .halted node most ∧
        after.grammar.validate node = .ok () ∧
        ∀ start rest, string = start ++ rest → start.length = most →
          ∃ resumed afterResumed trees afterWhole,
            (parse node { tokens := rest }).run after = .ok (.ok resumed) afterResumed ∧
            (parse root { tokens := string }).run engine = .ok (.ok trees) afterWhole ∧
            (engine.configuration.collectInterval = 0 ∨
              afterResumed.Untruncated ∧ afterWhole.Untruncated → resumed = trees)) := by
  rcases Nat.lt_or_ge most string.length with hLong | hShort
  · obtain ⟨start, rest, rfl, rfl⟩ :
        ∃ start rest, string = start ++ rest ∧ start.length = most :=
      ⟨string.take most, string.drop most, (List.take_append_drop most string).symm,
        List.length_take_of_le hLong.le⟩
    have hRest : rest ≠ [] := by
      rintro rfl
      rw [List.append_nil] at hLong
      exact hLong.false
    obtain ⟨node, middle, hConsume, hConsumes⟩ :=
      exists_consume_parseStep hReached hLimit hRoot hGuarded start
    refine ⟨.halted node start.length, _, run_parseWithLimit_halted hRoot hRest hConsume,
      ⟨nofun, fun hShort => absurd hShort hLong.not_ge⟩, fun _ => ⟨node, rfl, ?_, ?_⟩⟩
    · exact Grammar.validate_eq_ok_iff.mpr hConsumes.residual.valid
    · intro start' rest' hString hLength
      obtain ⟨rfl, rfl⟩ := List.append_inj hString hLength.symm
      exact exists_parse_resumed hLimit hRoot hGuarded _ hConsume hConsumes
  · obtain ⟨trees, after, hRun⟩ :=
      exists_parseWithLimit_complete hReached hLimit hRoot hGuarded hShort
    exact ⟨.complete trees, after, hRun, ⟨fun _ => hShort, fun _ => ⟨trees, rfl⟩⟩,
      fun hLong => absurd hShort hLong.not_ge⟩

end Engine

namespace Tangle

/-- A new engine over the grammar that never collects. -/
def hoarder : Engine Lexicon.characters :=
  { grammar := grammar, configuration := { collectInterval := 0 } }

end Tangle

namespace Ladder

/-- A new engine over the grammar that collects after every token. -/
def collector : Engine Lexicon.characters :=
  { grammar := grammar, configuration := { collectInterval := 1 } }

/-- What the rule reaches. -/
def nodes : List Handle := [rule, ⟨3, 0⟩, ⟨4, 0⟩, ⟨5, 0⟩, Handle.eps]

theorem layered : ∀ handle ∈ nodes, grammar.layered nodes handle = true := by decide

theorem validate_rule : grammar.validate rule = .ok () :=
  Grammar.validate_eq_ok_iff.mpr (Grammar.valid_of_layered layered List.mem_cons_self)

theorem guarded_rule : grammar.Guarded rule :=
  Grammar.guarded_of_layered layered List.mem_cons_self

/-- Half of a parse of two letters, and then the other half. -/
def resuming : Action Lexicon.characters (Except ParseError (Forest Lexicon.characters.Token)) := do
  match ← Engine.parseWithLimit rule { tokens := ['a', 'a'] } (some 1) with
  | .ok (.halted node _) => Engine.parse node { tokens := ['a'] }
  | .ok (.complete trees) => return .ok trees
  | .error error => return .error error

end Ladder

namespace Engine

/-- One engine never collects, and the other collects after every token and is never
stopped. -/
theorem parse_resumes_tangle_and_ladder :
    (Tangle.hoarder.Reached ∧ 1 ≤ Tangle.hoarder.configuration.forestPassLimit ∧
      Tangle.hoarder.grammar.validate Tangle.rule = .ok () ∧
      Tangle.hoarder.grammar.Guarded Tangle.rule ∧
      ∃ node after resumed afterResumed afterWhole,
        (parseWithLimit Tangle.rule { tokens := ['a', 'a'] } (some 1)).run Tangle.hoarder =
          .ok (.ok (.halted node 1)) after ∧
        after.grammar.validate node = .ok () ∧
        (parse node { tokens := ['a'] }).run after = .ok (.ok resumed) afterResumed ∧
        (parse Tangle.rule { tokens := ['a', 'a'] }).run Tangle.hoarder =
          .ok (.ok resumed) afterWhole) ∧
    Ladder.collector.Reached ∧ 1 ≤ Ladder.collector.configuration.forestPassLimit ∧
      Ladder.collector.grammar.validate Ladder.rule = .ok () ∧
      Ladder.collector.grammar.Guarded Ladder.rule ∧
      ∃ node after resumed afterResumed afterWhole,
        (parseWithLimit Ladder.rule { tokens := ['a', 'a'] } (some 1)).run Ladder.collector =
          .ok (.ok (.halted node 1)) after ∧
        after.grammar.validate node = .ok () ∧
        (parse node { tokens := ['a'] }).run after = .ok (.ok resumed) afterResumed ∧
        (parse Ladder.rule { tokens := ['a', 'a'] }).run Ladder.collector =
          .ok (.ok resumed) afterWhole ∧
        afterResumed.Untruncated ∧ afterWhole.Untruncated ∧
        resumed.trees = [.pair (.leaf 'a') (.pair (.leaf 'a') .nil)] := by
  constructor
  · have hReached : Tangle.hoarder.Reached := .fresh _ _ Tangle.built
    obtain ⟨outcome, after, hRun, -, hHalted⟩ := parse_resumes hReached (by decide)
      Tangle.validate_rule Tangle.guarded_rule ['a', 'a'] 1
    obtain ⟨node, rfl, hNode, hResumes⟩ := hHalted (by decide)
    obtain ⟨resumed, afterResumed, trees, afterWhole, hResumed, hWhole, hSame⟩ :=
      hResumes ['a'] ['a'] rfl rfl
    obtain rfl := hSame (Or.inl rfl)
    exact ⟨hReached, by decide, Tangle.validate_rule, Tangle.guarded_rule, node, after, resumed,
      afterResumed, afterWhole, hRun, hNode, hResumed, hWhole⟩
  · have hReached : Ladder.collector.Reached := .fresh _ _ Ladder.built
    obtain ⟨outcome, after, hRun, -, hHalted⟩ := parse_resumes hReached (by decide)
      Ladder.validate_rule Ladder.guarded_rule ['a', 'a'] 1
    obtain ⟨node, rfl, hNode, hResumes⟩ := hHalted (by decide)
    obtain ⟨resumed, afterResumed, trees, afterWhole, hResumed, hWhole, hSame⟩ :=
      hResumes ['a'] ['a'] rfl rfl
    -- Both runs collect on their way, and neither is stopped.
    have hBoth : Ladder.resuming.run Ladder.collector = .ok (.ok resumed) afterResumed := by
      unfold Ladder.resuming
      rw [EStateM.run_bind, hRun]
      exact hResumed
    have hUntruncated : (Ladder.collector.afterwards Ladder.resuming).Untruncated ∧
        (Ladder.collector.afterwards
          (parse Ladder.rule { tokens := ['a', 'a'] })).Untruncated := by decide +kernel
    rw [afterwards_of_run hBoth, afterwards_of_run hWhole] at hUntruncated
    obtain rfl := hSame (Or.inr hUntruncated)
    have hFound : ((parse Ladder.rule { tokens := ['a', 'a'] }).run' Ladder.collector).map
        (fun result => result.toOption.map Forest.trees) =
          some (some [.pair (.leaf 'a') (.pair (.leaf 'a') .nil)]) := by decide +kernel
    rw [run'_eq_some hWhole] at hFound
    exact ⟨hReached, by decide, Ladder.validate_rule, Ladder.guarded_rule, node, after, resumed,
      afterResumed, afterWhole, hRun, hNode, hResumed, hWhole, hUntruncated.1, hUntruncated.2,
      Option.some.inj (Option.some.inj hFound)⟩

end Engine

end DerivativeParsing
