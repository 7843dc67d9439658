import DerivativeParsing.Lexicon.Standard
import DerivativeParsing.Proofs.Engine.Traced

namespace DerivativeParsing

/-!
# Recognition and parsing are exact

Whatever an engine did before, a run over a validated root in which every cycle passes
through a delegate answers about the least language and the least parse relation of the
root:

* recognition accepts exactly the strings of the language (`recognises_iff_accepts`);
* the trees of a parse are parse trees of the input, and all of them if every forest query
  that the engine ever made has converged (`parse_iff_parses`);
* if no forest in reach is empty, a parse gives a tree exactly if recognition accepts,
  whether or not forest queries were stopped (`parse_agrees_recognises`).
-/

namespace Tangle

/-- The rule of the tangle. -/
def rule : Handle := ⟨2, 0⟩

/-- The nodes behind the rule: one letter, or twice the rule. -/
def untied : Grammar Lexicon.characters :=
  let (rule, grammar) := Grammar.initial.delegate
  let (letter, grammar) := grammar.literal 'a'
  let (twice, grammar) := grammar.sequence rule rule
  (grammar.union letter twice).2

/-- A grammar whose only rule is left recursive and ambiguous. -/
def grammar : Grammar Lexicon.characters := untied.patch rule (.delegate (some ⟨5, 0⟩))

/-- What the rule reaches. -/
def nodes : List Handle := [rule, ⟨3, 0⟩, ⟨4, 0⟩, ⟨5, 0⟩]

theorem layered : ∀ handle ∈ nodes, grammar.layered nodes handle = true := by decide

theorem built : grammar.Built := by
  have hUntied : untied.Built := .alloc _ _ (.alloc _ _ (.alloc _ _ (.alloc _ _ .initial)))
  have hSet : untied.setTarget rule ⟨5, 0⟩ = .ok grammar := rfl
  exact .setTarget hUntied hSet

theorem validate_rule : grammar.validate rule = .ok () :=
  Grammar.validate_eq_ok_iff.mpr (Grammar.valid_of_layered layered List.mem_cons_self)

theorem guarded_rule : grammar.Guarded rule :=
  Grammar.guarded_of_layered layered List.mem_cons_self

theorem fruitful_rule : grammar.Fruitful rule := by
  intro handle node hReaches hNode
  have hMem := Grammar.mem_of_layered layered List.mem_cons_self hReaches
  have hOwn : ∀ handle ∈ nodes, ∃ node,
      grammar.get? handle = some node ∧ node.Fruitful := by
    simp only [nodes, List.forall_mem_cons]
    exact ⟨⟨_, rfl, trivial⟩, ⟨_, rfl, trivial⟩, ⟨_, rfl, trivial⟩, ⟨_, rfl, trivial⟩,
      nofun⟩
  obtain ⟨other, hOther, hFruitful⟩ := hOwn handle hMem
  obtain rfl := Option.some.inj (hNode.symm.trans hOther)
  exact hFruitful

/-- Two letters are a string of the rule. -/
theorem accepts_rule : grammar.Accepts rule ['a', 'a'] := by
  have hLetter : grammar.Accepts rule ['a'] := .delegate rfl (.left rfl (.token rfl rfl))
  exact .delegate rfl (.right rfl (.sequence rfl hLetter hLetter))

/-- A new engine over the grammar. -/
def engine : Engine Lexicon.characters := { grammar := grammar }

theorem reached : engine.Reached := .fresh {} _ built

/-- A new engine over the grammar that does not compact. -/
def direct : Engine Lexicon.characters :=
  { grammar := grammar, configuration := { compact := false } }

/-- The trees of three letters: the first two belong together, or the last two. -/
def leftmost : Tree Lexicon.characters.Token := .pair (.pair (.leaf 'a') (.leaf 'a')) (.leaf 'a')

def rightmost : Tree Lexicon.characters.Token := .pair (.leaf 'a') (.pair (.leaf 'a') (.leaf 'a'))

end Tangle

namespace Engine

variable {Λ : Lexicon} {engine : Engine Λ} {root : Handle}

/-- Recognition is exact, for every state that the engine gets into. -/
theorem recognises_iff_accepts (hReached : engine.Reached)
    (hLimit : 1 ≤ engine.configuration.forestPassLimit)
    (hRoot : engine.grammar.validate root = .ok ())
    (hGuarded : engine.grammar.Guarded root) (string : List Λ.Token) :
    ∃ value after,
      (recognises root { tokens := string }).run engine = .ok (.ok value) after ∧
        (value = true ↔ engine.grammar.Accepts root string) := by
  obtain ⟨result, after, hRun, -, hResult⟩ :=
    (attains_recognises hReached.coherent id (absurd hGuarded)
      { tokens := string }).exists_run (Nat.one_le_iff_ne_zero.mp hLimit)
  obtain ⟨value, rfl, hValue⟩ := hResult (Grammar.validate_eq_ok_iff.mp hRoot) rfl
  exact ⟨value, after, hRun, hValue.trans Grammar.accepts_iff.symm⟩

theorem recognises_tangle :
    Tangle.engine.Reached ∧ 1 ≤ Tangle.engine.configuration.forestPassLimit ∧
      Tangle.engine.grammar.validate Tangle.rule = .ok () ∧
      Tangle.engine.grammar.Guarded Tangle.rule ∧
      ∃ after, (recognises Tangle.rule { tokens := ['a', 'a'] }).run Tangle.engine =
        .ok (.ok true) after := by
  obtain ⟨value, after, hRun, hValue⟩ := recognises_iff_accepts Tangle.reached (by decide)
    Tangle.validate_rule Tangle.guarded_rule ['a', 'a']
  obtain rfl := hValue.mpr Tangle.accepts_rule
  exact ⟨Tangle.reached, by decide, Tangle.validate_rule, Tangle.guarded_rule, after, hRun⟩

/-- The trees of a parse that has ended are parse trees of the input, and all of them if no
forest query in the history of the engine was stopped, those of the parse included.  The
history is the record that comes with the state (`Recorded`), and the parse adds to it what a
parse that notes its forest queries notes.  With a limit on forest queries every parse ends. -/
theorem parse_iff_parses {queries : List (ForestQuery Λ)} (hRecorded : engine.Recorded queries)
    (hRoot : engine.grammar.validate root = .ok ())
    (hGuarded : engine.grammar.Guarded root) (string : List Λ.Token) :
    (1 ≤ engine.configuration.forestPassLimit → ∃ result after,
      (parse root { tokens := string }).run engine = .ok result after) ∧
    ∀ result after, (parse root { tokens := string }).run engine = .ok result after →
      ∃ trees later, result = .ok trees ∧
        ((tracing.parse root { tokens := string }).run queries).run engine =
          .ok (.ok trees, later ++ queries) after ∧
        Accounts engine later after ∧
        (∀ tree, tree ∈ trees → engine.grammar.Parses root string tree) ∧
        ((∀ query ∈ later ++ queries, query.solution.converged = true) → ∀ tree,
          tree ∈ trees ↔ engine.grammar.Parses root string tree) := by
  have hRun := attains_parse hRecorded.reached.coherent id (absurd hGuarded) { tokens := string }
  constructor
  · intro hLimit
    obtain ⟨result, after, hRun, -⟩ := hRun.exists_run (Nat.one_le_iff_ne_zero.mp hLimit)
    exact ⟨result, after, hRun⟩
  · intro result after hEnded
    obtain ⟨-, hResult⟩ := hRun.of_run hEnded
    obtain ⟨trees, rfl, hTrees⟩ := hResult (Grammar.validate_eq_ok_iff.mp hRoot) rfl
    obtain ⟨later, hTraced, hAccounts⟩ := follows_parse.exists_entries hEnded queries
    -- The journal tells exactly the queries of the history that were stopped.
    have hExact (hConverged : ∀ query ∈ later ++ queries, query.solution.converged = true) :
        after.Untruncated := by
      obtain ⟨hLater, hBefore⟩ := List.forall_mem_append.mp hConverged
      exact hAccounts.untruncated_iff.mpr ⟨hLater, hRecorded.untruncated_iff.mpr hBefore⟩
    have hSound (tree : Tree Λ.Token) (hTree : tree ∈ trees) :
        engine.grammar.Parses root string tree :=
      Grammar.parses_iff.mpr (hTrees.sound tree hTree)
    refine ⟨trees, later, rfl, hTraced, hAccounts, hSound, fun hConverged tree =>
      ⟨hSound tree, fun hParses => ?_⟩⟩
    exact hTrees.complete (hExact hConverged) tree (Grammar.parses_iff.mp hParses)

theorem parse_tangle :
    Tangle.direct.Recorded [] ∧ Tangle.direct.grammar.validate Tangle.rule = .ok () ∧
      Tangle.direct.grammar.Guarded Tangle.rule ∧
      ∃ trees later after, (parse Tangle.rule { tokens := ['a', 'a', 'a'] }).run Tangle.direct =
          .ok (.ok trees) after ∧
        ((tracing.parse Tangle.rule { tokens := ['a', 'a', 'a'] }).run []).run Tangle.direct =
          .ok (.ok trees, later) after ∧
        (∀ query ∈ later, query.IsAnswer ∧ query.solution.converged = true) ∧
        after.Untruncated ∧
        trees.trees = [Tangle.rightmost, Tangle.leftmost] ∧
        ∀ tree, Tangle.direct.grammar.Parses Tangle.rule ['a', 'a', 'a'] tree ↔
          tree = Tangle.rightmost ∨ tree = Tangle.leftmost := by
  have hRecorded : Tangle.direct.Recorded [] := .fresh _ _ Tangle.built
  obtain ⟨hEnds, hRight⟩ := parse_iff_parses hRecorded Tangle.validate_rule
    Tangle.guarded_rule ['a', 'a', 'a']
  obtain ⟨result, after, hRun⟩ := hEnds (by decide)
  obtain ⟨trees, later, rfl, hTraced, hAccounts, -, hTrees⟩ := hRight result after hRun
  rw [List.append_nil] at hTraced hTrees
  -- What is left is to run the parse.
  have hFound : ((parse Tangle.rule { tokens := ['a', 'a', 'a'] }).run' Tangle.direct).map
      (fun result => result.toOption.map Forest.trees) =
        some (some [Tangle.rightmost, Tangle.leftmost]) := by decide +kernel
  have hUntruncated : (Tangle.direct.afterwards
      (parse Tangle.rule { tokens := ['a', 'a', 'a'] })).Untruncated := by decide +kernel
  rw [run'_eq_some hRun] at hFound
  rw [afterwards_of_run hRun] at hUntruncated
  have hOwn : trees.trees = [Tangle.rightmost, Tangle.leftmost] :=
    Option.some.inj (Option.some.inj hFound)
  obtain ⟨hConverged, -⟩ := hAccounts.untruncated_iff.mp hUntruncated
  refine ⟨hRecorded, Tangle.validate_rule, Tangle.guarded_rule, trees, later, after, hRun,
    hTraced, fun query hQuery => ⟨(hAccounts.answered query hQuery).1, hConverged query hQuery⟩,
    hUntruncated, hOwn, fun tree => ?_⟩
  rw [← hTrees hConverged, Forest.mem_def, hOwn]
  simp

/-- A parse gives a tree exactly if recognition accepts, even if forest queries were
stopped on the way. -/
theorem parse_agrees_recognises (hReached : engine.Reached)
    (hLimit : 1 ≤ engine.configuration.forestPassLimit)
    (hRoot : engine.grammar.validate root = .ok ())
    (hGuarded : engine.grammar.Guarded root) (hFruitful : engine.grammar.Fruitful root)
    (string : List Λ.Token) :
    ∃ trees afterParse value afterRecognition,
      (parse root { tokens := string }).run engine = .ok (.ok trees) afterParse ∧
      (recognises root { tokens := string }).run engine =
        .ok (.ok value) afterRecognition ∧
      (trees.isEmpty = false ↔ value = true) := by
  have hValid := Grammar.validate_eq_ok_iff.mp hRoot
  have hLimited := Nat.one_le_iff_ne_zero.mp hLimit
  obtain ⟨parsed, afterParse, hParse, -, hParsed⟩ :=
    (attains_parse hReached.coherent id (absurd hGuarded)
      { tokens := string }).exists_run hLimited
  obtain ⟨recognised, afterRecognition, hRecognise, -, hRecognised⟩ :=
    (attains_recognises hReached.coherent id (absurd hGuarded)
      { tokens := string }).exists_run hLimited
  obtain ⟨trees, rfl, hTrees⟩ := hParsed hValid rfl
  obtain ⟨value, rfl, hValue⟩ := hRecognised hValid rfl
  refine ⟨trees, afterParse, value, afterRecognition, hParse, hRecognise, ?_⟩
  rw [Forest.isEmpty_eq_false_iff, hValue]
  constructor
  · rintro ⟨tree, hTree⟩
    exact Grammar.language_of_meaning (hTrees.sound tree hTree)
  · exact hTrees.fruitful hFruitful

theorem parse_agrees_recognises_tangle :
    Tangle.engine.Reached ∧ 1 ≤ Tangle.engine.configuration.forestPassLimit ∧
      Tangle.engine.grammar.validate Tangle.rule = .ok () ∧
      Tangle.engine.grammar.Guarded Tangle.rule ∧
      Tangle.engine.grammar.Fruitful Tangle.rule ∧
      ∃ trees afterParse value afterRecognition,
        (parse Tangle.rule { tokens := ['a', 'a'] }).run Tangle.engine =
          .ok (.ok trees) afterParse ∧
        (recognises Tangle.rule { tokens := ['a', 'a'] }).run Tangle.engine =
          .ok (.ok value) afterRecognition ∧
        (trees.isEmpty = false ↔ value = true) :=
  ⟨Tangle.reached, by decide, Tangle.validate_rule, Tangle.guarded_rule,
    Tangle.fruitful_rule, parse_agrees_recognises Tangle.reached (by decide)
      Tangle.validate_rule Tangle.guarded_rule Tangle.fruitful_rule ['a', 'a']⟩

end Engine

end DerivativeParsing
