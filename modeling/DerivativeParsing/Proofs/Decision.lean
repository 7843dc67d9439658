import DerivativeParsing.Proofs.Correctness

namespace DerivativeParsing

/-!
# What the truth-valued queries decide

Whatever an engine did before, its queries about a validated node answer about the least
language of the node (`analyses_decide`):

* a node is nullable exactly if it accepts the empty string;
* an empty node accepts nothing, a node that is not consuming accepts nothing but the empty
  string, and a null-only node accepts the empty string and nothing else.

The analyses take it that every matcher accepts some token.  Where that is so of all
matchers in reach (`Satisfiable`), the answers of the second kind are exact as well.
-/

namespace Grammar

variable {Λ : Lexicon} {grammar : Grammar Λ} {handle : Handle} {node : Node Λ}

/-- Every matcher that a root reaches accepts some token. -/
def Satisfiable (grammar : Grammar Λ) (root : Handle) : Prop :=
  ∀ handle matcher, grammar.Reaches root handle →
    grammar.get? handle = some (.token matcher) → ∃ token, matcher.accepts token = true

theorem Satisfiable.child {child : Handle} (hSatisfiable : grammar.Satisfiable handle)
    (hNode : grammar.get? handle = some node) (hChild : child ∈ node.children) :
    grammar.Satisfiable child :=
  fun _ _ hReaches => hSatisfiable _ _ ((reaches_child hNode hChild).trans hReaches)

/-- A node that the analysis takes for inhabited accepts a string. -/
theorem Satisfiable.exists_accepts (hSatisfiable : grammar.Satisfiable handle)
    (hInhabited : grammar.Inhabited handle) : ∃ string, grammar.Accepts handle string := by
  -- The handles with a string, if satisfiable, are closed under the layers.
  refine grammar.inhabitedStep.lfp_le
    (a := fun handle _ => grammar.Satisfiable handle → ∃ string, grammar.Accepts handle string)
    ?_ handle () hInhabited hSatisfiable
  rintro handle _ ⟨node, hNode, hPart⟩ hSatisfiable
  have hBelow {child : Handle} (hChild : child ∈ node.children) :
      grammar.Satisfiable child := hSatisfiable.child hNode hChild
  cases node with
  | empty => exact hPart.elim
  | eps forest => exact ⟨[], .eps hNode⟩
  | token matcher =>
      obtain ⟨token, hToken⟩ := hSatisfiable handle matcher (Reaches.refl handle) hNode
      exact ⟨[token], .token hNode hToken⟩
  | union left right =>
      rcases hPart with hLeft | hRight
      · obtain ⟨string, hString⟩ := hLeft (hBelow (by simp [Node.children]))
        exact ⟨string, .left hNode hString⟩
      · obtain ⟨string, hString⟩ := hRight (hBelow (by simp [Node.children]))
        exact ⟨string, .right hNode hString⟩
  | sequence first second =>
      obtain ⟨start, hStart⟩ := hPart.1 (hBelow (by simp [Node.children]))
      obtain ⟨rest, hRest⟩ := hPart.2 (hBelow (by simp [Node.children]))
      exact ⟨start ++ rest, .sequence hNode hStart hRest⟩
  | repetition inner => exact ⟨[], .stop hNode⟩
  | reduction inner reducer =>
      obtain ⟨string, hString⟩ := hPart (hBelow (by simp [Node.children]))
      exact ⟨string, .reduction hNode hString⟩
  | delegate target =>
      cases target with
      | none => exact hPart.elim
      | some target =>
          obtain ⟨string, hString⟩ := hPart (hBelow (by simp [Node.children]))
          exact ⟨string, .delegate hNode hString⟩

/-- A node that the analysis takes for consuming accepts a string that is not empty. -/
theorem Satisfiable.exists_accepts_ne_nil (hSatisfiable : grammar.Satisfiable handle)
    (hConsuming : grammar.Consuming handle) :
    ∃ string, grammar.Accepts handle string ∧ string ≠ [] := by
  refine grammar.consumingStep.lfp_le
    (a := fun handle _ => grammar.Satisfiable handle →
      ∃ string, grammar.Accepts handle string ∧ string ≠ [])
    ?_ handle () hConsuming hSatisfiable
  rintro handle _ ⟨node, hNode, hPart⟩ hSatisfiable
  have hBelow {child : Handle} (hChild : child ∈ node.children) :
      grammar.Satisfiable child := hSatisfiable.child hNode hChild
  cases node with
  | empty => exact hPart.elim
  | eps forest => exact hPart.elim
  | token matcher =>
      obtain ⟨token, hToken⟩ := hSatisfiable handle matcher (Reaches.refl handle) hNode
      exact ⟨[token], .token hNode hToken, List.cons_ne_nil token []⟩
  | union left right =>
      rcases hPart with hLeft | hRight
      · obtain ⟨string, hString, hLong⟩ := hLeft (hBelow (by simp [Node.children]))
        exact ⟨string, .left hNode hString, hLong⟩
      · obtain ⟨string, hString, hLong⟩ := hRight (hBelow (by simp [Node.children]))
        exact ⟨string, .right hNode hString, hLong⟩
  | sequence first second =>
      have hFirst : grammar.Satisfiable first := hBelow (by simp [Node.children])
      have hSecond : grammar.Satisfiable second := hBelow (by simp [Node.children])
      -- One operand gives a token, and the other any string at all.
      rcases hPart with ⟨hConsumes, hInhabited⟩ | ⟨hConsumes, hInhabited⟩
      · obtain ⟨start, hStart, hLong⟩ := hConsumes hFirst
        obtain ⟨rest, hRest⟩ := hSecond.exists_accepts hInhabited
        exact ⟨start ++ rest, .sequence hNode hStart hRest, by simp [hLong]⟩
      · obtain ⟨rest, hRest, hLong⟩ := hConsumes hSecond
        obtain ⟨start, hStart⟩ := hFirst.exists_accepts hInhabited
        exact ⟨start ++ rest, .sequence hNode hStart hRest, by simp [hLong]⟩
  | repetition inner =>
      obtain ⟨string, hString, hLong⟩ := hPart (hBelow (by simp [Node.children]))
      exact ⟨string ++ [], .more hNode hString (.stop hNode), by simp [hLong]⟩
  | reduction inner reducer =>
      obtain ⟨string, hString, hLong⟩ := hPart (hBelow (by simp [Node.children]))
      exact ⟨string, .reduction hNode hString, hLong⟩
  | delegate target =>
      cases target with
      | none => exact hPart.elim
      | some target =>
          obtain ⟨string, hString, hLong⟩ := hPart (hBelow (by simp [Node.children]))
          exact ⟨string, .delegate hNode hString, hLong⟩

/-- A node accepts no string if the analysis finds no match. -/
theorem not_accepts_of_not_inhabited (hInhabited : ¬ grammar.Inhabited handle)
    (string : List Λ.Token) : ¬ grammar.Accepts handle string := by
  intro hAccepts
  obtain ⟨depth, hMatch⟩ := accepts_iff.mp hAccepts
  exact hInhabited (inhabited_of_within hMatch)

/-- A node accepts at most the empty string if the analysis finds no other match. -/
theorem nil_of_accepts_of_not_consuming (hConsuming : ¬ grammar.Consuming handle)
    {string : List Λ.Token} (hAccepts : grammar.Accepts handle string) : string = [] := by
  obtain ⟨depth, hMatch⟩ := accepts_iff.mp hAccepts
  by_contra hLong
  exact hConsuming (consuming_of_within hMatch hLong)

theorem Satisfiable.not_inhabited_iff (hSatisfiable : grammar.Satisfiable handle) :
    ¬ grammar.Inhabited handle ↔ ∀ string, ¬ grammar.Accepts handle string := by
  constructor
  · exact not_accepts_of_not_inhabited
  · intro hNone hInhabited
    obtain ⟨string, hString⟩ := hSatisfiable.exists_accepts hInhabited
    exact hNone string hString

theorem Satisfiable.not_consuming_iff (hSatisfiable : grammar.Satisfiable handle) :
    ¬ grammar.Consuming handle ↔ ∀ string, grammar.Accepts handle string → string = [] := by
  constructor
  · exact fun hConsuming _ => nil_of_accepts_of_not_consuming hConsuming
  · intro hNil hConsuming
    obtain ⟨string, hString, hLong⟩ := hSatisfiable.exists_accepts_ne_nil hConsuming
    exact hLong (hNil string hString)

end Grammar

namespace Engine

variable {Λ : Lexicon} {engine : Engine Λ} {node : Handle}

theorem exists_isNullable (hInformed : engine.Informed) (hValid : engine.grammar.Valid node) :
    ∃ value after, (isNullable node).run engine = .ok value after ∧
      (value = true ↔ engine.grammar.Accepts node []) := by
  obtain ⟨value, after, hRun, -, hValue⟩ :=
    (attains_isNullable hInformed hValid).exists_run not_false
  exact ⟨value, after, hRun, hValue.trans Grammar.accepts_iff.symm⟩

theorem exists_isEmpty (hInformed : engine.Informed) (hValid : engine.grammar.Valid node) :
    ∃ value after, (isEmpty node).run engine = .ok value after ∧
      (value = true → ∀ string, ¬ engine.grammar.Accepts node string) ∧
      (engine.grammar.Satisfiable node →
        (value = true ↔ ∀ string, ¬ engine.grammar.Accepts node string)) := by
  obtain ⟨value, after, hRun, -, hValue⟩ :=
    (attains_isEmpty hInformed hValid).exists_run not_false
  refine ⟨value, after, hRun, fun hEmpty => ?_, fun hSatisfiable => ?_⟩
  · exact Grammar.not_accepts_of_not_inhabited (hValue.mp hEmpty)
  · exact hValue.trans hSatisfiable.not_inhabited_iff

theorem exists_isConsuming (hInformed : engine.Informed)
    (hValid : engine.grammar.Valid node) :
    ∃ value after, (isConsuming node).run engine = .ok value after ∧
      (value = false → ∀ string, engine.grammar.Accepts node string → string = []) ∧
      (engine.grammar.Satisfiable node →
        (value = false ↔ ∀ string, engine.grammar.Accepts node string → string = [])) := by
  obtain ⟨value, after, hRun, -, hValue⟩ :=
    (attains_isConsuming hInformed hValid).exists_run not_false
  have hNot : value = false ↔ ¬ engine.grammar.Consuming node := by
    rw [← hValue, Bool.not_eq_true]
  refine ⟨value, after, hRun, fun hConsuming string => ?_, fun hSatisfiable => ?_⟩
  · exact Grammar.nil_of_accepts_of_not_consuming (hNot.mp hConsuming)
  · exact hNot.trans hSatisfiable.not_consuming_iff

theorem exists_isNullOnly (hInformed : engine.Informed) (hValid : engine.grammar.Valid node) :
    ∃ value after, (isNullOnly node).run engine = .ok value after ∧
      (value = true → ∀ string, engine.grammar.Accepts node string ↔ string = []) ∧
      (engine.grammar.Satisfiable node →
        (value = true ↔ ∀ string, engine.grammar.Accepts node string ↔ string = [])) := by
  obtain ⟨value, after, hRun, -, hValue⟩ :=
    (attains_isNullOnly hInformed hValid).exists_run not_false
  rw [← Grammar.accepts_iff] at hValue
  have hOnly (hTrue : value = true) (string : List Λ.Token) :
      engine.grammar.Accepts node string ↔ string = [] := by
    obtain ⟨hNil, hConsuming⟩ := hValue.mp hTrue
    constructor
    · exact Grammar.nil_of_accepts_of_not_consuming hConsuming
    · rintro rfl
      exact hNil
  refine ⟨value, after, hRun, hOnly, fun hSatisfiable => ⟨hOnly, fun hLanguage => ?_⟩⟩
  have hNil : engine.grammar.Accepts node [] := (hLanguage []).mpr rfl
  have hConsuming : ¬ engine.grammar.Consuming node :=
    hSatisfiable.not_consuming_iff.mpr fun string => (hLanguage string).mp
  exact hValue.mpr ⟨hNil, hConsuming⟩

/-- The four queries answer about the language of the node, in every state that the engine
gets into.  What they deny is exact only if every matcher in reach accepts some token. -/
theorem analyses_decide (hReached : engine.Reached)
    (hNode : engine.grammar.validate node = .ok ()) :
    (∃ value after, (isNullable node).run engine = .ok value after ∧
      (value = true ↔ engine.grammar.Accepts node [])) ∧
    (∃ value after, (isEmpty node).run engine = .ok value after ∧
      (value = true → ∀ string, ¬ engine.grammar.Accepts node string) ∧
      (engine.grammar.Satisfiable node →
        (value = true ↔ ∀ string, ¬ engine.grammar.Accepts node string))) ∧
    (∃ value after, (isConsuming node).run engine = .ok value after ∧
      (value = false → ∀ string, engine.grammar.Accepts node string → string = []) ∧
      (engine.grammar.Satisfiable node →
        (value = false ↔ ∀ string, engine.grammar.Accepts node string → string = []))) ∧
    ∃ value after, (isNullOnly node).run engine = .ok value after ∧
      (value = true → ∀ string, engine.grammar.Accepts node string ↔ string = []) ∧
      (engine.grammar.Satisfiable node →
        (value = true ↔ ∀ string, engine.grammar.Accepts node string ↔ string = [])) := by
  have hInformed : engine.Informed := hReached.coherent.informed
  have hValid : engine.grammar.Valid node := Grammar.validate_eq_ok_iff.mp hNode
  exact ⟨exists_isNullable hInformed hValid, exists_isEmpty hInformed hValid,
    exists_isConsuming hInformed hValid, exists_isNullOnly hInformed hValid⟩

end Engine

namespace Barren

/-- A rule that needs itself after a letter, and so accepts nothing. -/
def rule : Handle := ⟨2, 0⟩

/-- Any number of matches of the rule, which is none. -/
def star : Handle := ⟨5, 0⟩

/-- The nodes of the rule and its repetition. -/
def untied : Grammar Lexicon.characters :=
  let (rule, grammar) := Grammar.initial.delegate
  let (letter, grammar) := grammar.literal 'a'
  let (_, grammar) := grammar.sequence letter rule
  (grammar.repetition rule).2

def grammar : Grammar Lexicon.characters := untied.patch rule (.delegate (some ⟨4, 0⟩))

/-- What the repetition reaches. -/
def nodes : List Handle := [star, rule, ⟨4, 0⟩, ⟨3, 0⟩]

theorem layered : ∀ handle ∈ nodes, grammar.layered nodes handle = true := by decide

theorem built : grammar.Built := by
  have hUntied : untied.Built := .alloc _ _ (.alloc _ _ (.alloc _ _ (.alloc _ _ .initial)))
  have hSet : untied.setTarget rule ⟨4, 0⟩ = .ok grammar := rfl
  exact .setTarget hUntied hSet

theorem validate_star : grammar.validate star = .ok () :=
  Grammar.validate_eq_ok_iff.mpr (Grammar.valid_of_layered layered List.mem_cons_self)

theorem satisfiable_star : grammar.Satisfiable star := by
  intro handle matcher hReaches hToken
  have hMem : handle ∈ nodes := Grammar.mem_of_layered layered List.mem_cons_self hReaches
  have hLetters : ∀ handle ∈ nodes, ∀ matcher, grammar.get? handle = some (.token matcher) →
      matcher = .literal 'a' := by
    simp only [nodes, List.forall_mem_cons]
    exact ⟨nofun, nofun, nofun, fun matcher hFound => by cases hFound; rfl, nofun⟩
  rw [hLetters handle hMem matcher hToken]
  exact ⟨'a', rfl⟩

/-- A new engine over the grammar. -/
def engine : Engine Lexicon.characters := { grammar := grammar }

end Barren

namespace Engine

/-- The repetition of a rule without strings is found to accept the empty string only. -/
theorem analyses_decide_barren :
    Barren.engine.Reached ∧ Barren.engine.grammar.validate Barren.star = .ok () ∧
      Barren.engine.grammar.Satisfiable Barren.star ∧
      ∃ after, (isNullOnly Barren.star).run Barren.engine = .ok true after ∧
        ∀ string, Barren.engine.grammar.Accepts Barren.star string ↔ string = [] := by
  have hReached : Barren.engine.Reached := .fresh {} _ Barren.built
  obtain ⟨-, -, -, value, after, hRun, hOnly, -⟩ :=
    analyses_decide hReached Barren.validate_star
  have hAnswer : (isNullOnly Barren.star).run' Barren.engine = some true := by decide +kernel
  obtain rfl : value = true := Option.some.inj ((run'_eq_some hRun).symm.trans hAnswer)
  exact ⟨hReached, Barren.validate_star, Barren.satisfiable_star, after, hRun, hOnly rfl⟩

end Engine

end DerivativeParsing
