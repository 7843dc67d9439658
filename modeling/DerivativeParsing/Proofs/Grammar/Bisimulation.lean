import DerivativeParsing.Proofs.Grammar.Coinduction
import DerivativeParsing.Proofs.Grammar.Unwrapping

namespace DerivativeParsing

/-!
# Bisimilar nodes are found equal

A relation is a bisimulation if what it relates matches once it is resolved: the two are of one
kind, and their parts are related again (`Bisimulation`).  Whatever some bisimulation relates
is found equal, and so is what some relation strips to matching cores, with the same chain of
reducers around them (`bisimulation_stripped`).  In a graph without cycles made of delegates and
reductions alone there is a core for every handle.

Two nodes are alike if they have the same chain of reducers around bodies of one kind, and the
parts of the bodies are alike again (`Alike`).  This is the same for nodes, and they are found
equal as well (`equal_of_resembles`).
-/

namespace Grammar

variable {Λ : Lexicon} {grammar : Grammar Λ} {first second : Handle}
  {related : Handle → Handle → Prop}

section Bisimilarity

variable {related' : Handle → Handle → Prop}

/-- Two nodes are the same or of one kind, and their parts are related: those of unions straight
or crossed, and of reductions the nodes below equal chains of reducers. -/
inductive Matches (grammar : Grammar Λ) (related : Handle → Handle → Prop) :
    Handle → Handle → Prop
  | same (handle : Handle) : Matches grammar related handle handle
  | empty {first second : Handle} : grammar.get? first = some .empty →
      grammar.get? second = some .empty → Matches grammar related first second
  | eps {first second : Handle} {forest forest' : Forest Λ.Token} :
      grammar.get? first = some (.eps forest) → grammar.get? second = some (.eps forest') →
      Matches grammar related first second
  | token {first second : Handle} {matcher : Matcher Λ} :
      grammar.get? first = some (.token matcher) →
      grammar.get? second = some (.token matcher) → Matches grammar related first second
  | straight {first second left right left' right' : Handle} :
      grammar.get? first = some (.union left right) →
      grammar.get? second = some (.union left' right') →
      related left left' → related right right' → Matches grammar related first second
  | crossed {first second left right left' right' : Handle} :
      grammar.get? first = some (.union left right) →
      grammar.get? second = some (.union left' right') →
      related left right' → related right left' → Matches grammar related first second
  | sequence {first second head tail head' tail' : Handle} :
      grammar.get? first = some (.sequence head tail) →
      grammar.get? second = some (.sequence head' tail') →
      related head head' → related tail tail' → Matches grammar related first second
  | repetition {first second inner inner' : Handle} :
      grammar.get? first = some (.repetition inner) →
      grammar.get? second = some (.repetition inner') → related inner inner' →
      Matches grammar related first second
  | reduction {first second inner inner' : Handle} {reducer reducer' : Reducer Λ} :
      grammar.get? first = some (.reduction inner reducer) →
      grammar.get? second = some (.reduction inner' reducer') →
      (grammar.reductionChain first).1 = (grammar.reductionChain second).1 →
      related (grammar.reductionChain first).2 (grammar.reductionChain second).2 →
      Matches grammar related first second

/-- What is related matches once it is resolved. -/
def Bisimulation (grammar : Grammar Λ) (related : Handle → Handle → Prop) : Prop :=
  ∀ first second, related first second →
    grammar.Matches related (grammar.resolve first) (grammar.resolve second)

theorem Matches.mono (hMatches : grammar.Matches related first second)
    (hMono : ∀ first second, related first second → related' first second) :
    grammar.Matches related' first second := by
  cases hMatches with
  | same => exact .same _
  | empty hFirst hSecond => exact .empty hFirst hSecond
  | eps hFirst hSecond => exact .eps hFirst hSecond
  | token hFirst hSecond => exact .token hFirst hSecond
  | straight hFirst hSecond hLeft hRight =>
      exact .straight hFirst hSecond (hMono _ _ hLeft) (hMono _ _ hRight)
  | crossed hFirst hSecond hLeft hRight =>
      exact .crossed hFirst hSecond (hMono _ _ hLeft) (hMono _ _ hRight)
  | sequence hFirst hSecond hHead hTail =>
      exact .sequence hFirst hSecond (hMono _ _ hHead) (hMono _ _ hTail)
  | repetition hFirst hSecond hInner => exact .repetition hFirst hSecond (hMono _ _ hInner)
  | reduction hFirst hSecond hChain hBody =>
      exact .reduction hFirst hSecond hChain (hMono _ _ hBody)

/-- Two nodes that match need no comparison, or can be paired part by part. -/
theorem Matches.pairable (hMatches : grammar.Matches related first second) :
    first = second ∨ grammar.sameLeaf first second = true ∨
      ∃ pairs ∈ grammar.pairings first second, ∀ pair ∈ pairs, related pair.1 pair.2 := by
  cases hMatches with
  | same => exact Or.inl rfl
  | empty hFirst hSecond => exact Or.inr (Or.inl (by simp [sameLeaf, hFirst, hSecond]))
  | eps hFirst hSecond => exact Or.inr (Or.inl (by simp [sameLeaf, hFirst, hSecond]))
  | token hFirst hSecond => exact Or.inr (Or.inl (by simp [sameLeaf, hFirst, hSecond]))
  | @straight _ left right left' right' hFirst hSecond hLeft hRight =>
      refine Or.inr (Or.inr ⟨[(left, left'), (right, right')], ?_, ?_⟩)
      · simp [pairings, hFirst, hSecond]
      · simp [hLeft, hRight]
  | @crossed _ left right left' right' hFirst hSecond hLeft hRight =>
      refine Or.inr (Or.inr ⟨[(left, right'), (right, left')], ?_, ?_⟩)
      · simp [pairings, hFirst, hSecond]
      · simp [hLeft, hRight]
  | @sequence _ head tail head' tail' hFirst hSecond hHead hTail =>
      refine Or.inr (Or.inr ⟨[(head, head'), (tail, tail')], ?_, ?_⟩)
      · simp [pairings, hFirst, hSecond]
      · simp [hHead, hTail]
  | @repetition _ inner inner' hFirst hSecond hInner =>
      refine Or.inr (Or.inr ⟨[(inner, inner')], ?_, ?_⟩)
      · simp [pairings, hFirst, hSecond]
      · simp [hInner]
  | reduction hFirst hSecond hChain hBody =>
      refine Or.inr (Or.inr ⟨[((grammar.reductionChain first).2,
        (grammar.reductionChain second).2)], ?_, ?_⟩)
      · simp [pairings, hFirst, hSecond, hChain]
      · simp [hBody]

theorem Bisimulation.pairable (hBisimulation : grammar.Bisimulation related) :
    grammar.Pairable related := by
  intro first second hRelated
  rcases (hBisimulation first second hRelated).pairable with hSame | hLeaf | hPairs
  · exact Or.inl (settled_eq_true_iff.mpr (Or.inl (Or.inl hSame)))
  · exact Or.inl (settled_eq_true_iff.mpr (Or.inr hLeaf))
  · exact Or.inr hPairs

/-- Two handles have the same reducers around cores that match. -/
def Stripped (grammar : Grammar Λ) (related : Handle → Handle → Prop)
    (first second : Handle) : Prop :=
  ∃ reducers core core', grammar.Strips first reducers core ∧
    grammar.Strips second reducers core' ∧ grammar.Matches related core core'

/-- Handles around matching cores are bisimilar, if that is so of all that is related. -/
theorem bisimulation_stripped
    (hRelated : ∀ first second, related first second → grammar.Stripped related first second) :
    grammar.Bisimulation (grammar.Stripped related) := by
  rintro first second ⟨reducers, core, core', hStrips, hStrips', hMatches⟩
  obtain ⟨hResolved, hStuck⟩ := hStrips.resolve
  obtain ⟨hResolved', hStuck'⟩ := hStrips'.resolve
  rcases hResolved.cases_of_stuck hStuck with ⟨hNil, hCore⟩ | ⟨hCons, inner, reducer, hNode⟩
  · obtain ⟨-, hCore'⟩ :=
      (hResolved'.cases_of_stuck hStuck').resolve_right fun h => h.1 hNil
    rw [← hCore, ← hCore']
    exact hMatches.mono hRelated
  · obtain ⟨-, inner', reducer', hNode'⟩ :=
      (hResolved'.cases_of_stuck hStuck').resolve_left fun h => hCons h.1
    -- Both are reductions, with the same chain over the two cores.
    have hChain := hResolved.reductionChain
    have hChain' := hResolved'.reductionChain
    refine .reduction hNode hNode' (by rw [hChain, hChain']) ?_
    rw [hChain, hChain']
    exact ⟨[], core, core', hStrips.bare_core, hStrips'.bare_core, hMatches⟩

end Bisimilarity

section Alikeness

/-- Two bodies of one kind, with related parts. -/
inductive Twins (related : Handle → Handle → Prop) : Node Λ → Node Λ → Prop
  | empty : Twins related .empty .empty
  | eps (forest forest' : Forest Λ.Token) : Twins related (.eps forest) (.eps forest')
  | token (matcher : Matcher Λ) : Twins related (.token matcher) (.token matcher)
  | union {left right left' right' : Handle} : related left left' → related right right' →
      Twins related (.union left right) (.union left' right')
  | sequence {head tail head' tail' : Handle} : related head head' → related tail tail' →
      Twins related (.sequence head tail) (.sequence head' tail')
  | repetition {inner inner' : Handle} : related inner inner' →
      Twins related (.repetition inner) (.repetition inner')

/-- Two nodes have the same reducers around bodies of one kind, with related parts. -/
def Alike (grammar : Grammar Λ) (related : Handle → Handle → Prop) (node node' : Node Λ) : Prop :=
  ∃ reducers body body', grammar.Unwraps node reducers body ∧
    grammar.Unwraps node' reducers body' ∧ Twins related body body'

/-- Two handles refer to nodes that are alike. -/
def Resembles (grammar : Grammar Λ) (related : Handle → Handle → Prop)
    (first second : Handle) : Prop :=
  ∃ node node', grammar.get? first = some node ∧ grammar.get? second = some node' ∧
    grammar.Alike related node node'

theorem Twins.bare {body body' : Node Λ} (hTwins : Twins related body body') :
    grammar.Unwraps body [] body ∧ grammar.Unwraps body' [] body' := by
  cases hTwins <;> exact ⟨.bare rfl nofun, .bare rfl nofun⟩

theorem Twins.alike {body body' : Node Λ} (hTwins : Twins related body body') :
    grammar.Alike related body body' :=
  ⟨[], body, body', hTwins.bare.1, hTwins.bare.2, hTwins⟩

section Wrapping

variable {target inner inner' : Handle} {node node' : Node Λ}

/-- A delegate is alike to what its target is alike to. -/
theorem Alike.delegate_left (hTarget : grammar.get? target = some node)
    (hAlike : grammar.Alike related node node') :
    grammar.Alike related (.delegate (some target)) node' := by
  obtain ⟨reducers, body, body', hUnwraps, hRest⟩ := hAlike
  exact ⟨reducers, body, body', .delegate hTarget hUnwraps, hRest⟩

theorem Alike.delegate_right (hTarget : grammar.get? target = some node')
    (hAlike : grammar.Alike related node node') :
    grammar.Alike related node (.delegate (some target)) := by
  obtain ⟨reducers, body, body', hUnwraps, hUnwraps', hTwins⟩ := hAlike
  exact ⟨reducers, body, body', hUnwraps, .delegate hTarget hUnwraps', hTwins⟩

/-- Reductions of alike nodes by one reducer are alike. -/
theorem Alike.reduction (hInner : grammar.get? inner = some node)
    (hInner' : grammar.get? inner' = some node') (hAlike : grammar.Alike related node node')
    (reducer : Reducer Λ) :
    grammar.Alike related (.reduction inner reducer) (.reduction inner' reducer) := by
  obtain ⟨reducers, body, body', hUnwraps, hUnwraps', hTwins⟩ := hAlike
  exact ⟨_, body, body', .reduction hInner hUnwraps, .reduction hInner' hUnwraps', hTwins⟩

/-- A reduction that is folded into the one below it keeps its chain of reducers. -/
theorem Alike.fused {innerReducer : Reducer Λ} (hInner : grammar.get? inner = some node)
    (hAlike : grammar.Alike related node (.reduction inner' innerReducer))
    (reducer : Reducer Λ) :
    grammar.Alike related (.reduction inner reducer)
      (.reduction inner' (.compose reducer innerReducer)) := by
  obtain ⟨reducers, body, body', hUnwraps, hUnwraps', hTwins⟩ := hAlike
  refine ⟨_, body, body', .reduction hInner hUnwraps, ?_, hTwins⟩
  cases hUnwraps' with
  | bare _ hOther => exact absurd rfl (hOther inner' innerReducer)
  | reduction hInner' hRest =>
      rw [← List.append_assoc]
      exact .reduction hInner' hRest

end Wrapping

/-- Two bodies of one kind match. -/
theorem Twins.matches {body body' : Node Λ} (hTwins : Twins related body body')
    (hFirst : grammar.get? first = some body) (hSecond : grammar.get? second = some body') :
    grammar.Matches related first second := by
  cases hTwins with
  | empty => exact .empty hFirst hSecond
  | eps _ _ => exact .eps hFirst hSecond
  | token _ => exact .token hFirst hSecond
  | union hLeft hRight => exact .straight hFirst hSecond hLeft hRight
  | sequence hHead hTail => exact .sequence hFirst hSecond hHead hTail
  | repetition hInner => exact .repetition hFirst hSecond hInner

theorem Resembles.stripped (hResembles : grammar.Resembles related first second) :
    grammar.Stripped related first second := by
  obtain ⟨node, node', hNode, hNode', reducers, body, body', hUnwraps, hUnwraps', hTwins⟩ :=
    hResembles
  obtain ⟨core, hStrips, hCore⟩ := hUnwraps.strips hNode
  obtain ⟨core', hStrips', hCore'⟩ := hUnwraps'.strips hNode'
  exact ⟨reducers, core, core', hStrips, hStrips', hTwins.matches hCore hCore'⟩

/-- Handles that resemble each other are found equal, if related ones do so. -/
theorem equal_of_resembles
    (hRelated : ∀ first second, related first second → grammar.Resembles related first second)
    (hResembles : grammar.Resembles related first second) : grammar.equal first second = true :=
  equal_of_pairable
    (bisimulation_stripped fun _ _ hPair => (hRelated _ _ hPair).stripped).pairable
    hResembles.stripped

end Alikeness

/-- For every two handles, comparing them ends, with the answer that the function gives and no
other, and so do the loops that look through delegates and reductions.  The answer is that they
are equal if a bisimulation relates them, or any relation all of whose pairs strip to matching
cores; and every handle strips to a core if no cycle that it leads to is made of delegates and
reductions alone. -/
theorem comparison_ends_and_is_complete (grammar : Grammar Λ) :
    (∀ handle, grammar.Resolves [] handle (grammar.resolve handle) ∧
      grammar.Chains [] (grammar.resolve handle) (grammar.reductionChain handle).1
        (grammar.reductionChain handle).2) ∧
    (∀ first second answer, (∃ after,
        grammar.Answers (.pair first second) [] answer after) ↔
      answer = grammar.equal first second) ∧
    (∀ related, grammar.Bisimulation related → ∀ first second, related first second →
      grammar.equal first second = true) ∧
    (∀ related, (∀ first second, related first second →
        grammar.Stripped related first second) →
      ∀ first second, related first second → grammar.equal first second = true) ∧
    ∀ handle, (∀ other, Relation.ReflTransGen grammar.Peels handle other →
        ¬ Relation.TransGen grammar.Peels other other) →
      ∃ reducers core, grammar.Strips handle reducers core := by
  refine ⟨fun handle => ⟨grammar.resolves_resolve handle, grammar.chains_reductionChain handle⟩,
    fun first second _ => grammar.answers_iff first second, ?_, ?_, fun handle => exists_strips⟩
  · intro related hBisimulation first second hRelated
    exact equal_of_pairable hBisimulation.pairable hRelated
  · intro related hStripped first second hRelated
    exact equal_of_pairable (bisimulation_stripped hStripped).pairable
      (hStripped first second hRelated)

end Grammar

namespace Unrolled

/-- A rule for any number of letters, and another one that is unrolled once, with the operands
of its unions swapped and a tree for no letter; and reductions of both by the same reducers. -/
def grammar : Grammar Lexicon.characters :=
  let (rule, grammar) := Grammar.initial.delegate
  let (letter, grammar) := grammar.literal 'a'
  let (more, grammar) := grammar.sequence letter rule
  let (body, grammar) := grammar.union more Handle.eps
  let grammar := grammar.patch rule (.delegate (some body))
  let (rule', grammar) := grammar.delegate
  let (again, grammar) := grammar.delegate
  let (more', grammar) := grammar.sequence letter again
  let (stop, grammar) := grammar.epsWith (Forest.singleton (.list [])) .grammar
  let (body', grammar) := grammar.union stop more'
  let grammar := grammar.patch rule' (.delegate (some body'))
  let (back, grammar) := grammar.sequence letter rule'
  let (unrolled, grammar) := grammar.union Handle.eps back
  let grammar := grammar.patch again (.delegate (some unrolled))
  let (inner, grammar) := grammar.reduction rule .cons
  let (_, grammar) := grammar.reduction inner (.append (Forest.singleton (.list [])))
  (grammar.reduction rule' (.compose (.append (Forest.singleton (.list []))) .cons)).2

/-- Which handles correspond to each other. -/
def pairs : List (Handle × Handle) :=
  [(⟨14, 0⟩, ⟨15, 0⟩), (⟨2, 0⟩, ⟨6, 0⟩), (⟨2, 0⟩, ⟨7, 0⟩), (⟨4, 0⟩, ⟨8, 0⟩),
    (⟨4, 0⟩, ⟨11, 0⟩), (⟨3, 0⟩, ⟨3, 0⟩), (⟨1, 0⟩, ⟨9, 0⟩), (⟨1, 0⟩, ⟨1, 0⟩)]

/-- The relation of the pairs. -/
abbrev Corresponds (first second : Handle) : Prop := (first, second) ∈ pairs

/-- The bodies of the rules are the cores of what leads to them. -/
theorem strips_bodies : grammar.Strips ⟨2, 0⟩ [] ⟨5, 0⟩ ∧ grammar.Strips ⟨6, 0⟩ [] ⟨10, 0⟩ ∧
    grammar.Strips ⟨7, 0⟩ [] ⟨12, 0⟩ :=
  ⟨.delegate rfl (Grammar.strips_of_bare rfl rfl nofun),
    .delegate rfl (Grammar.strips_of_bare rfl rfl nofun),
    .delegate rfl (Grammar.strips_of_bare rfl rfl nofun)⟩

theorem stripped (first second : Handle) (hPair : Corresponds first second) :
    grammar.Stripped Corresponds first second := by
  obtain ⟨hRule, hRule', hAgain⟩ := strips_bodies
  have hBodies : grammar.Matches Corresponds ⟨5, 0⟩ ⟨10, 0⟩ :=
    .crossed rfl rfl (by decide) (by decide)
  simp only [Corresponds, pairs, List.mem_cons, Prod.mk.injEq, List.not_mem_nil,
    or_false] at hPair
  rcases hPair with ⟨rfl, rfl⟩ | ⟨rfl, rfl⟩ | ⟨rfl, rfl⟩ | ⟨rfl, rfl⟩ | ⟨rfl, rfl⟩ |
    ⟨rfl, rfl⟩ | ⟨rfl, rfl⟩ | ⟨rfl, rfl⟩
  · have hNested : grammar.Strips ⟨14, 0⟩ _ ⟨5, 0⟩ := .reduction rfl (.reduction rfl hRule)
    have hFused : grammar.Strips ⟨15, 0⟩ _ ⟨10, 0⟩ := .reduction rfl hRule'
    exact ⟨_, _, _, hNested, hFused, hBodies⟩
  · exact ⟨_, _, _, hRule, hRule', hBodies⟩
  · exact ⟨_, _, _, hRule, hAgain, .crossed rfl rfl (by decide) (by decide)⟩
  · exact ⟨_, _, _, Grammar.strips_of_bare rfl rfl nofun, Grammar.strips_of_bare rfl rfl nofun,
      .sequence rfl rfl (by decide) (by decide)⟩
  · exact ⟨_, _, _, Grammar.strips_of_bare rfl rfl nofun, Grammar.strips_of_bare rfl rfl nofun,
      .sequence rfl rfl (by decide) (by decide)⟩
  · exact ⟨_, _, _, Grammar.strips_of_bare rfl rfl nofun, Grammar.strips_of_bare rfl rfl nofun,
      .same _⟩
  · exact ⟨_, _, _, Grammar.strips_of_bare rfl rfl nofun, Grammar.strips_of_bare rfl rfl nofun,
      .eps rfl rfl⟩
  · exact ⟨_, _, _, Grammar.strips_of_bare rfl rfl nofun, Grammar.strips_of_bare rfl rfl nofun,
      .same _⟩

end Unrolled

namespace Grammar

/-- The reductions are equal, and so are the rules; both are found by comparing them without a
bound, and the rule strips to its body. -/
theorem comparison_ends_and_is_complete_unrolled :
    Unrolled.grammar.equal ⟨14, 0⟩ ⟨15, 0⟩ = true ∧
      Unrolled.grammar.equal ⟨2, 0⟩ ⟨6, 0⟩ = true ∧
      (∃ after, Unrolled.grammar.Answers (.pair ⟨2, 0⟩ ⟨6, 0⟩) [] true after) ∧
      ∃ reducers core, Unrolled.grammar.Strips ⟨1, 0⟩ reducers core := by
  obtain ⟨-, hAnswers, hBisimilar, hStripped, hAcyclic⟩ :=
    comparison_ends_and_is_complete Unrolled.grammar
  have hRules : Unrolled.grammar.equal ⟨2, 0⟩ ⟨6, 0⟩ = true :=
    hBisimilar _ (bisimulation_stripped Unrolled.stripped) ⟨2, 0⟩ ⟨6, 0⟩
      (Unrolled.stripped ⟨2, 0⟩ ⟨6, 0⟩ (by decide))
  have hBare (other : Handle) : ¬ Unrolled.grammar.Peels ⟨1, 0⟩ other := nofun
  refine ⟨hStripped _ Unrolled.stripped ⟨14, 0⟩ ⟨15, 0⟩ (by decide), hRules,
    (hAnswers ⟨2, 0⟩ ⟨6, 0⟩ true).mpr hRules.symm, hAcyclic ⟨1, 0⟩ fun other hReached hCycle => ?_⟩
  obtain rfl | ⟨next, hPeels, -⟩ := hReached.cases_head
  · obtain ⟨next, hPeels, -⟩ := Relation.TransGen.head'_iff.mp hCycle
    exact hBare next hPeels
  · exact hBare next hPeels

end Grammar

end DerivativeParsing
