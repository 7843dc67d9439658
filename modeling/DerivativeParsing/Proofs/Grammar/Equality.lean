import DerivativeParsing.Lexicon.Standard
import DerivativeParsing.Proofs.Grammar.Comparison
import DerivativeParsing.Proofs.Grammar.Meaning

namespace DerivativeParsing
namespace Grammar

/-!
# Equal nodes and their languages

Assumptions that support each other hold, by induction on the depth of the derivations: a
derivation from the one node begins with a step that the other node has too, and goes on
with pairs that are settled (`accepts_of_settled`).  To resolve a handle or to pass a chain
of reductions makes no derivation deeper.

Hence nodes that a tidy comparison finds equal accept the same strings
(`accepts_iff_of_equal`).  Nodes that another comparison finds equal need not do so
(`equal_of_unlike`).
-/

variable {Λ : Lexicon} {grammar : Grammar Λ} {handle first second : Handle}
  {assumed : Assumptions} {string : List Λ.Token}

section Languages

variable {depth : Nat} {result : View.language.Result Λ}

/-- Following delegates loses no string and makes no derivation deeper. -/
theorem within_resolveFrom {fuel : Nat} {passed : List Handle}
    (hMatch : grammar.within .language depth handle string result) :
    grammar.within .language depth (grammar.resolveFrom fuel passed handle) string result := by
  fun_induction resolveFrom grammar fuel passed handle with
  | case3 fuel passed handle target hNode hNew ih =>
      refine ih ?_
      cases depth with
      | zero => exact hMatch
      | succ depth =>
          rw [within_succ hNode] at hMatch
          exact within_succ_mono depth target string result hMatch
  | _ => exact hMatch

/-- Following delegates adds no string. -/
theorem accepts_of_resolveFrom {fuel : Nat} {passed : List Handle}
    (hAccepts : grammar.Accepts (grammar.resolveFrom fuel passed handle) string) :
    grammar.Accepts handle string := by
  fun_induction resolveFrom grammar fuel passed handle with
  | case3 fuel passed handle target hNode hNew ih => exact .delegate hNode (ih hAccepts)
  | _ => exact hAccepts

theorem within_resolve (hMatch : grammar.within .language depth handle string result) :
    grammar.within .language depth (grammar.resolve handle) string result :=
  within_resolveFrom hMatch

theorem accepts_of_resolve (hAccepts : grammar.Accepts (grammar.resolve handle) string) :
    grammar.Accepts handle string := accepts_of_resolveFrom hAccepts

theorem resolve_of_get? {node : Node Λ} (hNode : grammar.get? handle = some node)
    (hOther : node.isDelegate = false) : grammar.resolve handle = handle := by
  rw [resolve, resolveFrom, hNode]
  cases node with
  | delegate => cases hOther
  | _ => rfl

theorem within_inner {inner : Handle} {reducer : Reducer Λ}
    (hNode : grammar.get? handle = some (.reduction inner reducer))
    (hMatch : grammar.within .language (depth + 1) handle string result) :
    grammar.within .language depth inner string result := by
  rw [within_succ hNode] at hMatch
  obtain ⟨_, hInner, -⟩ := hMatch
  exact hInner

/-- Passing reductions loses no string and makes no derivation deeper. -/
theorem within_reductionChainFrom {fuel : Nat} {passed : List Handle}
    (hMatch : grammar.within .language depth handle string result) :
    grammar.within .language depth
      (grammar.reductionChainFrom fuel passed handle).2 string result := by
  fun_induction reductionChainFrom grammar fuel passed handle with
  | case3 fuel passed handle inner reducer hNode hNew reducers body hChain ih =>
      rw [hChain] at ih
      refine ih (within_resolve ?_)
      cases depth with
      | zero => exact hMatch
      | succ depth => exact within_succ_mono depth inner string result (within_inner hNode hMatch)
  | _ => exact hMatch

/-- Passing reductions adds no string. -/
theorem accepts_of_reductionChainFrom {fuel : Nat} {passed : List Handle}
    (hAccepts : grammar.Accepts (grammar.reductionChainFrom fuel passed handle).2 string) :
    grammar.Accepts handle string := by
  fun_induction reductionChainFrom grammar fuel passed handle with
  | case3 fuel passed handle inner reducer hNode hNew reducers body hChain ih =>
      rw [hChain] at ih
      exact .reduction hNode (accepts_of_resolve (ih hAccepts))
  | _ => exact hAccepts

/-- The body below a reduction has all its strings, with derivations less deep. -/
theorem within_reductionChain {inner : Handle} {reducer : Reducer Λ}
    (hNode : grammar.get? handle = some (.reduction inner reducer))
    (hMatch : grammar.within .language (depth + 1) handle string result) :
    grammar.within .language depth (grammar.reductionChain handle).2 string result := by
  rw [reductionChain, resolve_of_get? hNode rfl, reductionChainFrom, hNode]
  exact within_reductionChainFrom (within_resolve (within_inner hNode hMatch))

theorem accepts_of_reductionChain
    (hAccepts : grammar.Accepts (grammar.reductionChain handle).2 string) :
    grammar.Accepts handle string :=
  accepts_of_resolve (accepts_of_reductionChainFrom hAccepts)

theorem sameLeaf_symm (hLeaf : grammar.sameLeaf first second = true) :
    grammar.sameLeaf second first = true := by
  unfold sameLeaf at hLeaf ⊢
  split at hLeaf
  · next hFirst hSecond => rw [hFirst, hSecond]
  · next hFirst hSecond => rw [hFirst, hSecond]
  · next hFirst hSecond =>
      rw [hFirst, hSecond]
      rw [decide_eq_true_eq] at hLeaf ⊢
      exact hLeaf.symm
  · cases hLeaf

theorem settled_symm (hSettled : grammar.settled assumed first second = true) :
    grammar.settled assumed second first = true := by
  rw [settled_eq_true_iff] at hSettled ⊢
  exact hSettled.imp (Or.imp Eq.symm Or.symm) sameLeaf_symm

/-- What lies behind two nodes is settled, in the one way or the other. -/
inductive Stands (grammar : Grammar Λ) (assumed : Assumptions) (first second : Handle) : Prop
  | straight {left right left' right' : Handle} :
      grammar.get? first = some (.union left right) →
      grammar.get? second = some (.union left' right') →
      grammar.settled assumed left left' = true →
      grammar.settled assumed right right' = true → Stands grammar assumed first second
  | crossed {left right left' right' : Handle} :
      grammar.get? first = some (.union left right) →
      grammar.get? second = some (.union left' right') →
      grammar.settled assumed left right' = true →
      grammar.settled assumed right left' = true → Stands grammar assumed first second
  | sequence {head tail head' tail' : Handle} :
      grammar.get? first = some (.sequence head tail) →
      grammar.get? second = some (.sequence head' tail') →
      grammar.settled assumed head head' = true →
      grammar.settled assumed tail tail' = true → Stands grammar assumed first second
  | repetition {inner inner' : Handle} :
      grammar.get? first = some (.repetition inner) →
      grammar.get? second = some (.repetition inner') →
      grammar.settled assumed inner inner' = true → Stands grammar assumed first second
  | reduction {inner inner' : Handle} {reducer reducer' : Reducer Λ} :
      grammar.get? first = some (.reduction inner reducer) →
      grammar.get? second = some (.reduction inner' reducer') →
      grammar.settled assumed (grammar.reductionChain first).2
        (grammar.reductionChain second).2 = true → Stands grammar assumed first second

theorem stands_of_supported (hSupported : grammar.supported assumed first second = true) :
    grammar.Stands assumed first second := by
  obtain ⟨pairs, hPairs, hSettled⟩ := supported_eq_true_iff.mp hSupported
  unfold pairings at hPairs
  split at hPairs
  · next hFirst hSecond =>
      rcases List.mem_cons.mp hPairs with rfl | hPairs
      · rw [List.forall_mem_cons, List.forall_mem_singleton] at hSettled
        exact .straight hFirst hSecond hSettled.1 hSettled.2
      · obtain rfl := List.mem_singleton.mp hPairs
        rw [List.forall_mem_cons, List.forall_mem_singleton] at hSettled
        exact .crossed hFirst hSecond hSettled.1 hSettled.2
  · next hFirst hSecond =>
      obtain rfl := List.mem_singleton.mp hPairs
      rw [List.forall_mem_cons, List.forall_mem_singleton] at hSettled
      exact .sequence hFirst hSecond hSettled.1 hSettled.2
  · next hFirst hSecond =>
      obtain rfl := List.mem_singleton.mp hPairs
      rw [List.forall_mem_singleton] at hSettled
      exact .repetition hFirst hSecond hSettled
  · next hFirst hSecond =>
      split at hPairs
      · obtain rfl := List.mem_singleton.mp hPairs
        rw [List.forall_mem_singleton] at hSettled
        exact .reduction hFirst hSecond hSettled
      · cases hPairs
  · cases hPairs

theorem Stands.symm (hStands : grammar.Stands assumed first second) :
    grammar.Stands assumed second first := by
  cases hStands with
  | straight hFirst hSecond hLeft hRight =>
      exact .straight hSecond hFirst (settled_symm hLeft) (settled_symm hRight)
  | crossed hFirst hSecond hLeft hRight =>
      exact .crossed hSecond hFirst (settled_symm hRight) (settled_symm hLeft)
  | sequence hFirst hSecond hHead hTail =>
      exact .sequence hSecond hFirst (settled_symm hHead) (settled_symm hTail)
  | repetition hFirst hSecond hInner =>
      exact .repetition hSecond hFirst (settled_symm hInner)
  | reduction hFirst hSecond hBody =>
      exact .reduction hSecond hFirst (settled_symm hBody)

theorem accepts_of_sameLeaf (hLeaf : grammar.sameLeaf first second = true)
    (hMatch : grammar.within .language (depth + 1) first string result) :
    grammar.Accepts second string := by
  unfold sameLeaf at hLeaf
  split at hLeaf
  · next hFirst hSecond =>
      rw [within_succ hFirst] at hMatch
      exact hMatch.elim
  · next hFirst hSecond =>
      rw [within_succ hFirst] at hMatch
      obtain ⟨rfl, -⟩ := hMatch
      exact .eps hSecond
  · next hFirst hSecond =>
      rw [within_succ hFirst] at hMatch
      obtain ⟨token, rfl, hToken, -⟩ := hMatch
      rw [decide_eq_true_eq.mp hLeaf] at hToken
      exact .token hSecond hToken
  · cases hLeaf

/-- If settled handles accept the same strings up to a depth, so do nodes that stand on
settled handles, one level up. -/
theorem Stands.accepts
    (hBelow : ∀ {first second : Handle} {string : List Λ.Token}
      {result : View.language.Result Λ}, grammar.settled assumed first second = true →
      grammar.within .language depth first string result → grammar.Accepts second string)
    (hStands : grammar.Stands assumed first second)
    (hMatch : grammar.within .language (depth + 1) first string result) :
    grammar.Accepts second string := by
  cases hStands with
  | straight hFirst hSecond hLeft hRight =>
      rw [within_succ hFirst] at hMatch
      rcases hMatch with hMatch | hMatch
      · exact .left hSecond (hBelow hLeft hMatch)
      · exact .right hSecond (hBelow hRight hMatch)
  | crossed hFirst hSecond hLeft hRight =>
      rw [within_succ hFirst] at hMatch
      rcases hMatch with hMatch | hMatch
      · exact .right hSecond (hBelow hLeft hMatch)
      · exact .left hSecond (hBelow hRight hMatch)
  | sequence hFirst hSecond hHead hTail =>
      rw [within_succ hFirst] at hMatch
      obtain ⟨start, rest, _, _, rfl, hStart, hRest, -⟩ := hMatch
      exact .sequence hSecond (hBelow hHead hStart) (hBelow hTail hRest)
  | @repetition inner _ hFirst hSecond hInner =>
      rw [within_succ hFirst] at hMatch
      change (grammar.within .language depth inner).iterated string result at hMatch
      induction hMatch with
      | stop _ => exact .stop hSecond
      | more _ hStart _ _ ih => exact .more hSecond (hBelow hInner hStart) ih
  | reduction hFirst hSecond hBody =>
      exact accepts_of_reductionChain (hBelow hBody (within_reductionChain hFirst hMatch))

/-- Assumptions that support each other hold: what they settle accepts the same strings. -/
theorem accepts_of_settled
    (hSupported : ∀ pair ∈ assumed, grammar.supported assumed pair.1 pair.2 = true)
    (hSettled : grammar.settled assumed first second = true)
    (hMatch : grammar.within .language depth first string result) :
    grammar.Accepts second string := by
  induction depth generalizing first second string result with
  | zero => exact hMatch.elim
  | succ depth ih =>
      apply accepts_of_resolve
      have hMatch := within_resolve hMatch
      rcases settled_eq_true_iff.mp hSettled with (hSame | hMem | hMem) | hLeaf
      · rw [← hSame]
        exact accepts_of_within hMatch
      · exact (stands_of_supported (hSupported _ hMem)).accepts ih hMatch
      · exact (stands_of_supported (hSupported _ hMem)).symm.accepts ih hMatch
      · exact accepts_of_sameLeaf hLeaf hMatch

end Languages

/-- Nodes that a tidy comparison finds equal accept the same strings. -/
theorem accepts_iff_of_equal (hTidy : grammar.tidy first second = true)
    (hEqual : grammar.equal first second = true) (string : List Λ.Token) :
    grammar.Accepts first string ↔ grammar.Accepts second string := by
  obtain ⟨hExtends, hSettled⟩ :=
    concludes_equalWithin _ first second [] _ hTidy (Prod.ext hEqual rfl)
  have hSupported := fun pair hPair =>
    (hExtends.supported pair hPair).resolve_left List.not_mem_nil
  constructor
  · intro hFirst
    obtain ⟨depth, hMatch⟩ := accepts_iff.mp hFirst
    exact accepts_of_settled hSupported hSettled hMatch
  · intro hSecond
    obtain ⟨depth, hMatch⟩ := accepts_iff.mp hSecond
    exact accepts_of_settled hSupported (settled_symm hSettled) hMatch

end Grammar

namespace Alternatives

/-- The first of two rules. -/
def rule : Handle := ⟨8, 0⟩

/-- The second of them. -/
def rule' : Handle := ⟨13, 0⟩

/-- Each rule is a repetition and then a letter, where the two rules list the letters in a
different order.  What they repeat is left open. -/
def untied : Grammar Lexicon.characters :=
  let (a, grammar) := Grammar.initial.literal 'a'
  let (b, grammar) := grammar.literal 'b'
  let (again, grammar) := grammar.delegate
  let (start, grammar) := grammar.repetition again
  let (startA, grammar) := grammar.sequence start a
  let (startB, grammar) := grammar.sequence start b
  let (_, grammar) := grammar.union startA startB
  let (again, grammar) := grammar.delegate
  let (start, grammar) := grammar.repetition again
  let (startB, grammar) := grammar.sequence start b
  let (startA, grammar) := grammar.sequence start a
  (grammar.union startB startA).2

/-- The rules with what they repeat. -/
def tied (again again' : Handle) : Grammar Lexicon.characters :=
  (untied.patch ⟨4, 0⟩ (.delegate (some again))).patch ⟨9, 0⟩ (.delegate (some again'))

/-- Each rule repeats itself. -/
def whole : Grammar Lexicon.characters := tied rule rule'

/-- Each rule repeats its own first alternative. -/
def uneven : Grammar Lexicon.characters := tied ⟨6, 0⟩ ⟨11, 0⟩

/-- What the rules reach. -/
def nodes : List Handle :=
  [rule, rule', ⟨2, 0⟩, ⟨3, 0⟩, ⟨4, 0⟩, ⟨5, 0⟩, ⟨6, 0⟩, ⟨7, 0⟩, ⟨9, 0⟩, ⟨10, 0⟩, ⟨11, 0⟩, ⟨12, 0⟩]

theorem layered : ∀ handle ∈ nodes, uneven.layered nodes handle = true := by decide

/-- The first rule accepts one letter and then the other. -/
theorem accepts_rule : uneven.Accepts rule ['a', 'b'] := by
  have hStart : uneven.Accepts ⟨5, 0⟩ ['a'] :=
    .more rfl (.delegate rfl (.sequence rfl (.stop rfl) (.token rfl rfl))) (.stop rfl)
  exact .right rfl (.sequence rfl hStart (.token rfl rfl))

theorem eq_of_accepts_letter {handle : Handle} {letter : Lexicon.characters.Token}
    {string : List Lexicon.characters.Token}
    (hNode : uneven.get? handle = some (.token (.literal letter)))
    (hAccepts : uneven.Accepts handle string) : string = [letter] := by
  rw [Grammar.accepts_iff, Grammar.meaning_eq hNode] at hAccepts
  obtain ⟨token, rfl, hToken, -⟩ := hAccepts
  rw [(Matcher.accepts_literal _ _).mp hToken]

/-- What the second rule starts with, and its first alternative, hold one letter alone. -/
theorem eq_of_within_start (depth : Nat) {string : List Lexicon.characters.Token}
    {result : View.language.Result Lexicon.characters} :
    (uneven.within .language depth ⟨10, 0⟩ string result → ∀ letter ∈ string, letter = 'b') ∧
      (uneven.within .language depth ⟨11, 0⟩ string result →
        ∀ letter ∈ string, letter = 'b') := by
  have hAgain : uneven.get? ⟨9, 0⟩ = some (.delegate (some ⟨11, 0⟩)) := rfl
  have hStart : uneven.get? ⟨10, 0⟩ = some (.repetition ⟨9, 0⟩) := rfl
  have hFirst : uneven.get? ⟨11, 0⟩ = some (.sequence ⟨10, 0⟩ ⟨3, 0⟩) := rfl
  induction depth generalizing string result with
  | zero => exact ⟨fun hMatch => hMatch.elim, fun hMatch => hMatch.elim⟩
  | succ depth ih =>
      constructor
      · intro hMatch
        rw [Grammar.within_succ hStart] at hMatch
        change (uneven.within .language depth ⟨9, 0⟩).iterated string result at hMatch
        induction hMatch with
        | stop _ => nofun
        | more _ hInner _ _ ihRest =>
            have hInner := Grammar.within_succ_mono depth _ _ _ hInner
            rw [Grammar.within_succ hAgain] at hInner
            exact List.forall_mem_append.mpr ⟨ih.2 hInner, ihRest⟩
      · intro hMatch
        rw [Grammar.within_succ hFirst] at hMatch
        obtain ⟨start, rest, _, _, rfl, hHead, hTail, -⟩ := hMatch
        obtain rfl := eq_of_accepts_letter rfl (Grammar.accepts_of_within hTail)
        exact List.forall_mem_append.mpr ⟨ih.1 hHead, List.forall_mem_singleton.mpr rfl⟩

/-- The second rule does not accept the first letter and then the second. -/
theorem not_accepts_rule' : ¬ uneven.Accepts rule' ['a', 'b'] := by
  have hRule : uneven.get? rule' = some (.union ⟨11, 0⟩ ⟨12, 0⟩) := rfl
  have hSecond : uneven.get? ⟨12, 0⟩ = some (.sequence ⟨10, 0⟩ ⟨2, 0⟩) := rfl
  rw [Grammar.accepts_iff, Grammar.meaning_eq hRule]
  rintro (⟨depth, hMatch⟩ | hMatch)
  · have hLetter : ('a' : Char) = 'b' :=
      (eq_of_within_start depth).2 hMatch 'a' List.mem_cons_self
    exact absurd hLetter (by decide)
  · rw [Grammar.meaning_eq hSecond] at hMatch
    obtain ⟨start, rest, _, _, hString, -, hRest, -⟩ := hMatch
    obtain rfl := eq_of_accepts_letter rfl (Grammar.accepts_iff.mpr hRest)
    have hString : List.append ['a'] ['b'] = List.append start ['a'] := hString
    have hLast : (['b'] : List Char) = ['a'] := (List.append_inj' hString rfl).2
    exact absurd hLast (by decide)

end Alternatives

/-- The letters of a rule that repeats itself may be given in any order. -/
theorem Grammar.accepts_iff_of_equal_whole :
    Alternatives.whole.tidy Alternatives.rule Alternatives.rule' = true ∧
      Alternatives.whole.equal Alternatives.rule Alternatives.rule' = true ∧
      ∀ string, Alternatives.whole.Accepts Alternatives.rule string ↔
        Alternatives.whole.Accepts Alternatives.rule' string := by
  have hTidy : Alternatives.whole.tidy Alternatives.rule Alternatives.rule' = true := by
    decide +kernel
  have hEqual : Alternatives.whole.equal Alternatives.rule Alternatives.rule' = true := by
    decide +kernel
  exact ⟨hTidy, hEqual, accepts_iff_of_equal hTidy hEqual⟩

/-- Rules that repeat different letters are found equal. -/
theorem Grammar.equal_of_unlike :
    Alternatives.uneven.validate Alternatives.rule = .ok () ∧
      Alternatives.uneven.validate Alternatives.rule' = .ok () ∧
      Alternatives.uneven.equal Alternatives.rule Alternatives.rule' = true ∧
      Alternatives.uneven.Accepts Alternatives.rule ['a', 'b'] ∧
      ¬ Alternatives.uneven.Accepts Alternatives.rule' ['a', 'b'] := by
  refine ⟨?_, ?_, by decide +kernel, Alternatives.accepts_rule, Alternatives.not_accepts_rule'⟩
  · exact validate_eq_ok_iff.mpr (valid_of_layered Alternatives.layered (by decide))
  · exact validate_eq_ok_iff.mpr (valid_of_layered Alternatives.layered (by decide))

end DerivativeParsing
