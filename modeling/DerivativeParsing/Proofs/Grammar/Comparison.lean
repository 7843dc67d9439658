import DerivativeParsing.Grammar.Equality

namespace DerivativeParsing
namespace Grammar

/-!
# How two nodes are compared

A comparison goes through pairs of handles and keeps those that it takes for equal.  On
each level it does the same whatever the nodes are (`run_equalWithin_succ`): a pair that is
settled is equal, and any other pair is assumed while the ways of pairing what lies behind
it are tried in turn.

As long as no way of pairing fails, all that a comparison assumes ends up supported by
what else it assumes.  One that fails withdraws the pair that failed, but not the pairs
that were concluded from it, and the next way of pairing relies on them.  A comparison is
tidy if it leaves nothing behind that is not supported; then what it has assumed when it
succeeds is supported altogether (`concludes_equalWithin`).
-/

variable {Λ : Lexicon} {grammar : Grammar Λ} {first second : Handle}
  {assumed before between after : Assumptions}

section Pairs

/-- Two nodes without children that stand for the same strings. -/
def sameLeaf (grammar : Grammar Λ) (first second : Handle) : Bool :=
  match grammar.get? first, grammar.get? second with
  | some .empty, some .empty => true
  | some (.eps _), some (.eps _) => true
  | some (.token matcher), some (.token matcher') => matcher = matcher'
  | _, _ => false

/-- The ways to pair what lies behind one node with what lies behind another. -/
def pairings (grammar : Grammar Λ) (first second : Handle) : List (List (Handle × Handle)) :=
  match grammar.get? first, grammar.get? second with
  | some (.union left right), some (.union left' right') =>
      [[(left, left'), (right, right')], [(left, right'), (right, left')]]
  | some (.sequence head tail), some (.sequence head' tail') => [[(head, head'), (tail, tail')]]
  | some (.repetition inner), some (.repetition inner') => [[(inner, inner')]]
  | some (.reduction _ _), some (.reduction _ _) =>
      if (grammar.reductionChain first).1 = (grammar.reductionChain second).1 then
        [[((grammar.reductionChain first).2, (grammar.reductionChain second).2)]]
      else []
  | _, _ => []

/-- Two handles that need no further comparison: once resolved they are the same, assumed
equal, or leaves that stand for the same strings. -/
def settled (grammar : Grammar Λ) (assumed : Assumptions) (first second : Handle) : Bool :=
  let first := grammar.resolve first
  let second := grammar.resolve second
  first = second || assumed.contains (first, second) || assumed.contains (second, first) ||
    grammar.sameLeaf first second

/-- Some way to pair what lies behind two nodes needs no further comparison. -/
def supported (grammar : Grammar Λ) (assumed : Assumptions) (first second : Handle) : Bool :=
  (grammar.pairings first second).any fun pairs =>
    pairs.all fun pair => grammar.settled assumed pair.1 pair.2

theorem settled_eq_true_iff :
    grammar.settled assumed first second = true ↔
      (grammar.resolve first = grammar.resolve second ∨
        (grammar.resolve first, grammar.resolve second) ∈ assumed ∨
        (grammar.resolve second, grammar.resolve first) ∈ assumed) ∨
        grammar.sameLeaf (grammar.resolve first) (grammar.resolve second) = true := by
  simp only [settled, Bool.or_eq_true, decide_eq_true_eq, List.contains_iff_mem, or_assoc]

theorem supported_eq_true_iff :
    grammar.supported assumed first second = true ↔
      ∃ pairs ∈ grammar.pairings first second,
        ∀ pair ∈ pairs, grammar.settled assumed pair.1 pair.2 = true := by
  simp only [supported, List.any_eq_true, List.all_eq_true]

theorem settled_mono (hSubset : before ⊆ after)
    (hSettled : grammar.settled before first second = true) :
    grammar.settled after first second = true := by
  rw [settled_eq_true_iff] at hSettled ⊢
  exact hSettled.imp_left (Or.imp_right (Or.imp (@hSubset _) (@hSubset _)))

theorem supported_mono (hSubset : before ⊆ after)
    (hSupported : grammar.supported before first second = true) :
    grammar.supported after first second = true := by
  obtain ⟨pairs, hPairs, hSettled⟩ := supported_eq_true_iff.mp hSupported
  exact supported_eq_true_iff.mpr
    ⟨pairs, hPairs, fun pair hPair => settled_mono hSubset (hSettled pair hPair)⟩

end Pairs

section Comparison

/-- A comparison of two handles under assumptions. -/
abbrev Comparison := Handle → Handle → StateM Assumptions Bool

/-- Compare pairs one after another until two differ. -/
def allEqual (compare : Comparison) : List (Handle × Handle) → StateM Assumptions Bool
  | [] => return true
  | (first, second) :: pairs => both (compare first second) (allEqual compare pairs)

/-- Go through ways of pairing until one succeeds. -/
def someEqual (compare : Comparison) : List (List (Handle × Handle)) → StateM Assumptions Bool
  | [] => return false
  | pairs :: others => either (allEqual compare pairs) (someEqual compare others)

theorem run_both (left right : StateM Assumptions Bool) (assumed : Assumptions) :
    (both left right).run assumed =
      if (left.run assumed).1 = true then right.run (left.run assumed).2
      else left.run assumed := by
  rw [both, StateT.run_bind]
  obtain ⟨answer, after⟩ := left.run assumed
  cases answer <;> rfl

theorem run_either (left right : StateM Assumptions Bool) (assumed : Assumptions) :
    (either left right).run assumed =
      if (left.run assumed).1 = true then left.run assumed
      else right.run (left.run assumed).2 := by
  rw [either, StateT.run_bind]
  obtain ⟨answer, after⟩ := left.run assumed
  cases answer <;> rfl

theorem run_assuming (first second : Handle) (comparison : StateM Assumptions Bool)
    (assumed : Assumptions) :
    (assuming first second comparison).run assumed =
      if (comparison.run ((first, second) :: assumed)).1 = true then
        comparison.run ((first, second) :: assumed)
      else (false, (comparison.run ((first, second) :: assumed)).2.erase (first, second)) := by
  rw [assuming, StateT.run_bind]
  change (comparison >>= _).run ((first, second) :: assumed) = _
  rw [StateT.run_bind]
  obtain ⟨answer, after⟩ := comparison.run ((first, second) :: assumed)
  cases answer <;> rfl

theorem both_true (comparison : StateM Assumptions Bool) :
    both comparison (return true) = comparison := by
  refine StateT.ext fun assumed => ?_
  rw [run_both]
  split
  · next hTrue => exact Prod.ext hTrue.symm rfl
  · rfl

theorem either_false (comparison : StateM Assumptions Bool) :
    either comparison (return false) = comparison := by
  refine StateT.ext fun assumed => ?_
  rw [run_either]
  split
  · rfl
  · next hFalse => exact Prod.ext (Bool.not_eq_true _ ▸ hFalse).symm rfl

/-- Without a way of pairing two nodes differ, and nothing is assumed. -/
theorem run_assuming_nil (compare : Comparison) (first second : Handle)
    (assumed : Assumptions) :
    (assuming first second (someEqual compare [])).run assumed = (false, assumed) := by
  rw [run_assuming]
  exact congrArg (Prod.mk false) (List.erase_cons_head ..)

/-- What a comparison does on one level: it is over if nothing is left to compare, and
otherwise tries the ways of pairing under one more assumption. -/
theorem run_equalWithin_succ (fuel : Nat) :
    (grammar.equalWithin (fuel + 1) first second).run assumed =
      if grammar.settled assumed first second = true then (true, assumed)
      else
        (assuming (grammar.resolve first) (grammar.resolve second)
          (someEqual (grammar.equalWithin fuel)
            (grammar.pairings (grammar.resolve first) (grammar.resolve second)))).run assumed := by
  rw [equalWithin, StateT.run_bind]
  simp only [settled_eq_true_iff]
  generalize grammar.resolve first = first
  generalize grammar.resolve second = second
  change StateT.run (if first = second ∨ (first, second) ∈ assumed ∨ (second, first) ∈ assumed
    then _ else _) assumed = _
  by_cases hShared : first = second ∨ (first, second) ∈ assumed ∨ (second, first) ∈ assumed
  · rw [if_pos hShared, if_pos (Or.inl hShared)]
    rfl
  rw [if_neg hShared]
  simp only [or_iff_right hShared]
  unfold sameLeaf pairings
  split
  · next hFirst hSecond =>
      rw [hFirst, hSecond]
      rfl
  · next hFirst hSecond =>
      rw [hFirst, hSecond]
      rfl
  · next matcher matcher' hFirst hSecond =>
      rw [hFirst, hSecond]
      by_cases hMatcher : matcher = matcher'
      · simp only [hMatcher, decide_true, if_true]
        rfl
      · simp only [hMatcher, decide_false, Bool.false_eq_true, if_false]
        exact (run_assuming_nil ..).symm
  · next hFirst hSecond =>
      rw [hFirst, hSecond]
      simp only [Bool.false_eq_true, if_false, someEqual, allEqual, both_true, either_false]
  · next hFirst hSecond =>
      rw [hFirst, hSecond]
      simp only [Bool.false_eq_true, if_false, someEqual, allEqual, both_true, either_false]
  · next hFirst hSecond =>
      rw [hFirst, hSecond]
      simp only [Bool.false_eq_true, if_false, someEqual, allEqual, both_true, either_false]
  · next hFirst hSecond =>
      rw [hFirst, hSecond]
      by_cases hChain :
          (grammar.reductionChain first).1 = (grammar.reductionChain second).1
      · simp only [hChain, Bool.false_eq_true, if_true, if_false, someEqual, allEqual, both_true,
          either_false]
      · simp only [hChain, Bool.false_eq_true, if_false, someEqual]
  · next hEmpty hEps hToken hUnion hSequence hRepetition hReduction =>
      -- Nodes of different kinds are no leaves of one kind, and cannot be paired either.
      split
      · next hFirst hSecond => exact absurd hSecond (hEmpty hFirst)
      · next hFirst hSecond => exact absurd hSecond (hEps _ _ hFirst)
      · next hFirst hSecond => exact absurd hSecond (hToken _ _ hFirst)
      rw [if_neg Bool.false_ne_true]
      split
      · next hFirst hSecond => exact absurd hSecond (hUnion _ _ _ _ hFirst)
      · next hFirst hSecond => exact absurd hSecond (hSequence _ _ _ _ hFirst)
      · next hFirst hSecond => exact absurd hSecond (hRepetition _ _ hFirst)
      · next hFirst hSecond => exact absurd hSecond (hReduction _ _ _ _ hFirst)
      · exact (run_assuming_nil ..).symm

end Comparison

section Backtracking

/-- Every assumption that was added is supported by the assumptions there are now. -/
def upheld (grammar : Grammar Λ) (before after : Assumptions) : Bool :=
  after.all fun pair => before.contains pair || grammar.supported after pair.1 pair.2

/-- A check of each comparison, under the assumptions that it starts with. -/
abbrev Check := Handle → Handle → Assumptions → Bool

/-- Every comparison that is made of some pairs passes a check. -/
def allTidy (compare : Comparison) (check : Check) : List (Handle × Handle) → Assumptions → Bool
  | [], _ => true
  | (first, second) :: pairs, assumed =>
      check first second assumed &&
        match (compare first second).run assumed with
        | (true, assumed) => allTidy compare check pairs assumed
        | (false, _) => true

/-- Every comparison that is made of some pairs passes a check, and a way of pairing that is
given up for the next one leaves only assumptions that are upheld. -/
def someTidy (grammar : Grammar Λ) (compare : Comparison) (check : Check) :
    List (List (Handle × Handle)) → Assumptions → Bool
  | [], _ => true
  | pairs :: others, assumed =>
      allTidy compare check pairs assumed &&
        match (allEqual compare pairs).run assumed with
        | (true, _) => true
        | (false, after) =>
            others.isEmpty ||
              (grammar.upheld assumed after && someTidy grammar compare check others after)

/-- The check that a comparison to a depth leaves only assumptions that are upheld,
wherever it gives up a way of pairing for another one. -/
def tidyWithin (grammar : Grammar Λ) : (fuel : Nat) → Check
  | 0, _, _, _ => true
  | fuel + 1, first, second, assumed =>
      grammar.settled assumed first second ||
        someTidy grammar (grammar.equalWithin fuel) (grammar.tidyWithin fuel)
          (grammar.pairings (grammar.resolve first) (grammar.resolve second))
          ((grammar.resolve first, grammar.resolve second) :: assumed)

/-- Wherever the comparison of two nodes gives up a way of pairing for another one, it
leaves only assumptions that are upheld. -/
def tidy (grammar : Grammar Λ) (first second : Handle) : Bool :=
  grammar.tidyWithin (grammar.capacity * grammar.capacity + 1) first second []

variable {compare : Comparison} {check : Check}

theorem subset_allEqual
    (hCompare : ∀ first second assumed, assumed ⊆ ((compare first second).run assumed).2)
    (pairs : List (Handle × Handle)) (assumed : Assumptions) :
    assumed ⊆ ((allEqual compare pairs).run assumed).2 := by
  induction pairs generalizing assumed with
  | nil => exact List.Subset.refl _
  | cons pair pairs ih =>
      rw [allEqual, run_both]
      split
      · exact List.Subset.trans (hCompare _ _ _) (ih _)
      · exact hCompare _ _ _

theorem subset_someEqual
    (hCompare : ∀ first second assumed, assumed ⊆ ((compare first second).run assumed).2)
    (others : List (List (Handle × Handle))) (assumed : Assumptions) :
    assumed ⊆ ((someEqual compare others).run assumed).2 := by
  induction others generalizing assumed with
  | nil => exact List.Subset.refl _
  | cons pairs others ih =>
      rw [someEqual, run_either]
      split
      · exact subset_allEqual hCompare _ _
      · exact List.Subset.trans (subset_allEqual hCompare _ _) (ih _)

/-- A comparison keeps the assumptions that it starts with, also if it fails. -/
theorem subset_equalWithin (fuel : Nat) (first second : Handle) (assumed : Assumptions) :
    assumed ⊆ ((grammar.equalWithin fuel first second).run assumed).2 := by
  induction fuel generalizing first second assumed with
  | zero => exact List.Subset.refl _
  | succ fuel ih =>
      rw [run_equalWithin_succ]
      split
      · exact List.Subset.refl _
      · next hSettled =>
          have hNew : (grammar.resolve first, grammar.resolve second) ∉ assumed := fun hMem =>
            hSettled (settled_eq_true_iff.mpr (Or.inl (Or.inr (Or.inl hMem))))
          have hKept := subset_someEqual ih
            (grammar.pairings (grammar.resolve first) (grammar.resolve second))
            ((grammar.resolve first, grammar.resolve second) :: assumed)
          rw [run_assuming]
          split
          · exact List.Subset.trans (List.subset_cons_self _ _) hKept
          · intro pair hPair
            have hNe : pair ≠ (grammar.resolve first, grammar.resolve second) := by
              rintro rfl
              exact hNew hPair
            exact (List.mem_erase_of_ne hNe).mpr (hKept (List.mem_cons_of_mem _ hPair))

/-- Assumptions were added, and each of them is supported by those there are now. -/
structure Extends (grammar : Grammar Λ) (before after : Assumptions) : Prop where
  kept : before ⊆ after
  supported : ∀ pair ∈ after, pair ∈ before ∨ grammar.supported after pair.1 pair.2 = true

theorem Extends.refl (assumed : Assumptions) : grammar.Extends assumed assumed :=
  ⟨List.Subset.refl _, fun _ => Or.inl⟩

theorem Extends.trans (hFirst : grammar.Extends before between)
    (hSecond : grammar.Extends between after) : grammar.Extends before after := by
  refine ⟨List.Subset.trans hFirst.kept hSecond.kept, fun pair hPair => ?_⟩
  rcases hSecond.supported pair hPair with hBetween | hSupported
  · exact (hFirst.supported pair hBetween).imp_right (supported_mono hSecond.kept)
  · exact Or.inr hSupported

theorem extends_of_upheld (hKept : before ⊆ after)
    (hUpheld : grammar.upheld before after = true) : grammar.Extends before after := by
  refine ⟨hKept, fun pair hPair => ?_⟩
  have hPair := List.all_eq_true.mp hUpheld pair hPair
  rwa [Bool.or_eq_true, List.contains_iff_mem] at hPair

/-- A comparison that passes its check and succeeds has settled the two handles. -/
def Concludes (grammar : Grammar Λ) (compare : Comparison) (check : Check) : Prop :=
  ∀ first second assumed after, check first second assumed = true →
    (compare first second).run assumed = (true, after) →
    grammar.Extends assumed after ∧ grammar.settled after first second = true

theorem Concludes.allEqual (hConcludes : grammar.Concludes compare check)
    {pairs : List (Handle × Handle)} (hTidy : allTidy compare check pairs assumed = true)
    (hEqual : (allEqual compare pairs).run assumed = (true, after)) :
    grammar.Extends assumed after ∧
      ∀ pair ∈ pairs, grammar.settled after pair.1 pair.2 = true := by
  induction pairs generalizing assumed with
  | nil =>
      cases hEqual
      exact ⟨.refl _, nofun⟩
  | cons pair pairs ih =>
      obtain ⟨first, second⟩ := pair
      rw [Grammar.allEqual, run_both] at hEqual
      rw [allTidy, Bool.and_eq_true] at hTidy
      obtain ⟨hCheck, hTidy⟩ := hTidy
      cases hRun : (compare first second).run assumed with
      | mk answer between =>
          rw [hRun] at hEqual hTidy
          cases answer with
          | false => cases hEqual
          | true =>
              obtain ⟨hFirst, hSettled⟩ := hConcludes _ _ _ _ hCheck hRun
              obtain ⟨hRest, hPairs⟩ := ih hTidy hEqual
              refine ⟨hFirst.trans hRest, fun pair hPair => ?_⟩
              rcases List.mem_cons.mp hPair with rfl | hPair
              · exact settled_mono hRest.kept hSettled
              · exact hPairs pair hPair

theorem Concludes.someEqual (hConcludes : grammar.Concludes compare check)
    (hKept : ∀ first second assumed, assumed ⊆ ((compare first second).run assumed).2)
    {ways : List (List (Handle × Handle))}
    (hTidy : someTidy grammar compare check ways assumed = true)
    (hEqual : (someEqual compare ways).run assumed = (true, after)) :
    grammar.Extends assumed after ∧
      ∃ pairs ∈ ways, ∀ pair ∈ pairs, grammar.settled after pair.1 pair.2 = true := by
  induction ways generalizing assumed with
  | nil => cases hEqual
  | cons pairs others ih =>
      rw [Grammar.someEqual, run_either] at hEqual
      rw [someTidy, Bool.and_eq_true] at hTidy
      cases hRun : (Grammar.allEqual compare pairs).run assumed with
      | mk answer between =>
          rw [hRun] at hEqual hTidy
          cases answer with
          | true =>
              cases hEqual
              obtain ⟨hExtends, hPairs⟩ := hConcludes.allEqual hTidy.1 hRun
              exact ⟨hExtends, pairs, List.mem_cons_self, hPairs⟩
          | false =>
              cases others with
              | nil => cases hEqual
              | cons other others =>
                  -- The pairing fails, and what it leaves behind is upheld.
                  obtain ⟨hUpheld, hRest⟩ := Bool.and_eq_true_iff.mp hTidy.2
                  have hBetween := subset_allEqual hKept pairs assumed
                  rw [hRun] at hBetween
                  obtain ⟨hExtends, way, hWay, hPairs⟩ := ih hRest hEqual
                  exact ⟨(extends_of_upheld hBetween hUpheld).trans hExtends, way,
                    List.mem_cons_of_mem _ hWay, hPairs⟩

/-- A tidy comparison that succeeds has added assumptions that support each other, and
with them it has settled its two handles. -/
theorem concludes_equalWithin (fuel : Nat) :
    grammar.Concludes (grammar.equalWithin fuel) (grammar.tidyWithin fuel) := by
  induction fuel with
  | zero => exact fun _ _ _ _ _ hEqual => by cases hEqual
  | succ fuel ih =>
      intro first second assumed after hTidy hEqual
      rw [run_equalWithin_succ] at hEqual
      by_cases hSettled : grammar.settled assumed first second = true
      · rw [if_pos hSettled] at hEqual
        cases hEqual
        exact ⟨.refl _, hSettled⟩
      rw [if_neg hSettled, run_assuming] at hEqual
      rw [tidyWithin, Bool.or_eq_true, or_iff_right hSettled] at hTidy
      split at hEqual
      · obtain ⟨hExtends, hWay⟩ := ih.someEqual (subset_equalWithin fuel) hTidy hEqual
        have hMem := hExtends.kept List.mem_cons_self
        refine ⟨⟨fun _ hPair => hExtends.kept (List.mem_cons_of_mem _ hPair), ?_⟩,
          settled_eq_true_iff.mpr (Or.inl (Or.inr (Or.inl hMem)))⟩
        intro pair hPair
        rcases hExtends.supported pair hPair with hBefore | hSupported
        · rcases List.mem_cons.mp hBefore with rfl | hBefore
          · exact Or.inr (supported_eq_true_iff.mpr hWay)
          · exact Or.inl hBefore
        · exact Or.inr hSupported
      · cases hEqual

end Backtracking

end Grammar

end DerivativeParsing
