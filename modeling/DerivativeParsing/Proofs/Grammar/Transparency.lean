import DerivativeParsing.Proofs.Grammar.Comparison
import DerivativeParsing.Proofs.Grammar.Loops

namespace DerivativeParsing

/-!
# Delegates compared as their targets

Two handles are resolved before they are compared, and the answer depends on nothing else
(`equal_congr`).  A delegate is resolved as its target is, and so stands for its target on both
sides of a comparison, unless the target leads back to it.

Within a cycle of delegates the loop stops at the delegate before the one it started from
(`forwards_resolve`), so it comes to a different end for each of them.  Such an end is only
equal to itself (`equal_of_forwards`), and two delegates of one cycle differ.
-/

namespace Grammar

variable {Λ : Lexicon} {grammar : Grammar Λ} {first second first' second' : Handle}
  {delegate target other start handle result : Handle} {passed : List Handle}

section Resolved

theorem equal_congr (hFirst : grammar.resolve first = grammar.resolve first')
    (hSecond : grammar.resolve second = grammar.resolve second') :
    grammar.equal first second = grammar.equal first' second' := by
  have hSettled : grammar.settled [] first second = grammar.settled [] first' second' := by
    simp only [settled, hFirst, hSecond]
  rw [equal, equal, run_equalWithin_succ, run_equalWithin_succ, hSettled, hFirst, hSecond]

/-- Handles that resolve to no leaves and without a way of pairing them are equal only if they
resolve alike. -/
theorem equal_of_pairings_eq_nil
    (hLeaf : grammar.sameLeaf (grammar.resolve first) (grammar.resolve second) = false)
    (hPairings : grammar.pairings (grammar.resolve first) (grammar.resolve second) = []) :
    grammar.equal first second = decide (grammar.resolve first = grammar.resolve second) := by
  rw [equal, run_equalWithin_succ, hPairings, run_assuming_nil]
  simp only [settled, hLeaf, List.contains_nil, Bool.or_false, decide_eq_true_eq]
  by_cases hSame : grammar.resolve first = grammar.resolve second
  · rw [if_pos hSame, decide_eq_true hSame]
  · rw [if_neg hSame, decide_eq_false hSame]

/-- A handle that resolves to a delegate with a target is equal to what resolves to it too. -/
theorem equal_of_forwards (hForwards : grammar.Forwards (grammar.resolve first) target)
    (other : Handle) :
    grammar.equal first other = decide (grammar.resolve other = grammar.resolve first) ∧
      grammar.equal other first = decide (grammar.resolve other = grammar.resolve first) := by
  rw [Forwards] at hForwards
  constructor
  · rw [equal_of_pairings_eq_nil (by simp [sameLeaf, hForwards]) (by simp [pairings, hForwards])]
    simp only [eq_comm]
  · exact equal_of_pairings_eq_nil (by simp [sameLeaf, hForwards])
      (by simp [pairings, hForwards])

end Resolved

section Cycles

/-- Where the loop ends at a delegate whose target is not its start, no way leads back to the
start: what the loop has passed is closed under following delegates, and none of it has the
start as its target. -/
theorem Resolves.leads_away (hResolves : grammar.Resolves passed handle result)
    (hStart : start ∈ passed) (hNew : handle ≠ start)
    (hPassed : ∀ other ∈ passed, ∀ next, grammar.Forwards other next →
      next ∈ handle :: passed ∧ next ≠ start)
    (hAway : ¬ grammar.Forwards result start) :
    ¬ Relation.ReflTransGen grammar.Forwards handle start := by
  induction hResolves with
  | stop hStuck =>
      intro hLeads
      obtain hSame | ⟨next, hForwards, -⟩ := hLeads.cases_head
      · exact hNew hSame
      · exact hStuck next hForwards
  | @back passed handle target hForwards hMem =>
      have hClosed : ∀ other ∈ handle :: passed, ∀ next, grammar.Forwards other next →
          next ∈ handle :: passed ∧ next ≠ start := by
        refine List.forall_mem_cons.mpr ⟨fun next hNext => ?_, hPassed⟩
        obtain rfl := hForwards.unique hNext
        exact ⟨List.mem_cons_of_mem _ hMem, fun hSame => hAway (hSame ▸ hForwards)⟩
      have hReached {reached : Handle}
          (hLeads : Relation.ReflTransGen grammar.Forwards handle reached) :
          reached ∈ handle :: passed ∧ reached ≠ start := by
        induction hLeads with
        | refl => exact ⟨List.mem_cons_self, hNew⟩
        | tail _ hLast ih => exact hClosed _ ih.1 _ hLast
      exact fun hLeads => (hReached hLeads).2 rfl
  | @step passed handle target result hForwards hTarget _ ih =>
      have hNe : target ≠ start := fun hSame => hTarget (hSame ▸ hStart)
      have hRest := ih (List.mem_cons_of_mem _ hStart) hNe (by
        refine List.forall_mem_cons.mpr ⟨fun next hNext => ?_, fun other hOther next hNext => ?_⟩
        · obtain rfl := hForwards.unique hNext
          exact ⟨List.mem_cons_self, hNe⟩
        · obtain ⟨hMem, hOff⟩ := hPassed other hOther next hNext
          exact ⟨List.mem_cons_of_mem _ hMem, hOff⟩) hAway
      intro hLeads
      obtain hSame | ⟨next, hNext, hBack⟩ := hLeads.cases_head
      · exact hNew hSame
      · obtain rfl := hForwards.unique hNext
        exact hRest hBack

/-- On a cycle of delegates the loop stops at the delegate before the one it started from. -/
theorem forwards_resolve (hCycle : Relation.TransGen grammar.Forwards start start) :
    grammar.Forwards (grammar.resolve start) start := by
  have hResolves := grammar.resolves_resolve start
  generalize grammar.resolve start = result at hResolves ⊢
  obtain ⟨target, hTarget, hBack⟩ := Relation.TransGen.head'_iff.mp hCycle
  cases hResolves with
  | stop hStuck => exact absurd hTarget (hStuck target)
  | back _ hMem => cases hMem
  | step hForwards _ hRest =>
      obtain rfl := hTarget.unique hForwards
      by_cases hSame : target = start
      · subst hSame
        rwa [hRest.unique (.back hForwards List.mem_cons_self)]
      · by_contra hAway
        refine hRest.leads_away List.mem_cons_self hSame ?_ hAway hBack
        intro other hOther next hNext
        obtain rfl := List.mem_singleton.mp hOther
        obtain rfl := hTarget.unique hNext
        exact ⟨List.mem_cons_self, hSame⟩

/-- What does not lead to a cycle is resolved to no delegate of it, as those lead back. -/
theorem resolve_ne_of_cycle (hCycle : Relation.TransGen grammar.Forwards start start)
    (hLeads : Relation.ReflTransGen grammar.Forwards start handle)
    (hAway : ¬ Relation.ReflTransGen grammar.Forwards other start) :
    grammar.resolve other ≠ grammar.resolve handle := by
  intro hSame
  have hEnd := hLeads.trans (grammar.resolves_resolve handle).leads
  rw [← hSame] at hEnd
  exact hAway ((grammar.resolves_resolve other).leads.trans
    (leads_back hCycle hEnd).to_reflTransGen)

/-- A delegate and its target are resolved alike unless they are different delegates of one
cycle. -/
theorem Forwards.resolve_eq_iff (hForwards : grammar.Forwards delegate target) :
    grammar.resolve delegate = grammar.resolve target ↔
      delegate = target ∨ ¬ Relation.ReflTransGen grammar.Forwards target delegate := by
  constructor
  · intro hSame
    by_contra hCycle
    obtain ⟨hNe, hBack⟩ := not_or.mp hCycle
    rw [not_not] at hBack
    have hStop := forwards_resolve (Relation.TransGen.head' hForwards hBack)
    have hStop' := forwards_resolve (Relation.TransGen.tail' hBack hForwards)
    rw [← hSame] at hStop'
    exact hNe (hStop.unique hStop')
  · rintro (rfl | hAway)
    · rfl
    · exact hForwards.resolve_eq hAway

end Cycles

section Targets

/-- Comparing a delegate with another node gives what comparing its target with it does, on
either side. -/
def Transparent (grammar : Grammar Λ) (delegate target other : Handle) : Prop :=
  grammar.equal delegate other = grammar.equal target other ∧
    grammar.equal other delegate = grammar.equal other target

/-- A delegate and its target that are resolved differently are told apart by what is resolved
as one of them is. -/
theorem Forwards.transparent_iff (hForwards : grammar.Forwards delegate target)
    (other : Handle) : grammar.Transparent delegate target other ↔
      grammar.resolve delegate = grammar.resolve target ∨
        (grammar.resolve other ≠ grammar.resolve delegate ∧
          grammar.resolve other ≠ grammar.resolve target) := by
  by_cases hSame : grammar.resolve delegate = grammar.resolve target
  · exact iff_of_true ⟨equal_congr hSame rfl, equal_congr rfl hSame⟩ (Or.inl hSame)
  · -- The two lie on a cycle, and end at different delegates of it.
    obtain ⟨-, hBack⟩ := not_or.mp (hForwards.resolve_eq_iff.not.mp hSame)
    rw [not_not] at hBack
    have hDelegate := equal_of_forwards
      (forwards_resolve (Relation.TransGen.head' hForwards hBack)) other
    have hTarget := equal_of_forwards
      (forwards_resolve (Relation.TransGen.tail' hBack hForwards)) other
    rw [Transparent, hDelegate.1, hDelegate.2, hTarget.1, hTarget.2, and_self,
      decide_eq_decide, or_iff_right hSame]
    constructor
    · intro hAlike
      exact ⟨fun h => hSame (h.symm.trans (hAlike.mp h)),
        fun h => hSame ((hAlike.mpr h).symm.trans h)⟩
    · rintro ⟨hOff, hOff'⟩
      exact iff_of_false hOff hOff'

end Targets

/-- A delegate is compared as its target, unless the two are different delegates of one cycle
and the other node resolves to the end that one of them resolves to; it then leads to the
cycle. -/
theorem delegates_transparent (hForwards : grammar.Forwards delegate target) (other : Handle) :
    (grammar.Transparent delegate target other ↔
      delegate = target ∨ ¬ Relation.ReflTransGen grammar.Forwards target delegate ∨
        (grammar.resolve other ≠ grammar.resolve delegate ∧
          grammar.resolve other ≠ grammar.resolve target)) ∧
    (¬ Relation.ReflTransGen grammar.Forwards other delegate →
      grammar.Transparent delegate target other) := by
  have hIff := hForwards.transparent_iff other
  rw [hForwards.resolve_eq_iff, or_assoc] at hIff
  refine ⟨hIff, fun hAway => hIff.mpr ?_⟩
  by_cases hBack : Relation.ReflTransGen grammar.Forwards target delegate
  · have hCycle := Relation.TransGen.head' hForwards hBack
    exact Or.inr (Or.inr ⟨resolve_ne_of_cycle hCycle .refl hAway,
      resolve_ne_of_cycle hCycle (.single hForwards) hAway⟩)
  · exact Or.inr (Or.inl hBack)

end Grammar

namespace Circling

/-- A letter and a delegate for it, two delegates that are each other's targets, and a third
one that leads to them. -/
def grammar : Grammar Lexicon.characters :=
  let (letter, grammar) := Grammar.initial.literal 'a'
  let (rule, grammar) := grammar.delegate
  let (there, grammar) := grammar.delegate
  let (back, grammar) := grammar.delegate
  let (entry, grammar) := grammar.delegate
  (((grammar.patch rule (.delegate (some letter))).patch there (.delegate (some back))).patch back
    (.delegate (some there))).patch entry (.delegate (some there))

theorem forwards : grammar.Forwards ⟨3, 0⟩ ⟨2, 0⟩ ∧ grammar.Forwards ⟨4, 0⟩ ⟨5, 0⟩ ∧
    grammar.Forwards ⟨5, 0⟩ ⟨4, 0⟩ ∧ grammar.Forwards ⟨6, 0⟩ ⟨4, 0⟩ :=
  ⟨rfl, rfl, rfl, rfl⟩

end Circling

namespace Grammar

/-- The delegate for the letter is compared as the letter, and the one that leads to the cycle
as its target there, whatever they are compared with; the delegates of the cycle are compared
alike with the letter, but not with one of themselves. -/
theorem delegates_transparent_circling :
    (∀ other, Circling.grammar.Transparent ⟨3, 0⟩ ⟨2, 0⟩ other) ∧
      (∀ other, Circling.grammar.Transparent ⟨6, 0⟩ ⟨4, 0⟩ other) ∧
      Circling.grammar.Transparent ⟨4, 0⟩ ⟨5, 0⟩ ⟨2, 0⟩ ∧
      ¬ Circling.grammar.Transparent ⟨4, 0⟩ ⟨5, 0⟩ ⟨5, 0⟩ := by
  obtain ⟨hLetter, hThere, hBack, hEntry⟩ := Circling.forwards
  refine ⟨fun other => ?_, fun other => ?_, ?_, fun hTransparent => ?_⟩
  · exact (delegates_transparent hLetter other).1.mpr
      (or_assoc.mp (Or.inl (hLetter.resolve_eq_iff.mp (by decide))))
  · exact (delegates_transparent hEntry other).1.mpr
      (or_assoc.mp (Or.inl (hEntry.resolve_eq_iff.mp (by decide))))
  · refine (delegates_transparent hThere ⟨2, 0⟩).2 fun hLeads => ?_
    obtain hSame | ⟨next, hForwards, -⟩ := hLeads.cases_head
    · cases hSame
    · cases hForwards
  · obtain hSame | hAway | ⟨-, hOff⟩ :=
      (delegates_transparent hThere ⟨5, 0⟩).1.mp hTransparent
    · cases hSame
    · exact hAway (.single hBack)
    · exact hOff rfl

/-- Of two delegates that are each other's targets, one is equal to itself, but the other, whose
target it is, differs from it. -/
theorem equal_differs_on_cycle :
    Circling.grammar.Forwards ⟨5, 0⟩ ⟨4, 0⟩ ∧
      Circling.grammar.equal ⟨4, 0⟩ ⟨4, 0⟩ = true ∧
      Circling.grammar.equal ⟨5, 0⟩ ⟨4, 0⟩ = false ∧
      ¬ Circling.grammar.Transparent ⟨5, 0⟩ ⟨4, 0⟩ ⟨4, 0⟩ := by
  have hSelf : Circling.grammar.equal ⟨4, 0⟩ ⟨4, 0⟩ = true := by decide +kernel
  have hOther : Circling.grammar.equal ⟨5, 0⟩ ⟨4, 0⟩ = false := by decide +kernel
  refine ⟨Circling.forwards.2.2.1, hSelf, hOther, fun hTransparent => ?_⟩
  cases hOther.symm.trans (hTransparent.1.trans hSelf)

end Grammar

end DerivativeParsing
