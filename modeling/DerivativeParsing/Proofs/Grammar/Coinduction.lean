import Mathlib.Data.List.ProdSigma
import DerivativeParsing.Proofs.Grammar.Comparison
import DerivativeParsing.Proofs.Grammar.Reach

namespace DerivativeParsing
namespace Grammar

/-!
# Comparisons end, and find what can be paired

`Answers` is a comparison without a bound on its depth: a question about two handles, about
all of some pairs or about any of some ways of pairing is answered under assumptions, with
one rule for every way to go on.  Each question about two handles that is not settled at once
assumes another pair of live handles, so the pairs that are left to assume bound the depth, and
the bound of the function is never met (`decides_equalWithin`).

Nothing that can be paired part by part is answered with no (`Answers.of_pairable`).  A way of
pairing that fails leaves assumptions behind, and these only settle more pairs.
-/

variable {Λ : Lexicon} {grammar : Grammar Λ} {first second : Handle}
  {paired : Handle → Handle → Prop} {assumed before after : Assumptions} {answer : Bool}

section Answers

/-- What a comparison is about: whether two handles are equal, whether the handles of all pairs
are, and whether they are for one of some ways of pairing. -/
inductive Question where
  | pair (first second : Handle)
  | all (pairs : List (Handle × Handle))
  | any (ways : List (List (Handle × Handle)))

/-- A question that is asked under assumptions gets an answer, and leaves assumptions. -/
inductive Answers (grammar : Grammar Λ) : Question → Assumptions → Bool → Assumptions → Prop
  | settled {first second : Handle} {assumed : Assumptions} :
      grammar.settled assumed first second = true →
      Answers grammar (.pair first second) assumed true assumed
  | equal {first second : Handle} {assumed after : Assumptions} :
      grammar.settled assumed first second = false →
      Answers grammar
        (.any (grammar.pairings (grammar.resolve first) (grammar.resolve second)))
        ((grammar.resolve first, grammar.resolve second) :: assumed) true after →
      Answers grammar (.pair first second) assumed true after
  | unlike {first second : Handle} {assumed after : Assumptions} :
      grammar.settled assumed first second = false →
      Answers grammar
        (.any (grammar.pairings (grammar.resolve first) (grammar.resolve second)))
        ((grammar.resolve first, grammar.resolve second) :: assumed) false after →
      Answers grammar (.pair first second) assumed false
        (after.erase (grammar.resolve first, grammar.resolve second))
  | done {assumed : Assumptions} : Answers grammar (.all []) assumed true assumed
  | failed {pair : Handle × Handle} {pairs : List (Handle × Handle)}
      {assumed after : Assumptions} :
      Answers grammar (.pair pair.1 pair.2) assumed false after →
      Answers grammar (.all (pair :: pairs)) assumed false after
  | next {pair : Handle × Handle} {pairs : List (Handle × Handle)}
      {assumed between after : Assumptions} {answer : Bool} :
      Answers grammar (.pair pair.1 pair.2) assumed true between →
      Answers grammar (.all pairs) between answer after →
      Answers grammar (.all (pair :: pairs)) assumed answer after
  | exhausted {assumed : Assumptions} : Answers grammar (.any []) assumed false assumed
  | found {way : List (Handle × Handle)} {ways : List (List (Handle × Handle))}
      {assumed after : Assumptions} :
      Answers grammar (.all way) assumed true after →
      Answers grammar (.any (way :: ways)) assumed true after
  | retried {way : List (Handle × Handle)} {ways : List (List (Handle × Handle))}
      {assumed between after : Assumptions} {answer : Bool} :
      Answers grammar (.all way) assumed false between →
      Answers grammar (.any ways) between answer after →
      Answers grammar (.any (way :: ways)) assumed answer after

/-- A question is answered in one way only. -/
theorem Answers.unique {question : Question} {answer' : Bool} {after' : Assumptions}
    (hFirst : grammar.Answers question assumed answer after)
    (hSecond : grammar.Answers question assumed answer' after') :
    answer = answer' ∧ after = after' := by
  induction hFirst generalizing answer' after' with
  | settled hSettled =>
      cases hSecond with
      | settled _ => exact ⟨rfl, rfl⟩
      | equal hOther _ => cases hSettled.symm.trans hOther
      | unlike hOther _ => cases hSettled.symm.trans hOther
  | equal hSettled _ ih =>
      cases hSecond with
      | settled hOther => cases hSettled.symm.trans hOther
      | equal _ hWays => exact ih hWays
      | unlike _ hWays => cases (ih hWays).1
  | unlike hSettled _ ih =>
      cases hSecond with
      | settled hOther => cases hSettled.symm.trans hOther
      | equal _ hWays => cases (ih hWays).1
      | unlike _ hWays => exact ⟨rfl, by rw [(ih hWays).2]⟩
  | done =>
      cases hSecond
      exact ⟨rfl, rfl⟩
  | failed _ ih =>
      cases hSecond with
      | failed hPair => exact ih hPair
      | next hPair _ => cases (ih hPair).1
  | next _ _ ihPair ihRest =>
      cases hSecond with
      | failed hPair => cases (ihPair hPair).1
      | next hPair hRest =>
          obtain ⟨-, rfl⟩ := ihPair hPair
          exact ihRest hRest
  | exhausted =>
      cases hSecond
      exact ⟨rfl, rfl⟩
  | found _ ih =>
      cases hSecond with
      | found hWay => exact ih hWay
      | retried hWay _ => cases (ih hWay).1
  | retried _ _ ihWay ihRest =>
      cases hSecond with
      | found hWay => cases (ihWay hWay).1
      | retried hWay hRest =>
          obtain ⟨-, rfl⟩ := ihWay hWay
          exact ihRest hRest

end Answers

section Bounds

/-- The pairs of live handles that are not assumed equal yet. -/
def unassumed (grammar : Grammar Λ) (assumed : Assumptions) : Nat :=
  (grammar.handles ×ˢ grammar.handles).countP fun pair => !assumed.contains pair

theorem unassumed_le_of_subset (hSubset : before ⊆ after) :
    grammar.unassumed after ≤ grammar.unassumed before := by
  refine List.countP_mono_left fun pair _ hPair => ?_
  simp only [Bool.not_eq_true', List.contains_eq_mem, decide_eq_false_iff_not] at hPair ⊢
  exact fun hMem => hPair (hSubset hMem)

/-- One more pair of live handles that is assumed leaves one less. -/
theorem unassumed_cons_lt {node node' : Node Λ} (hFirst : grammar.get? first = some node)
    (hSecond : grammar.get? second = some node') (hNew : (first, second) ∉ assumed) :
    grammar.unassumed ((first, second) :: assumed) < grammar.unassumed assumed := by
  have hPair : (first, second) ∈ grammar.handles ×ˢ grammar.handles :=
    List.mem_product.mpr ⟨mem_handles_of_get? hFirst, mem_handles_of_get? hSecond⟩
  refine countP_lt_countP (fun other _ hOther => ?_) hPair (by simp) (by simpa using hNew)
  simp only [Bool.not_eq_true', List.contains_eq_mem, decide_eq_false_iff_not] at hOther ⊢
  exact fun hMem => hOther (List.mem_cons_of_mem _ hMem)

theorem unassumed_le (grammar : Grammar Λ) (assumed : Assumptions) :
    grammar.unassumed assumed ≤ grammar.capacity * grammar.capacity := by
  calc grammar.unassumed assumed
      ≤ (grammar.handles ×ˢ grammar.handles).length := List.countP_le_length
    _ = grammar.handles.length * grammar.handles.length := List.length_product _ _
    _ ≤ grammar.capacity * grammar.capacity :=
        Nat.mul_le_mul grammar.length_handles_le grammar.length_handles_le

/-- Only live nodes can be paired. -/
theorem get?_of_mem_pairings {pairs : List (Handle × Handle)}
    (hPairs : pairs ∈ grammar.pairings first second) :
    ∃ node node', grammar.get? first = some node ∧ grammar.get? second = some node' := by
  unfold pairings at hPairs
  split at hPairs
  · next hFirst hSecond => exact ⟨_, _, hFirst, hSecond⟩
  · next hFirst hSecond => exact ⟨_, _, hFirst, hSecond⟩
  · next hFirst hSecond => exact ⟨_, _, hFirst, hSecond⟩
  · next hFirst hSecond => exact ⟨_, _, hFirst, hSecond⟩
  · cases hPairs

/-- A comparison answers what it is asked, with few enough pairs left to assume. -/
def Decides (grammar : Grammar Λ) (compare : Comparison) (bound : Nat) : Prop :=
  ∀ first second assumed, grammar.unassumed assumed < bound →
    grammar.Answers (.pair first second) assumed ((compare first second).run assumed).1
      ((compare first second).run assumed).2

variable {compare : Comparison} {bound : Nat}

theorem Decides.allEqual (hDecides : grammar.Decides compare bound)
    (hKept : ∀ first second assumed, assumed ⊆ ((compare first second).run assumed).2)
    (pairs : List (Handle × Handle)) (hBound : grammar.unassumed assumed < bound) :
    grammar.Answers (.all pairs) assumed ((allEqual compare pairs).run assumed).1
      ((allEqual compare pairs).run assumed).2 := by
  induction pairs generalizing assumed with
  | nil => exact .done
  | cons pair pairs ih =>
      have hPair := hDecides pair.1 pair.2 assumed hBound
      have hLess : grammar.unassumed ((compare pair.1 pair.2).run assumed).2 ≤
          grammar.unassumed assumed := unassumed_le_of_subset (hKept pair.1 pair.2 assumed)
      rw [Grammar.allEqual, run_both]
      cases hAnswer : ((compare pair.1 pair.2).run assumed).1 with
      | true =>
          rw [hAnswer] at hPair
          exact .next hPair (ih (by omega))
      | false =>
          rw [hAnswer] at hPair
          rw [if_neg Bool.false_ne_true, hAnswer]
          exact .failed hPair

theorem Decides.someEqual (hDecides : grammar.Decides compare bound)
    (hKept : ∀ first second assumed, assumed ⊆ ((compare first second).run assumed).2)
    (ways : List (List (Handle × Handle))) (hBound : grammar.unassumed assumed < bound) :
    grammar.Answers (.any ways) assumed ((someEqual compare ways).run assumed).1
      ((someEqual compare ways).run assumed).2 := by
  induction ways generalizing assumed with
  | nil => exact .exhausted
  | cons way ways ih =>
      have hWay := hDecides.allEqual hKept way hBound
      have hLess : grammar.unassumed ((Grammar.allEqual compare way).run assumed).2 ≤
          grammar.unassumed assumed :=
        unassumed_le_of_subset (subset_allEqual hKept way assumed)
      rw [Grammar.someEqual, run_either]
      cases hAnswer : ((Grammar.allEqual compare way).run assumed).1 with
      | true =>
          rw [hAnswer] at hWay
          rw [if_pos rfl, hAnswer]
          exact .found hWay
      | false =>
          rw [hAnswer] at hWay
          exact .retried hWay (ih (by omega))

/-- The ways of pairing two handles are tried with one pair of live handles less to assume, if
there are any. -/
theorem Decides.answers_pairings (hDecides : grammar.Decides compare bound)
    (hKept : ∀ first second assumed, assumed ⊆ ((compare first second).run assumed).2)
    (hNew : (first, second) ∉ assumed) (hBound : grammar.unassumed assumed ≤ bound) :
    grammar.Answers (.any (grammar.pairings first second)) ((first, second) :: assumed)
      ((Grammar.someEqual compare (grammar.pairings first second)).run
        ((first, second) :: assumed)).1
      ((Grammar.someEqual compare (grammar.pairings first second)).run
        ((first, second) :: assumed)).2 := by
  cases hWays : grammar.pairings first second with
  | nil => exact .exhausted
  | cons way ways =>
      have hWay : way ∈ grammar.pairings first second := by
        rw [hWays]
        exact List.mem_cons_self
      obtain ⟨node, node', hFirst, hSecond⟩ := get?_of_mem_pairings hWay
      have hLess := unassumed_cons_lt hFirst hSecond hNew
      exact hDecides.someEqual hKept _ (Nat.lt_of_lt_of_le hLess hBound)

/-- A comparison that may go deeper than there are pairs left to assume ends before that. -/
theorem decides_equalWithin (fuel : Nat) :
    grammar.Decides (grammar.equalWithin fuel) fuel := by
  induction fuel with
  | zero => exact fun _ _ _ hBound => absurd hBound (Nat.not_lt_zero _)
  | succ fuel ih =>
      intro first second assumed hBound
      rw [run_equalWithin_succ]
      cases hSettled : grammar.settled assumed first second with
      | true => exact .settled hSettled
      | false =>
          have hNew : (grammar.resolve first, grammar.resolve second) ∉ assumed := by
            intro hMem
            rw [settled_eq_true_iff.mpr (Or.inl (Or.inr (Or.inl hMem)))] at hSettled
            cases hSettled
          have hWays := ih.answers_pairings (subset_equalWithin fuel) hNew (by omega)
          rw [if_neg Bool.false_ne_true, run_assuming]
          split
          · next hEqual =>
              rw [hEqual] at hWays ⊢
              exact .equal hSettled hWays
          · next hUnlike =>
              rw [Bool.not_eq_true] at hUnlike
              rw [hUnlike] at hWays
              exact .unlike hSettled hWays

/-- A comparison without a bound gives the answer of the one that has it. -/
theorem answers_iff (grammar : Grammar Λ) (first second : Handle) :
    (∃ after, grammar.Answers (.pair first second) [] answer after) ↔
      answer = grammar.equal first second := by
  have hDecided : grammar.Answers (.pair first second) [] (grammar.equal first second) _ :=
    decides_equalWithin _ first second [] (Nat.lt_succ_of_le (grammar.unassumed_le []))
  constructor
  · rintro ⟨after, hAnswers⟩
    exact (hAnswers.unique hDecided).1
  · rintro rfl
    exact ⟨_, hDecided⟩

end Bounds

section Completeness

/-- Whatever is paired needs no comparison, or leads to a way of pairing its parts that stays
within the relation. -/
def Pairable (grammar : Grammar Λ) (paired : Handle → Handle → Prop) : Prop :=
  ∀ first second, paired first second → grammar.settled [] first second = true ∨
      ∃ pairs ∈ grammar.pairings (grammar.resolve first) (grammar.resolve second),
        ∀ pair ∈ pairs, paired pair.1 pair.2

/-- The handles of a question are paired: the two, those of all pairs, or those of all pairs of
one of the ways. -/
def Question.Within (paired : Handle → Handle → Prop) : Question → Prop
  | .pair first second => paired first second
  | .all pairs => ∀ pair ∈ pairs, paired pair.1 pair.2
  | .any ways => ∃ pairs ∈ ways, ∀ pair ∈ pairs, paired pair.1 pair.2

/-- A question about what is paired is answered with yes, whatever was assumed before. -/
theorem Answers.of_pairable {question : Question} (hPairable : grammar.Pairable paired)
    (hAnswers : grammar.Answers question assumed answer after)
    (hWithin : question.Within paired) : answer = true := by
  induction hAnswers with
  | settled _ => rfl
  | equal _ _ => rfl
  | @unlike first second assumed _ hSettled _ ih =>
      have hUnsettled : ¬ grammar.settled [] first second = true := fun hLeaf => by
        rw [settled_mono (List.nil_subset assumed) hLeaf] at hSettled
        cases hSettled
      exact ih ((hPairable first second hWithin).resolve_left hUnsettled)
  | done => rfl
  | failed _ ih => exact ih (List.forall_mem_cons.mp hWithin).1
  | next _ _ _ ihRest => exact ihRest (List.forall_mem_cons.mp hWithin).2
  | exhausted =>
      obtain ⟨pairs, hWay, -⟩ := hWithin
      cases hWay
  | found _ => rfl
  | retried _ _ ihWay ihRest =>
      obtain ⟨pairs, hWay, hPairs⟩ := hWithin
      rcases List.mem_cons.mp hWay with rfl | hWay
      · cases ihWay hPairs
      · exact ihRest ⟨pairs, hWay, hPairs⟩

/-- What is paired is found equal. -/
theorem equal_of_pairable (hPairable : grammar.Pairable paired) (hPaired : paired first second) :
    grammar.equal first second = true := by
  obtain ⟨after, hAnswers⟩ := (grammar.answers_iff first second).mpr rfl
  exact hAnswers.of_pairable hPairable hPaired

end Completeness

end Grammar

end DerivativeParsing
