import DerivativeParsing.Proofs.Engine.Descent

namespace DerivativeParsing

/-!
# Derivatives are residuals by one token

For every kind of node the derivative is built along the law for that kind of node
(`attains_deriveParts`).  By induction on the fuel a derivative is a residual of its node
by the token, and the fuel lasts as long as every cycle passes through a delegate
(`serves_deriveWithin`).
-/

namespace Engine

variable {Λ : Lexicon} {excused : Prop} {token : Λ.Token} {start engine : Engine Λ}
  {knots : Handle → Handle → Prop} {handle : Handle} {node : Node Λ}
  {serve : Handle → Action Λ Handle} {bound : Nat}

section Parts

variable (hUnderway : Underway (.derive token) start knots engine)
  (hValid : start.grammar.Valid handle)
  (hBound : (Task.derive token).unmet start.grammar engine.tables ≤ bound)

include hUnderway hValid hBound

/-- The derivative of a sequence: the token is taken by the first part, or by the second
part after an empty match of the first. -/
theorem attains_derive_sequence {first second : Handle}
    (hNode : start.grammar.get? handle = some (.sequence first second))
    (hFounded : start.grammar.Founded)
    (hExcused : start.configuration.forestPassLimit = 0 → excused)
    (hFirst : Serves excused (.derive token) start serve bound first)
    (hSecond : Serves excused (.derive token) start serve bound second) :
    Attains excused (plain.deriveParts serve handle token (.sequence first second)) engine
      (Yields (.derive token) start (.residual handle) knots engine) := by
  have hFirstValid := hValid.child hNode (Node.mem_children_sequence.mpr (Or.inl rfl))
  have hSecondValid := hValid.child hNode (Node.mem_children_sequence.mpr (Or.inr rfl))
  rw [Manner.deriveParts]
  refine (hFirst knots engine hUnderway hBound).bind ?_
  rintro head engine₁ ⟨knots₁, hUnderway₁, hStep₁, hHead⟩
  refine (hUnderway₁.attains_alloc (.sequence head second)).bind ?_
  rintro inFirst engine₂ ⟨hUnderway₂, hStep₂, hInFirst⟩
  have hTaken := Grammar.Represents.sequence hInFirst (hStep₂.represents hHead)
    (.whole hSecondValid)
  refine (hUnderway₂.attains_isNullable hFirstValid).bind ?_
  rintro nullable engine₃ ⟨hQuery₃, hNullable⟩
  obtain ⟨hUnderway₃, hStep₃⟩ := hUnderway₂.consulted hQuery₃
  have hSteps := (hStep₁.trans hStep₂).trans hStep₃
  cases nullable with
  | false =>
      -- The first part takes the token, as it has no empty match.
      rw [if_neg Bool.false_ne_true, attains_pure]
      have hNot : ¬ start.grammar.meaning .language first [] () :=
        fun h => Bool.false_ne_true (hNullable.mpr h)
      exact Yields.unfolded ⟨knots₁, hUnderway₃, hSteps, hStep₃.represents hTaken⟩
        (Grammar.unfolds_sequence_of_not_nullable hNode hNot)
  | true =>
      -- Or the second part takes it, after the trees of the first part's empty matches.
      rw [if_pos rfl]
      refine (hUnderway₃.attains_forestOf hFirstValid hExcused).bind ?_
      rintro trees engine₄ ⟨hQuery₄, hGathers⟩
      obtain ⟨hUnderway₄, hStep₄⟩ := hUnderway₃.consulted hQuery₄
      refine (hUnderway₄.attains_epsCarrying hFounded trees).bind ?_
      rintro kept engine₅ ⟨hUnderway₅, hStep₅, hKept⟩
      have hSteps := (hSteps.trans hStep₄).trans hStep₅
      refine (hSecond knots₁ engine₅ hUnderway₅
        ((hSteps.unmet_le start.grammar).trans hBound)).bind ?_
      rintro tail engine₆ ⟨knots₆, hUnderway₆, hStep₆, hTail⟩
      refine (hUnderway₆.attains_alloc (.sequence kept tail)).bind ?_
      rintro inSecond engine₇ ⟨hUnderway₇, hStep₇, hInSecond⟩
      have hLeft := Grammar.Represents.sequence hInSecond
        ((hStep₆.trans hStep₇).represents (.eps hKept)) (hStep₇.represents hTail)
      refine (hUnderway₇.attains_alloc (.union inFirst inSecond)).mono ?_
      rintro result engine₈ ⟨hUnderway₈, hStep₈, hResult⟩
      have hLater := (((hStep₄.trans hStep₅).trans hStep₆).trans hStep₇).trans hStep₈
      -- The trees are all of them if no query was stopped, and none was before if none
      -- was in the end.
      have hExact : engine₈.Untruncated → engine₄.Untruncated := fun h => h.of_suffix
        (((hStep₅.trans hStep₆).trans hStep₇).trans hStep₈).journal
      refine Yields.unfolded ⟨knots₆, hUnderway₈,
        ((hSteps.trans hStep₆).trans hStep₇).trans hStep₈, ?_⟩
        (Grammar.unfolds_sequence_of_nullable hNode (hNullable.mp rfl) (hGathers.mono hExact))
      exact .union hResult ((hStep₃.trans hLater).represents hTaken)
        (hStep₈.represents hLeft)

/-- The derivative of a node, along the law for its kind. -/
theorem attains_deriveParts (hNode : start.grammar.get? handle = some node)
    (hNew : (Task.derive token).remembered engine.tables handle = none)
    (hFounded : start.grammar.Founded)
    (hExcused : start.configuration.forestPassLimit = 0 → excused)
    (hServe : ∀ child ∈ node.children,
      Serves excused (.derive token) start serve (bound - node.isDelegate.toNat) child) :
    Attains excused (plain.deriveParts serve handle token node) engine
      (Yields (.derive token) start (.residual handle) knots engine) := by
  cases node with
  | empty =>
      refine attains_pure.mpr ((hUnderway.yields_empty hFounded).unfolded
        (Grammar.unfolds_empty fun view string result hMatch => ?_))
      rw [Grammar.meaning_eq hNode] at hMatch
      exact hMatch
  | eps forest =>
      refine attains_pure.mpr ((hUnderway.yields_empty hFounded).unfolded
        (Grammar.unfolds_empty fun view string result hMatch => ?_))
      rw [Grammar.meaning_eq hNode] at hMatch
      exact List.cons_ne_nil token string hMatch.1
  | token matcher =>
      rw [Manner.deriveParts]
      split
      · next hAccepts =>
          refine (hUnderway.attains_alloc _).mono ?_
          rintro result after ⟨hAfter, hStep, hResult⟩
          exact Yields.unfolded ⟨knots, hAfter, hStep, .eps hResult⟩
            (Grammar.unfolds_token hNode hAccepts)
      · next hAccepts =>
          refine attains_pure.mpr ((hUnderway.yields_empty hFounded).unfolded
            (Grammar.unfolds_empty fun view string result hMatch => hAccepts ?_))
          rw [Grammar.meaning_eq hNode] at hMatch
          obtain ⟨other, hString, hOther, -⟩ := hMatch
          obtain ⟨rfl, -⟩ := List.cons_eq_cons.mp hString
          exact hOther
  | union left right =>
      refine (hUnderway.attains_both hBound
        (hServe left (Node.mem_children_union.mpr (Or.inl rfl)))
        (hServe right (Node.mem_children_union.mpr (Or.inr rfl))) .union .union).mono ?_
      exact fun result after hYields => hYields.unfolded (Grammar.unfolds_union hNode)
  | sequence first second =>
      exact attains_derive_sequence hUnderway hValid hBound hNode hFounded hExcused
        (hServe first (Node.mem_children_sequence.mpr (Or.inl rfl)))
        (hServe second (Node.mem_children_sequence.mpr (Or.inr rfl)))
  | repetition inner =>
      rw [Manner.deriveParts]
      refine (hServe inner (List.mem_singleton_self inner) knots engine hUnderway
        hBound).bind ?_
      rintro head engine₁ ⟨knots₁, hUnderway₁, hStep₁, hHead⟩
      refine (hUnderway₁.attains_alloc (.sequence head handle)).bind ?_
      rintro iteration engine₂ ⟨hUnderway₂, hStep₂, hIteration⟩
      -- The repetition itself stands for the iterations that follow.
      have hMore := Grammar.Represents.sequence hIteration (hStep₂.represents hHead)
        (.whole hValid)
      refine (hUnderway₂.attains_alloc (.reduction iteration .cons)).mono ?_
      rintro result engine₃ ⟨hUnderway₃, hStep₃, hResult⟩
      exact Yields.unfolded ⟨knots₁, hUnderway₃, (hStep₁.trans hStep₂).trans hStep₃,
        .reduction hResult (hStep₃.represents hMore)⟩
        (Grammar.unfolds_repetition_of_token hNode)
  | reduction inner reducer =>
      rw [Manner.deriveParts]
      refine (hServe inner (List.mem_singleton_self inner) knots engine hUnderway
        hBound).bind ?_
      rintro derived engine₁ ⟨knots₁, hUnderway₁, hStep₁, hDerived⟩
      refine (hUnderway₁.attains_alloc (.reduction derived reducer)).mono ?_
      rintro result engine₂ ⟨hUnderway₂, hStep₂, hResult⟩
      exact Yields.unfolded ⟨knots₁, hUnderway₂, hStep₁.trans hStep₂,
        .reduction hResult (hStep₂.represents hDerived)⟩ (Grammar.unfolds_reduction hNode)
  | delegate target =>
      cases target with
      | none =>
          obtain ⟨other, hOther, hSet⟩ := hValid.get?
          exact absurd (Option.some.inj (hOther.symm.trans hNode)) hSet
      | some target =>
          refine hUnderway.attains_delegate hValid hNode hNew fun knots' after hAfter hLt => ?_
          refine hServe target (List.mem_singleton_self target) knots' after hAfter ?_
          exact Nat.le_sub_one_of_lt (hLt.trans_le hBound)

end Parts

/-- Looking a derivative up is a query. -/
theorem attains_rememberedDerivative (hInformed : engine.Informed) :
    Attains excused (rememberedDerivative ⟨handle, token⟩) engine fun found after =>
      engine.Consulted after ∧
        found = (Task.derive token).remembered engine.tables handle := by
  unfold rememberedDerivative
  rw [attains_remember]
  exact ⟨⟨rfl, rfl, engine.tables.derive.peek?_lookup ⟨handle, token⟩, fun _ => rfl,
    List.suffix_rfl, hInformed.nullable, hInformed.inhabited, hInformed.consuming,
    hInformed.forest⟩, engine.tables.derive.lookup_fst ⟨handle, token⟩⟩

/-- A derivative is a residual by the token, and the fuel lasts if there is enough. -/
theorem serves_deriveWithin (hFounded : start.grammar.Founded)
    (hExcused : start.configuration.forestPassLimit = 0 → excused) {fuel : Nat}
    (hValid : start.grammar.Valid handle)
    (hFuelled : ¬ excused → Fuelled start bound fuel handle) :
    Serves excused (.derive token) start (plain.deriveWithin token fuel) bound handle := by
  induction fuel generalizing handle bound with
  | zero =>
      intro knots engine _ _
      exact attains_throw.mpr (by_contra fun hNot => nomatch (hFuelled hNot).2)
  | succ fuel ih =>
      intro knots engine hUnderway hBound
      obtain ⟨node, hNode, -⟩ := hValid.get?
      refine hUnderway.attains_recollected hValid hNode
        (attains_rememberedDerivative hUnderway.informed) fun after hAfter hNew hLe => ?_
      -- Only a delegate that is entered for the first time lowers the bound.
      refine attains_deriveParts hAfter hValid (hLe.trans hBound) hNode hNew hFounded hExcused
        fun child hChild => ih (hValid.child hNode hChild) fun hNot => ?_
      refine (hFuelled hNot).child hValid hNode hChild fun hDelegate => ?_
      exact (Task.unmet_pos hNode hDelegate hNew).trans_le (hLe.trans hBound)

end Engine

end DerivativeParsing
