import DerivativeParsing.Proofs.Grammar.Bisimulation
import DerivativeParsing.Proofs.NormalForm

namespace DerivativeParsing

/-!
# Compaction is idempotent

Compacting a node that was compacted before gives a different graph: cycles that are entered
elsewhere are unrolled, reductions that had a placeholder between them are folded, and leaves
are made anew.  The structural comparison sees none of this.  A trim node is compacted to a node
that is alike, with parts that are compacted parts (`Shapes.alike`), so the two graphs are
found equal (`compact_idempotent`).
-/

namespace Grammar

variable {Λ : Lexicon} {grammar : Grammar Λ} {node once twice inner : Handle}
  {found image : Node Λ} {reducer : Reducer Λ}

/-- A handle of a compacted graph and what compaction makes of it. -/
def Repeats (grammar : Grammar Λ) (once twice : Handle) : Prop :=
  grammar.Stems once ∧ grammar.Shrinks once twice

/-- Of the trim nodes only delegates are skipped. -/
theorem Trim.eq_delegate (hTrim : grammar.Trim found) (hNode : grammar.get? node = some found)
    (hSkips : grammar.Skips node inner) : found = .delegate (some inner) := by
  cases hSkips with
  | delegate hDelegate => exact Option.some.inj (hNode.symm.trans hDelegate)
  | passed hPasses =>
      cases hPasses with
      | left hUnion hBarren =>
          obtain rfl := Option.some.inj (hNode.symm.trans hUnion)
          exact absurd hTrim.2.1 hBarren
      | right hUnion hBarren =>
          obtain rfl := Option.some.inj (hNode.symm.trans hUnion)
          exact absurd hTrim.1 hBarren

/-- Of the trim nodes only reductions are made reductions. -/
theorem Trim.eq_reduction (hTrim : grammar.Trim found) (hNode : grammar.get? node = some found)
    (hReduces : grammar.Reduces node inner reducer) : found = .reduction inner reducer := by
  cases hReduces with
  | reduction hReduction => exact Option.some.inj (hNode.symm.trans hReduction)
  | prepend forest hSequence hNull =>
      obtain rfl := Option.some.inj (hNode.symm.trans hSequence)
      exact absurd hNull hTrim.1.not_nullOnly
  | append forest hSequence hNull =>
      obtain rfl := Option.some.inj (hNode.symm.trans hSequence)
      exact absurd hNull hTrim.2.not_nullOnly

/-- A node of a compacted graph and what compaction makes of it are alike. -/
theorem Shapes.alike (hShapes : grammar.Shapes once image) (hStems : grammar.Stems once) :
    ∃ found, grammar.get? once = some found ∧
      grammar.Alike grammar.Repeats found image := by
  obtain ⟨-, -, hInhabited, -⟩ := hStems.trim
  -- By induction on why the node has matches: delegates and reductions are looked through, and
  -- there are matches at the end of them.
  refine hInhabited.induction (motive := fun once => grammar.Stems once → ∀ image,
    grammar.Shapes once image → ∃ found, grammar.get? once = some found ∧
      grammar.Alike grammar.Repeats found image) ?_ hStems image hShapes
  rintro once found hOnce hPart hStems image ⟨last, hLeads, hFormed⟩
  refine ⟨found, hOnce, ?_⟩
  obtain ⟨other, hOther, hInhabited, hTrim⟩ := hStems.trim
  obtain rfl := Option.some.inj (hOnce.symm.trans hOther)
  have hBelowStems {child : Handle} (hMem : child ∈ found.children) : grammar.Stems child :=
    hStems.reaches (reaches_child hOnce hMem)
  have hChild {child child' : Handle} (hMem : child ∈ found.children)
      (hCondenses : grammar.Condenses grammar (fun _ _ => False) child child') :
      grammar.Repeats child child' := ⟨hBelowStems hMem, shrinks_iff.mpr hCondenses⟩
  rcases hLeads.cases_head with rfl | ⟨next, hSkips, hLeads⟩
  · cases formed_iff.mp hFormed with
    | settled hSettles =>
        cases hSettles with
        | barren hBarren => exact absurd hInhabited hBarren
        | nullOnly forest hNull =>
            have hEps : ∃ forest', found = .eps forest' := by
              by_contra hMore
              exact hNull.2 (hTrim.consuming hOnce fun forest' hEps => hMore ⟨forest', hEps⟩)
            obtain ⟨forest', rfl⟩ := hEps
            exact (Twins.eps forest' forest).alike
        | token hToken =>
            obtain rfl := Option.some.inj (hOnce.symm.trans hToken)
            exact (Twins.token _).alike
    | union _ hUnion _ _ hLeft hRight =>
        obtain rfl := Option.some.inj (hOnce.symm.trans hUnion)
        exact (Twins.union (hChild (Node.mem_children_union.mpr (Or.inl rfl)) hLeft)
          (hChild (Node.mem_children_union.mpr (Or.inr rfl)) hRight)).alike
    | sequence _ hSequence _ _ hFirst hSecond =>
        obtain rfl := Option.some.inj (hOnce.symm.trans hSequence)
        exact (Twins.sequence (hChild (Node.mem_children_sequence.mpr (Or.inl rfl)) hFirst)
          (hChild (Node.mem_children_sequence.mpr (Or.inr rfl)) hSecond)).alike
    | repetition _ hRepetition hInner =>
        obtain rfl := Option.some.inj (hOnce.symm.trans hRepetition)
        exact (Twins.repetition (hChild (List.mem_singleton_self _) hInner)).alike
    | reduced _ hReduces hInner _ =>
        obtain rfl := hTrim.eq_reduction hOnce hReduces
        obtain ⟨hInnerStems, image, hImage, hShapes⟩ := hChild (List.mem_singleton_self _) hInner
        obtain ⟨below, hBelow, hAlike⟩ := hPart.2 hInnerStems image hShapes
        exact hAlike.reduction hBelow hImage _
    | fused _ hReduces hInner =>
        obtain rfl := hTrim.eq_reduction hOnce hReduces
        obtain ⟨below, hBelow, hAlike⟩ := hPart.2 (hBelowStems (List.mem_singleton_self _)) _ hInner
        exact hAlike.fused hBelow _
    | knot _ hDelegate hTarget =>
        obtain rfl := Option.some.inj (hOnce.symm.trans hDelegate)
        obtain ⟨hTargetStems, image, hImage, hShapes⟩ :=
          hChild (List.mem_singleton_self _) hTarget
        obtain ⟨below, hBelow, hAlike⟩ := hPart.2 hTargetStems image hShapes
        exact (hAlike.delegate_left hBelow).delegate_right hImage
  · obtain rfl := hTrim.eq_delegate hOnce hSkips
    obtain ⟨below, hBelow, hAlike⟩ :=
      hPart.2 (hBelowStems (List.mem_singleton_self _)) image ⟨last, hLeads, hFormed⟩
    exact hAlike.delegate_left hBelow

theorem Repeats.resembles (hRepeats : grammar.Repeats once twice) :
    grammar.Resembles grammar.Repeats once twice := by
  obtain ⟨hStems, image, hImage, hShapes⟩ := hRepeats
  obtain ⟨found, hFound, hAlike⟩ := hShapes.alike hStems
  exact ⟨found, image, hFound, hImage, hAlike⟩

/-- What compaction makes of a node, and what it makes of that, are found equal. -/
theorem Shrinks.equal (hOnce : grammar.Shrinks node once) (hTwice : grammar.Shrinks once twice) :
    grammar.equal once twice = true := by
  have hRelated (once twice : Handle) (hRepeats : grammar.Repeats once twice) :
      grammar.Resembles grammar.Repeats once twice := hRepeats.resembles
  refine equal_of_resembles hRelated ?_
  by_cases hInhabited : grammar.Inhabited node
  · exact Repeats.resembles ⟨⟨node, hInhabited, hOnce⟩, hTwice⟩
  · -- Without matches both are the empty node.
    obtain ⟨image, hImage, hShapes⟩ := hOnce
    obtain rfl := hShapes.eq_empty hInhabited
    have hBarren : ¬ grammar.Inhabited once := fun h => (inhabited_iff hImage).mp h
    obtain ⟨image', hImage', hShapes'⟩ := hTwice
    obtain rfl := hShapes'.eq_empty hBarren
    exact ⟨.empty, .empty, hImage, hImage', Twins.empty.alike⟩

/-- What compaction has made of a valid node stays so when the grammar grows. -/
theorem Shrinks.keeps {grammar' : Grammar Λ} (hShrinks : grammar.Shrinks node once)
    (hValid : grammar.Valid node) (hKeeps : grammar.Keeps grammar') :
    grammar'.Shrinks node once := by
  have hConserves : Conserves grammar grammar' grammar grammar' (fun _ _ => False) grammar.Valid
      fun _ => True :=
    conserves_of_grows hKeeps.grows fun _ _ hImage _ => hKeeps.get? hImage
  exact shrinks_iff.mpr (hConserves.condenses hValid trivial (shrinks_iff.mp hShrinks))

end Grammar

namespace Engine

open Grammar

variable {Λ : Lexicon} {engine : Engine Λ} {node : Handle}

/-- Compacting a node again gives a node that the structural comparison finds equal to it. -/
theorem compact_idempotent (hReached : engine.Reached)
    (hLimit : 1 ≤ engine.configuration.forestPassLimit)
    (hNode : engine.grammar.validate node = .ok ())
    (hGuarded : engine.grammar.Guarded node) :
    ∃ once middle twice after, (compact node).run engine = .ok once middle ∧
      (compact once).run middle = .ok twice after ∧
      after.grammar.equal once twice = true := by
  have hValid : engine.grammar.Valid node := validate_eq_ok_iff.mp hNode
  obtain ⟨once, middle, hOnce, hFirst⟩ :=
    hReached.coherent.exists_shrunk hReached.condensed hLimit hValid hGuarded
  obtain ⟨twice, after, hTwice, hSecond⟩ :=
    hFirst.consumes.coherent.exists_shrunk hFirst.condensed
      (hFirst.consumes.configuration ▸ hLimit) hFirst.consumes.residual.valid
      (hFirst.consumes.residual.guarded hGuarded)
  refine ⟨once, middle, twice, after, hOnce, hTwice, ?_⟩
  have hValid' : middle.grammar.Valid node := (hValid.agrees hFirst.keeps.grows).valid hValid
  exact (hFirst.shrinks.keeps hValid' hSecond.keeps).equal hSecond.shrinks

theorem compact_idempotent_overgrown :
    Overgrown.engine.Reached ∧ 1 ≤ Overgrown.engine.configuration.forestPassLimit ∧
      Overgrown.engine.grammar.validate Overgrown.rule = .ok () ∧
      Overgrown.engine.grammar.Guarded Overgrown.rule ∧
      ∃ once middle twice after, (compact Overgrown.rule).run Overgrown.engine = .ok once middle ∧
        (compact once).run middle = .ok twice after ∧
        after.grammar.equal once twice = true :=
  ⟨Overgrown.reached, by decide, Overgrown.validate_rule, Overgrown.guarded_rule,
    compact_idempotent Overgrown.reached (by decide) Overgrown.validate_rule
      Overgrown.guarded_rule⟩

end Engine

end DerivativeParsing
