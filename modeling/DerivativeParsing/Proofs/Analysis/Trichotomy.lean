import DerivativeParsing.Proofs.Analysis.Properties

namespace DerivativeParsing
namespace Grammar

/-!
# Barren, null-only and consuming nodes

The two analyses of matches are least fixed points, so each has an induction along the
layers of nodes (`Inhabited.induction`, `Consuming.induction`) and unfolds by one layer at a
node that is known (`inhabited_iff`, `consuming_iff`).

Together with nullability they sort the nodes into three classes: a node is not inhabited at
all, or matches only the empty string (`NullOnly`), or is consuming
(`Inhabited.consuming`).
-/

open Fixpoint

variable {Λ : Lexicon} {grammar : Grammar Λ} {handle : Handle} {node : Node Λ}

section Layers

theorem inhabited_iff (hNode : grammar.get? handle = some node) :
    grammar.Inhabited handle ↔ node.inhabited grammar.Inhabited := by
  rw [Inhabited, System.lfp_iff_step]
  exact (layer_iff (Node.inhabited grammar.Inhabited) hNode).symm

theorem consuming_iff (hNode : grammar.get? handle = some node) :
    grammar.Consuming handle ↔ node.consuming grammar.Inhabited grammar.Consuming := by
  rw [Consuming, System.lfp_iff_step]
  exact (layer_iff (Node.consuming grammar.Inhabited grammar.Consuming) hNode).symm

/-- What every layer of inhabited nodes passes on holds of all inhabited nodes. -/
theorem Inhabited.induction {motive : Handle → Prop}
    (hLayer : ∀ handle node, grammar.get? handle = some node →
      node.inhabited (fun child => grammar.Inhabited child ∧ motive child) → motive handle)
    (hInhabited : grammar.Inhabited handle) : motive handle := by
  refine (grammar.inhabitedStep.lfp_le (a := fun handle _ =>
    grammar.Inhabited handle ∧ motive handle) ?_ handle () hInhabited).2
  rintro handle _ ⟨node, hNode, hPart⟩
  refine ⟨(inhabited_iff hNode).mpr ?_, hLayer handle node hNode hPart⟩
  exact Node.inhabited_mono (fun _ _ => And.left) hPart

/-- What every layer of consuming nodes passes on holds of all consuming nodes. -/
theorem Consuming.induction {motive : Handle → Prop}
    (hLayer : ∀ handle node, grammar.get? handle = some node →
      node.consuming grammar.Inhabited (fun child => grammar.Consuming child ∧ motive child) →
      motive handle)
    (hConsuming : grammar.Consuming handle) : motive handle := by
  refine (grammar.consumingStep.lfp_le (a := fun handle _ =>
    grammar.Consuming handle ∧ motive handle) ?_ handle () hConsuming).2
  rintro handle _ ⟨node, hNode, hPart⟩
  refine ⟨(consuming_iff hNode).mpr ?_, hLayer handle node hNode hPart⟩
  exact Node.consuming_mono (fun _ _ => id) (fun _ _ => And.left) hPart

end Layers

section Classes

/-- The node matches the empty string and nothing else. -/
def NullOnly (grammar : Grammar Λ) (handle : Handle) : Prop :=
  grammar.meaning .language handle [] () ∧ ¬ grammar.Consuming handle

theorem nullable_iff (hNode : grammar.get? handle = some node) :
    grammar.meaning .language handle [] () ↔
      node.nullable fun child => grammar.meaning .language child [] () := by
  rw [← nullable_lfp_iff, System.lfp_iff_step]
  simp only [← nullable_lfp_iff]
  exact (Node.nullable_iff_meaning.trans (layer_iff (fun node => node.meaning
    (fun child string (_ : View.language.Result Λ) =>
      string = [] ∧ (grammar.emptyStep .language).lfp child ()) [] ()) hNode)).symm

theorem NullOnly.inhabited (hNullOnly : grammar.NullOnly handle) :
    grammar.Inhabited handle := by
  obtain ⟨⟨depth, hMatch⟩, -⟩ := hNullOnly
  exact inhabited_of_within hMatch

theorem Consuming.inhabited (hConsuming : grammar.Consuming handle) :
    grammar.Inhabited handle := by
  refine hConsuming.induction fun handle node hNode hPart => (inhabited_iff hNode).mpr ?_
  cases node with
  | empty => exact hPart
  | eps forest => exact trivial
  | token matcher => exact trivial
  | union left right => exact hPart.imp And.right And.right
  | sequence first second =>
      rcases hPart with ⟨hFirst, hSecond⟩ | ⟨hSecond, hFirst⟩
      · exact ⟨hFirst.2, hSecond⟩
      · exact ⟨hFirst, hSecond.2⟩
  | repetition inner => exact trivial
  | reduction inner reducer => exact hPart.2
  | delegate target =>
      cases target with
      | none => exact hPart
      | some target => exact hPart.2

/-- A match is empty or not. -/
theorem Inhabited.nullable_or_consuming (hInhabited : grammar.Inhabited handle) :
    grammar.meaning .language handle [] () ∨ grammar.Consuming handle := by
  refine hInhabited.induction (motive := fun handle =>
    grammar.meaning .language handle [] () ∨ grammar.Consuming handle)
    fun handle node hNode hPart => ?_
  rw [nullable_iff hNode, consuming_iff hNode]
  cases node with
  | empty => exact hPart.elim
  | eps forest => exact Or.inl trivial
  | token matcher => exact Or.inr trivial
  | union left right =>
      rcases hPart with ⟨-, hLeft⟩ | ⟨-, hRight⟩
      · exact hLeft.imp Or.inl Or.inl
      · exact hRight.imp Or.inr Or.inr
  | sequence first second =>
      obtain ⟨⟨hFirst, hFirstMatch⟩, hSecond, hSecondMatch⟩ := hPart
      rcases hFirstMatch with hFirstNull | hFirstConsumes
      · exact hSecondMatch.imp (And.intro hFirstNull) fun h => Or.inr ⟨h, hFirst⟩
      · exact Or.inr (Or.inl ⟨hFirstConsumes, hSecond⟩)
  | repetition inner => exact Or.inl trivial
  | reduction inner reducer => exact hPart.2
  | delegate target =>
      cases target with
      | none => exact hPart.elim
      | some target => exact hPart.2

/-- A node with a match is consuming unless it matches only the empty string. -/
theorem Inhabited.consuming (hInhabited : grammar.Inhabited handle)
    (hMore : ¬ grammar.NullOnly handle) : grammar.Consuming handle := by
  rcases hInhabited.nullable_or_consuming with hNullable | hConsuming
  · by_contra hNot
    exact hMore ⟨hNullable, hNot⟩
  · exact hConsuming

theorem Consuming.not_nullOnly (hConsuming : grammar.Consuming handle) :
    ¬ grammar.NullOnly handle :=
  fun hNullOnly => hNullOnly.2 hConsuming

end Classes

end Grammar

end DerivativeParsing
