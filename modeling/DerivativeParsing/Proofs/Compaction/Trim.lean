import DerivativeParsing.Proofs.Compaction.Condensation

namespace DerivativeParsing
namespace Grammar

/-!
# Compacted graphs are trim

What compaction makes of a node has matches, and matches that are not empty, if the node has
them (`Shapes.inhabited`, `Shapes.consuming`).  Both facts are by induction on why the node
has them, since the compacted graph may be cyclic.

So the parts of a compacted node are of the classes that the rules have seen in the source,
and no reduction stands on another one: every node of a compacted graph is trim
(`Stems.reaches`, `Stems.trim`), unless the graph is a single node without matches
(`Shapes.eq_empty`).
-/

variable {Λ : Lexicon} {grammar : Grammar Λ} {node other result inner : Handle}
  {found image : Node Λ} {reducer : Reducer Λ} {part : Handle → Prop}

section Definitions

/-- A node is what compaction makes of a handle, once no knot is open. -/
def Shapes (grammar : Grammar Λ) : Handle → Node Λ → Prop :=
  grammar.Fits (grammar.Formed grammar fun _ _ => False)

/-- A handle is what compaction makes of another one, once no knot is open. -/
def Shrinks (grammar : Grammar Λ) (node result : Handle) : Prop :=
  ∃ image, grammar.get? result = some image ∧ grammar.Shapes node image

theorem shrinks_iff :
    grammar.Shrinks node result ↔ grammar.Condenses grammar (fun _ _ => False) node result := by
  constructor
  · rintro ⟨image, hImage, hShapes⟩
    exact ⟨image, hImage, Or.inl hShapes⟩
  · rintro ⟨image, hImage, hShapes | ⟨-, _, -, hKnot⟩⟩
    · exact ⟨image, hImage, hShapes⟩
    · exact hKnot.elim

/-- A node that compaction would leave as it is: it has matches, the parts of a union have
matches, every other part has matches that are not empty, and a reduction does not stand on
another one. -/
def Trim (grammar : Grammar Λ) : Node Λ → Prop
  | .empty => False
  | .eps _ => True
  | .token _ => True
  | .union left right =>
      grammar.Inhabited left ∧ grammar.Inhabited right ∧
        (grammar.Consuming left ∨ grammar.Consuming right)
  | .sequence first second => grammar.Consuming first ∧ grammar.Consuming second
  | .repetition inner => grammar.Consuming inner
  | .reduction inner _ => grammar.Consuming inner ∧ grammar.Unreduced inner
  | .delegate none => False
  | .delegate (some target) => grammar.Consuming target

end Definitions

section Parts

theorem Skips.part_of_inhabited (hNode : grammar.get? node = some found)
    (hPart : found.inhabited fun child => grammar.Inhabited child ∧ part child)
    (hSkips : grammar.Skips node other) : part other := by
  cases hSkips with
  | delegate hTarget =>
      obtain rfl := Option.some.inj (hNode.symm.trans hTarget)
      exact hPart.2
  | passed hPasses =>
      cases hPasses with
      | left hUnion hBarren =>
          obtain rfl := Option.some.inj (hNode.symm.trans hUnion)
          rcases hPart with hLeft | hRight
          · exact hLeft.2
          · exact absurd hRight.1 hBarren
      | right hUnion hBarren =>
          obtain rfl := Option.some.inj (hNode.symm.trans hUnion)
          rcases hPart with hLeft | hRight
          · exact absurd hLeft.1 hBarren
          · exact hRight.2

theorem Reduces.part_of_inhabited (hNode : grammar.get? node = some found)
    (hPart : found.inhabited fun child => grammar.Inhabited child ∧ part child)
    (hReduces : grammar.Reduces node inner reducer) : part inner := by
  cases hReduces with
  | reduction hReduction =>
      obtain rfl := Option.some.inj (hNode.symm.trans hReduction)
      exact hPart.2
  | prepend forest hSequence _ =>
      obtain rfl := Option.some.inj (hNode.symm.trans hSequence)
      exact hPart.2.2
  | append forest hSequence _ =>
      obtain rfl := Option.some.inj (hNode.symm.trans hSequence)
      exact hPart.1.2

theorem Skips.part_of_consuming (hNode : grammar.get? node = some found)
    (hPart : found.consuming grammar.Inhabited
      fun child => grammar.Consuming child ∧ part child)
    (hSkips : grammar.Skips node other) : part other := by
  cases hSkips with
  | delegate hTarget =>
      obtain rfl := Option.some.inj (hNode.symm.trans hTarget)
      exact hPart.2
  | passed hPasses =>
      cases hPasses with
      | left hUnion hBarren =>
          obtain rfl := Option.some.inj (hNode.symm.trans hUnion)
          rcases hPart with hLeft | hRight
          · exact hLeft.2
          · exact absurd hRight.1.inhabited hBarren
      | right hUnion hBarren =>
          obtain rfl := Option.some.inj (hNode.symm.trans hUnion)
          rcases hPart with hLeft | hRight
          · exact absurd hLeft.1.inhabited hBarren
          · exact hRight.2

theorem Reduces.part_of_consuming (hNode : grammar.get? node = some found)
    (hPart : found.consuming grammar.Inhabited
      fun child => grammar.Consuming child ∧ part child)
    (hReduces : grammar.Reduces node inner reducer) : part inner := by
  cases hReduces with
  | reduction hReduction =>
      obtain rfl := Option.some.inj (hNode.symm.trans hReduction)
      exact hPart.2
  | prepend forest hSequence hNull =>
      obtain rfl := Option.some.inj (hNode.symm.trans hSequence)
      rcases hPart with ⟨hFirst, -⟩ | ⟨hSecond, -⟩
      · exact absurd hFirst.1 hNull.2
      · exact hSecond.2
  | append forest hSequence hNull =>
      obtain rfl := Option.some.inj (hNode.symm.trans hSequence)
      rcases hPart with ⟨hFirst, -⟩ | ⟨hSecond, -⟩
      · exact hFirst.2
      · exact absurd hSecond.1 hNull.2

end Parts

section Classes

/-- What compaction makes of a node with matches has matches. -/
theorem Shapes.inhabited (hShapes : grammar.Shapes node image)
    (hInhabited : grammar.Inhabited node) : image.inhabited grammar.Inhabited := by
  refine hInhabited.induction (motive := fun node => ∀ image, grammar.Shapes node image →
    image.inhabited grammar.Inhabited) ?_ image hShapes
  rintro node found hNode hPart image ⟨last, hLeads, hFormed⟩
  have hChild {child child' : Handle}
      (hMotive : ∀ image, grammar.Shapes child image → image.inhabited grammar.Inhabited)
      (hCondenses : grammar.Condenses grammar (fun _ _ => False) child child') :
      grammar.Inhabited child' := by
    obtain ⟨image, hImage, hShapes⟩ := shrinks_iff.mpr hCondenses
    exact (inhabited_iff hImage).mpr (hMotive image hShapes)
  rcases hLeads.cases_head with rfl | ⟨next, hSkips, hLeads⟩
  · cases formed_iff.mp hFormed with
    | settled hSettles =>
        cases hSettles with
        | barren hBarren =>
            exact absurd ((inhabited_iff hNode).mpr (Node.inhabited_mono (fun _ _ => And.left)
              hPart)) hBarren
        | nullOnly forest _ => exact trivial
        | token _ => exact trivial
    | union _ hUnion _ _ hLeft hRight =>
        obtain rfl := Option.some.inj (hNode.symm.trans hUnion)
        exact hPart.imp (fun h => hChild h.2 hLeft) fun h => hChild h.2 hRight
    | sequence _ hSequence _ _ hFirst hSecond =>
        obtain rfl := Option.some.inj (hNode.symm.trans hSequence)
        exact ⟨hChild hPart.1.2 hFirst, hChild hPart.2.2 hSecond⟩
    | repetition _ _ _ => exact trivial
    | reduced _ hReduces hInner _ => exact hChild (hReduces.part_of_inhabited hNode hPart) hInner
    | @fused inner innermost _ _ _ hReduces hInner =>
        show grammar.Inhabited innermost
        exact (hReduces.part_of_inhabited hNode hPart) _ hInner
    | knot _ hDelegate hTarget =>
        obtain rfl := Option.some.inj (hNode.symm.trans hDelegate)
        exact hChild hPart.2 hTarget
  · exact hSkips.part_of_inhabited hNode hPart image ⟨last, hLeads, hFormed⟩

theorem Shrinks.inhabited (hShrinks : grammar.Shrinks node result)
    (hInhabited : grammar.Inhabited node) : grammar.Inhabited result := by
  obtain ⟨image, hImage, hShapes⟩ := hShrinks
  exact (inhabited_iff hImage).mpr (hShapes.inhabited hInhabited)

/-- What compaction makes of a consuming node is consuming. -/
theorem Shapes.consuming (hShapes : grammar.Shapes node image)
    (hConsuming : grammar.Consuming node) :
    image.consuming grammar.Inhabited grammar.Consuming := by
  refine hConsuming.induction (motive := fun node => ∀ image, grammar.Shapes node image →
    image.consuming grammar.Inhabited grammar.Consuming) ?_ image hShapes
  rintro node found hNode hPart image ⟨last, hLeads, hFormed⟩
  have hSelf : grammar.Consuming node :=
    (consuming_iff hNode).mpr (Node.consuming_mono (fun _ _ => id) (fun _ _ => And.left) hPart)
  have hChild {child child' : Handle}
      (hMotive : ∀ image, grammar.Shapes child image →
        image.consuming grammar.Inhabited grammar.Consuming)
      (hCondenses : grammar.Condenses grammar (fun _ _ => False) child child') :
      grammar.Consuming child' := by
    obtain ⟨image, hImage, hShapes⟩ := shrinks_iff.mpr hCondenses
    exact (consuming_iff hImage).mpr (hMotive image hShapes)
  have hOperand {child child' : Handle} (hInhabited : grammar.Inhabited child)
      (hCondenses : grammar.Condenses grammar (fun _ _ => False) child child') :
      grammar.Inhabited child' := (shrinks_iff.mpr hCondenses).inhabited hInhabited
  rcases hLeads.cases_head with rfl | ⟨next, hSkips, hLeads⟩
  · cases formed_iff.mp hFormed with
    | settled hSettles =>
        cases hSettles with
        | barren hBarren => exact absurd hSelf.inhabited hBarren
        | nullOnly forest hNull => exact absurd hSelf hNull.2
        | token _ => exact trivial
    | union _ hUnion _ _ hLeft hRight =>
        obtain rfl := Option.some.inj (hNode.symm.trans hUnion)
        exact hPart.imp (fun h => hChild h.2 hLeft) fun h => hChild h.2 hRight
    | sequence _ hSequence _ _ hFirst hSecond =>
        obtain rfl := Option.some.inj (hNode.symm.trans hSequence)
        rcases hPart with ⟨hConsumes, hInhabited⟩ | ⟨hConsumes, hInhabited⟩
        · exact Or.inl ⟨hChild hConsumes.2 hFirst, hOperand hInhabited hSecond⟩
        · exact Or.inr ⟨hChild hConsumes.2 hSecond, hOperand hInhabited hFirst⟩
    | repetition _ hRepetition hInner =>
        obtain rfl := Option.some.inj (hNode.symm.trans hRepetition)
        exact hChild hPart.2 hInner
    | reduced _ hReduces hInner _ => exact hChild (hReduces.part_of_consuming hNode hPart) hInner
    | @fused inner innermost _ _ _ hReduces hInner =>
        show grammar.Consuming innermost
        exact (hReduces.part_of_consuming hNode hPart) _ hInner
    | knot _ hDelegate hTarget =>
        obtain rfl := Option.some.inj (hNode.symm.trans hDelegate)
        exact hChild hPart.2 hTarget
  · exact hSkips.part_of_consuming hNode hPart image ⟨last, hLeads, hFormed⟩

theorem Shrinks.consuming (hShrinks : grammar.Shrinks node result)
    (hConsuming : grammar.Consuming node) : grammar.Consuming result := by
  obtain ⟨image, hImage, hShapes⟩ := hShrinks
  exact (consuming_iff hImage).mpr (hShapes.consuming hConsuming)

end Classes

section Trimmed

theorem Skips.inhabited_iff (hSkips : grammar.Skips node other) :
    grammar.Inhabited node ↔ grammar.Inhabited other := by
  cases hSkips with
  | delegate hTarget => exact Grammar.inhabited_iff hTarget
  | passed hPasses =>
      cases hPasses with
      | left hUnion hBarren =>
          exact (Grammar.inhabited_iff hUnion).trans (or_iff_left hBarren)
      | right hUnion hBarren =>
          exact (Grammar.inhabited_iff hUnion).trans (or_iff_right hBarren)

theorem Leads.inhabited_iff (hLeads : grammar.Leads node other) :
    grammar.Inhabited node ↔ grammar.Inhabited other := by
  induction hLeads with
  | refl => exact Iff.rfl
  | tail _ hSkips ih => exact ih.trans hSkips.inhabited_iff

/-- What compaction makes of a node without matches is the empty node. -/
theorem Shapes.eq_empty (hShapes : grammar.Shapes node image)
    (hBarren : ¬ grammar.Inhabited node) : image = .empty := by
  obtain ⟨last, hLeads, hFormed⟩ := hShapes
  rw [hLeads.inhabited_iff] at hBarren
  cases formed_iff.mp hFormed with
  | settled hSettles =>
      cases hSettles with
      | barren _ => rfl
      | nullOnly forest hNull => exact absurd hNull.inhabited hBarren
      | token hNode => exact absurd ((Grammar.inhabited_iff hNode).mpr trivial) hBarren
  | union hConsuming _ _ _ _ _ => exact absurd hConsuming.inhabited hBarren
  | sequence hConsuming _ _ _ _ _ => exact absurd hConsuming.inhabited hBarren
  | repetition hConsuming _ _ => exact absurd hConsuming.inhabited hBarren
  | reduced hConsuming _ _ _ => exact absurd hConsuming.inhabited hBarren
  | fused hConsuming _ _ => exact absurd hConsuming.inhabited hBarren
  | knot hConsuming _ _ => exact absurd hConsuming.inhabited hBarren

/-- A part of a compacted node is what compaction makes of a node with matches. -/
def Stems (grammar : Grammar Λ) (result : Handle) : Prop :=
  ∃ node, grammar.Inhabited node ∧ grammar.Shrinks node result

theorem Shrinks.stems (hShrinks : grammar.Shrinks node result)
    (hConsuming : grammar.Consuming node) :
    grammar.Consuming result ∧ grammar.Stems result :=
  ⟨hShrinks.consuming hConsuming, node, hConsuming.inhabited, hShrinks⟩

/-- A reduction was built on a node that compaction has made, or by folding another one into
it. -/
theorem Shapes.reduction_cases (hShapes : grammar.Shapes node (.reduction inner reducer)) :
    (grammar.Consuming inner ∧ grammar.Unreduced inner ∧ grammar.Stems inner) ∨
      ∃ below outer innerReducer, reducer = .compose outer innerReducer ∧
        grammar.Shapes below (.reduction inner innerReducer) := by
  obtain ⟨last, -, hFormed⟩ := hShapes
  cases formed_iff.mp hFormed with
  | settled hSettles => cases hSettles
  | reduced hConsuming hReduces hInner hUnreduced =>
      obtain ⟨hConsuming', hStems⟩ :=
        (shrinks_iff.mpr hInner).stems (hReduces.consuming hConsuming)
      exact Or.inl ⟨hConsuming', hUnreduced, hStems⟩
  | fused _ _ hInner => exact Or.inr ⟨_, _, _, rfl, hInner⟩

/-- A reduction stands on a node that compaction has made, which is not a reduction. -/
theorem Shapes.reduction (hShapes : grammar.Shapes node (.reduction inner reducer)) :
    grammar.Consuming inner ∧ grammar.Unreduced inner ∧ grammar.Stems inner := by
  -- What was folded in has a smaller reducer.
  induction reducer generalizing node with
  | compose outer innerReducer _ ih =>
      rcases hShapes.reduction_cases with hBuilt | ⟨below, _, _, hReducer, hBelow⟩
      · exact hBuilt
      · cases hReducer
        exact ih hBelow
  | map name => exact hShapes.reduction_cases.resolve_right (by simp)
  | prepend forest => exact hShapes.reduction_cases.resolve_right (by simp)
  | append forest => exact hShapes.reduction_cases.resolve_right (by simp)
  | cons => exact hShapes.reduction_cases.resolve_right (by simp)

/-- What compaction makes of a node with matches is trim, and its parts are made by compaction
as well. -/
theorem Shapes.trim (hShapes : grammar.Shapes node image) (hInhabited : grammar.Inhabited node) :
    grammar.Trim image ∧ ∀ child ∈ image.children, grammar.Stems child := by
  have hWhole := hShapes
  obtain ⟨last, hLeads, hFormed⟩ := hShapes
  rw [hLeads.inhabited_iff] at hInhabited
  cases formed_iff.mp hFormed with
  | settled hSettles =>
      cases hSettles with
      | barren hBarren => exact absurd hInhabited hBarren
      | nullOnly forest _ => exact ⟨trivial, nofun⟩
      | token _ => exact ⟨trivial, nofun⟩
  | union hConsuming hUnion hLeft hRight hLeft' hRight' =>
      have hLeft' := shrinks_iff.mpr hLeft'
      have hRight' := shrinks_iff.mpr hRight'
      refine ⟨⟨hLeft'.inhabited hLeft, hRight'.inhabited hRight, ?_⟩, fun child hChild => ?_⟩
      · exact ((consuming_iff hUnion).mp hConsuming).imp hLeft'.consuming hRight'.consuming
      · rcases Node.mem_children_union.mp hChild with rfl | rfl
        · exact ⟨_, hLeft, hLeft'⟩
        · exact ⟨_, hRight, hRight'⟩
  | sequence _ _ hFirst hSecond hFirst' hSecond' =>
      obtain ⟨hFirst, hFirstStems⟩ := (shrinks_iff.mpr hFirst').stems hFirst
      obtain ⟨hSecond, hSecondStems⟩ := (shrinks_iff.mpr hSecond').stems hSecond
      refine ⟨⟨hFirst, hSecond⟩, fun child hChild => ?_⟩
      rcases Node.mem_children_sequence.mp hChild with rfl | rfl
      · exact hFirstStems
      · exact hSecondStems
  | repetition hConsuming hRepetition hInner =>
      obtain ⟨hInner, hStems⟩ :=
        (shrinks_iff.mpr hInner).stems ((consuming_iff hRepetition).mp hConsuming)
      exact ⟨hInner, fun child hChild => List.mem_singleton.mp hChild ▸ hStems⟩
  | reduced _ _ _ _ =>
      obtain ⟨hConsuming, hUnreduced, hStems⟩ := hWhole.reduction
      exact ⟨⟨hConsuming, hUnreduced⟩, fun child hChild => List.mem_singleton.mp hChild ▸ hStems⟩
  | fused _ _ _ =>
      obtain ⟨hConsuming, hUnreduced, hStems⟩ := hWhole.reduction
      exact ⟨⟨hConsuming, hUnreduced⟩, fun child hChild => List.mem_singleton.mp hChild ▸ hStems⟩
  | knot hConsuming hDelegate hTarget =>
      obtain ⟨hTarget, hStems⟩ :=
        (shrinks_iff.mpr hTarget).stems ((consuming_iff hDelegate).mp hConsuming)
      exact ⟨hTarget, fun child hChild => List.mem_singleton.mp hChild ▸ hStems⟩

/-- Everything that a compacted node reaches was made by compaction. -/
theorem Stems.reaches (hStems : grammar.Stems result) (hReaches : grammar.Reaches result other) :
    grammar.Stems other := by
  induction hReaches with
  | refl => exact hStems
  | tail _ hChild ih =>
      obtain ⟨node, hInhabited, image, hImage, hShapes⟩ := ih
      exact (hShapes.trim hInhabited).2 _ ((mem_successors hImage).mp hChild)

/-- Every node of a compacted graph has matches and is trim. -/
theorem Stems.trim (hStems : grammar.Stems result) :
    ∃ image, grammar.get? result = some image ∧ grammar.Inhabited result ∧
      grammar.Trim image := by
  obtain ⟨node, hInhabited, image, hImage, hShapes⟩ := hStems
  exact ⟨image, hImage, (Grammar.inhabited_iff hImage).mpr (hShapes.inhabited hInhabited),
    (hShapes.trim hInhabited).1⟩

/-- A trim node is consuming unless it is an `eps` node. -/
theorem Trim.consuming (hTrim : grammar.Trim image) (hImage : grammar.get? result = some image)
    (hMore : ∀ forest, image ≠ .eps forest) : grammar.Consuming result := by
  rw [consuming_iff hImage]
  cases image with
  | empty => exact hTrim.elim
  | eps forest => exact absurd rfl (hMore forest)
  | token matcher => exact trivial
  | union left right => exact hTrim.2.2
  | sequence first second => exact Or.inl ⟨hTrim.1, hTrim.2.inhabited⟩
  | repetition inner => exact hTrim
  | reduction inner reducer => exact hTrim.1
  | delegate target =>
      cases target with
      | none => exact hTrim.elim
      | some target => exact hTrim

/-- The parts of a trim node other than a union are consuming. -/
theorem Trim.consuming_child (hTrim : grammar.Trim image)
    (hOther : ∀ left right, image ≠ .union left right) {child : Handle}
    (hChild : child ∈ image.children) : grammar.Consuming child := by
  cases image with
  | empty => cases hChild
  | eps forest => cases hChild
  | token matcher => cases hChild
  | union left right => exact absurd rfl (hOther left right)
  | sequence first second =>
      rcases Node.mem_children_sequence.mp hChild with rfl | rfl
      · exact hTrim.1
      · exact hTrim.2
  | repetition inner => exact List.mem_singleton.mp hChild ▸ hTrim
  | reduction inner reducer => exact List.mem_singleton.mp hChild ▸ hTrim.1
  | delegate target =>
      cases target with
      | none => cases hChild
      | some target => exact List.mem_singleton.mp hChild ▸ hTrim

end Trimmed

end Grammar

end DerivativeParsing
