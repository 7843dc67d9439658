import DerivativeParsing.Proofs.Compaction.Draft

namespace DerivativeParsing
namespace Grammar

/-!
# What a compacted node looks like

A compacted graph is compared with its source node by node.  Compaction skips delegates and
unions with one operand left, finitely many at a time (`Leads`), and forms a node for what it
comes to (`Forms`).  The graphs may be cyclic, so a node is formed for another one if the two
are in some relation that `Forms` goes along with: the greatest one (`Formed`).

A handle condenses a node of the source if the node it refers to is formed for it, or if it is
a placeholder that was opened for it and not filled yet (`Condenses`).  Reductions that were
folded into others may be freed later, which is why `Formed` speaks of nodes and not of
handles.

Every compaction gives a handle that condenses its node, and keeps what it remembers
condensed (`Draft.Compacts.condenses`).
-/

variable {Λ : Lexicon} {source source' target target' : Grammar Λ}
  {knots knots' : Handle → Handle → Prop} {formed formed' : Handle → Node Λ → Prop}
  {node other result : Handle} {image : Node Λ}

section Agreement

theorem Agrees.nullOnly (hAgrees : source.Agrees source' node)
    (hNullOnly : source.NullOnly node) : source'.NullOnly node := by
  refine ⟨?_, fun hConsuming => hNullOnly.2 (hAgrees.symm.consuming hConsuming)⟩
  rw [hAgrees.meaning_eq]
  exact hNullOnly.1

theorem Agrees.settles (hAgrees : source.Agrees source' node)
    (hSettles : source.Settles node image) : source'.Settles node image := by
  cases hSettles with
  | barren hBarren => exact .barren fun h => hBarren (hAgrees.symm.inhabited h)
  | nullOnly forest hNullOnly => exact .nullOnly forest (hAgrees.nullOnly hNullOnly)
  | token hNode => exact .token ((hAgrees node (Reaches.refl node)).trans hNode)

/-- The children of a node, about which the sources agree as well. -/
theorem Agrees.of_union {left right : Handle} (hAgrees : source.Agrees source' node)
    (hNode : source.get? node = some (.union left right)) :
    source.Agrees source' left ∧ source.Agrees source' right :=
  ⟨hAgrees.mono (reaches_child hNode (Node.mem_children_union.mpr (Or.inl rfl))),
    hAgrees.mono (reaches_child hNode (Node.mem_children_union.mpr (Or.inr rfl)))⟩

theorem Agrees.of_sequence {first second : Handle} (hAgrees : source.Agrees source' node)
    (hNode : source.get? node = some (.sequence first second)) :
    source.Agrees source' first ∧ source.Agrees source' second :=
  ⟨hAgrees.mono (reaches_child hNode (Node.mem_children_sequence.mpr (Or.inl rfl))),
    hAgrees.mono (reaches_child hNode (Node.mem_children_sequence.mpr (Or.inr rfl)))⟩

theorem Agrees.passes (hAgrees : source.Agrees source' node)
    (hPasses : source.Passes node other) : source'.Passes node other := by
  have hSame := hAgrees node (Reaches.refl node)
  cases hPasses with
  | left hNode hBarren =>
      exact .left (hSame.trans hNode) fun h =>
        hBarren ((hAgrees.of_union hNode).2.symm.inhabited h)
  | right hNode hBarren =>
      exact .right (hSame.trans hNode) fun h =>
        hBarren ((hAgrees.of_union hNode).1.symm.inhabited h)

theorem Agrees.reduces {inner : Handle} {reducer : Reducer Λ}
    (hAgrees : source.Agrees source' node) (hReduces : source.Reduces node inner reducer) :
    source'.Reduces node inner reducer := by
  have hSame := hAgrees node (Reaches.refl node)
  cases hReduces with
  | reduction hNode => exact .reduction (hSame.trans hNode)
  | prepend forest hNode hNullOnly =>
      exact .prepend forest (hSame.trans hNode) ((hAgrees.of_sequence hNode).1.nullOnly hNullOnly)
  | append forest hNode hNullOnly =>
      exact .append forest (hSame.trans hNode) ((hAgrees.of_sequence hNode).2.nullOnly hNullOnly)

end Agreement

section Definitions

/-- One node that compaction forms nothing for: a delegate, or a union with one operand
left. -/
inductive Skips (source : Grammar Λ) (node : Handle) : Handle → Prop
  | delegate {target : Handle} : source.get? node = some (.delegate (some target)) →
      Skips source node target
  | passed {kept : Handle} : source.Passes node kept → Skips source node kept

/-- Compaction skips some nodes and comes to another one. -/
def Leads (source : Grammar Λ) : Handle → Handle → Prop :=
  Relation.ReflTransGen source.Skips

/-- A node is formed for what the source leads to. -/
def Fits (source : Grammar Λ) (formed : Handle → Node Λ → Prop) (node : Handle)
    (image : Node Λ) : Prop :=
  ∃ last, source.Leads node last ∧ formed last image

/-- A handle refers to a node that fits, or to an open placeholder for what the source leads
to. -/
def Covers (source target : Grammar Λ) (knots : Handle → Handle → Prop)
    (formed : Handle → Node Λ → Prop) (node result : Handle) : Prop :=
  ∃ image, target.get? result = some image ∧
    (source.Fits formed node image ∨
      image = .delegate none ∧ ∃ last, source.Leads node last ∧ knots last result)

/-- A handle does not refer to a reduction. -/
def Unreduced (target : Grammar Λ) (result : Handle) : Prop :=
  ∀ inner reducer, target.get? result ≠ some (.reduction inner reducer)

/-- What compaction forms for a node that it does not skip, given what stands for its parts. -/
inductive Forms (source target : Grammar Λ) (knots : Handle → Handle → Prop)
    (formed : Handle → Node Λ → Prop) (node : Handle) : Node Λ → Prop
  | settled {leaf : Node Λ} : source.Settles node leaf →
      Forms source target knots formed node leaf
  | union {left right left' right' : Handle} : source.Consuming node →
      source.get? node = some (.union left right) →
      source.Inhabited left → source.Inhabited right →
      source.Covers target knots formed left left' →
      source.Covers target knots formed right right' →
      Forms source target knots formed node (.union left' right')
  | sequence {first second first' second' : Handle} : source.Consuming node →
      source.get? node = some (.sequence first second) →
      source.Consuming first → source.Consuming second →
      source.Covers target knots formed first first' →
      source.Covers target knots formed second second' →
      Forms source target knots formed node (.sequence first' second')
  | repetition {inner inner' : Handle} : source.Consuming node →
      source.get? node = some (.repetition inner) →
      source.Covers target knots formed inner inner' →
      Forms source target knots formed node (.repetition inner')
  | reduced {inner inner' : Handle} {reducer : Reducer Λ} : source.Consuming node →
      source.Reduces node inner reducer → source.Covers target knots formed inner inner' →
      target.Unreduced inner' →
      Forms source target knots formed node (.reduction inner' reducer)
  | fused {inner innermost : Handle} {reducer innerReducer : Reducer Λ} :
      source.Consuming node → source.Reduces node inner reducer →
      source.Fits formed inner (.reduction innermost innerReducer) →
      Forms source target knots formed node
        (.reduction innermost (.compose reducer innerReducer))
  | knot {part part' : Handle} : source.Consuming node →
      source.get? node = some (.delegate (some part)) →
      source.Covers target knots formed part part' →
      Forms source target knots formed node (.delegate (some part'))

theorem Fits.mono (hFormed : formed ≤ formed') (hFits : source.Fits formed node image) :
    source.Fits formed' node image := by
  obtain ⟨last, hLeads, hLast⟩ := hFits
  exact ⟨last, hLeads, hFormed last image hLast⟩

theorem Covers.mono (hFormed : formed ≤ formed')
    (hCovers : source.Covers target knots formed node result) :
    source.Covers target knots formed' node result := by
  obtain ⟨image, hImage, hStands⟩ := hCovers
  exact ⟨image, hImage, hStands.imp_left (Fits.mono hFormed)⟩

theorem Skips.mem_successors (hSkips : source.Skips node other) :
    other ∈ source.successors node := by
  cases hSkips with
  | delegate hNode => simp [successors, hNode, Node.children]
  | passed hPasses => exact hPasses.plain.mem_successors

/-- A layer is formed in other grammars too, if the sources agree about the node, and what
stands for its parts goes on doing so. -/
theorem Forms.imp (hAgrees : source.Agrees source' node)
    (hCovers : ∀ child ∈ source.successors node, ∀ child' ∈ image.children,
      source.Covers target knots formed child child' →
      source'.Covers target' knots' formed' child child' ∧
        (target.Unreduced child' → target'.Unreduced child'))
    (hFits : ∀ child ∈ source.successors node, ∀ innermost ∈ image.children,
      ∀ reducer, source.Fits formed child (.reduction innermost reducer) →
      source'.Fits formed' child (.reduction innermost reducer))
    (hForms : source.Forms target knots formed node image) :
    source'.Forms target' knots' formed' node image := by
  have hSame := hAgrees node (Reaches.refl node)
  have hChild {child : Handle} (hMem : child ∈ source.successors node) :
      source.Agrees source' child := hAgrees.mono (Relation.ReflTransGen.single hMem)
  cases hForms with
  | settled hSettles => exact .settled (hAgrees.settles hSettles)
  | @union left right left' right' hConsuming hNode hLeft hRight hLeft' hRight' =>
      have hMem {child : Handle} (h : child = left ∨ child = right) :
          child ∈ source.successors node := by
        rwa [mem_successors hNode, Node.mem_children_union]
      have hMem' {child : Handle} (h : child = left' ∨ child = right') :
          child ∈ (Node.union left' right' : Node Λ).children := Node.mem_children_union.mpr h
      exact .union (hAgrees.consuming hConsuming) (hSame.trans hNode)
        ((hChild (hMem (Or.inl rfl))).inhabited hLeft)
        ((hChild (hMem (Or.inr rfl))).inhabited hRight)
        (hCovers _ (hMem (Or.inl rfl)) _ (hMem' (Or.inl rfl)) hLeft').1
        (hCovers _ (hMem (Or.inr rfl)) _ (hMem' (Or.inr rfl)) hRight').1
  | @sequence first second first' second' hConsuming hNode hFirst hSecond hFirst' hSecond' =>
      have hMem {child : Handle} (h : child = first ∨ child = second) :
          child ∈ source.successors node := by
        rwa [mem_successors hNode, Node.mem_children_sequence]
      have hMem' {child : Handle} (h : child = first' ∨ child = second') :
          child ∈ (Node.sequence first' second' : Node Λ).children :=
        Node.mem_children_sequence.mpr h
      exact .sequence (hAgrees.consuming hConsuming) (hSame.trans hNode)
        ((hChild (hMem (Or.inl rfl))).consuming hFirst)
        ((hChild (hMem (Or.inr rfl))).consuming hSecond)
        (hCovers _ (hMem (Or.inl rfl)) _ (hMem' (Or.inl rfl)) hFirst').1
        (hCovers _ (hMem (Or.inr rfl)) _ (hMem' (Or.inr rfl)) hSecond').1
  | @repetition inner inner' hConsuming hNode hInner =>
      have hMem : inner ∈ source.successors node := by simp [mem_successors hNode, Node.children]
      exact .repetition (hAgrees.consuming hConsuming) (hSame.trans hNode)
        (hCovers _ hMem _ (List.mem_singleton_self _) hInner).1
  | @reduced inner inner' reducer hConsuming hReduces hInner hUnreduced =>
      obtain ⟨hInner, hStill⟩ :=
        hCovers _ hReduces.plain.mem_successors _ (List.mem_singleton_self _) hInner
      exact .reduced (hAgrees.consuming hConsuming) (hAgrees.reduces hReduces) hInner
        (hStill hUnreduced)
  | fused hConsuming hReduces hInner =>
      exact .fused (hAgrees.consuming hConsuming) (hAgrees.reduces hReduces)
        (hFits _ hReduces.plain.mem_successors _ (List.mem_singleton_self _) _ hInner)
  | @knot part part' hConsuming hNode hPart =>
      have hMem : part ∈ source.successors node := by simp [mem_successors hNode, Node.children]
      exact .knot (hAgrees.consuming hConsuming) (hSame.trans hNode)
        (hCovers _ hMem _ (List.mem_singleton_self _) hPart).1

/-- What is formed for nodes, one layer at a time. -/
def formStep (source target : Grammar Λ) (knots : Handle → Handle → Prop) :
    (Handle → Node Λ → Prop) →o (Handle → Node Λ → Prop) where
  toFun formed := source.Forms target knots formed
  monotone' _ _ hFormed _ _ hForms :=
    hForms.imp (fun _ _ => rfl) (fun _ _ _ _ hCovers => ⟨hCovers.mono hFormed, id⟩)
      fun _ _ _ _ _ hFits => hFits.mono hFormed

/-- A node is formed for a node of the source. -/
def Formed (source target : Grammar Λ) (knots : Handle → Handle → Prop) :
    Handle → Node Λ → Prop :=
  (source.formStep target knots).gfp

/-- A handle stands for a node of the source once that is compacted. -/
def Condenses (source target : Grammar Λ) (knots : Handle → Handle → Prop)
    (node result : Handle) : Prop :=
  source.Covers target knots (source.Formed target knots) node result

theorem formed_iff :
    source.Formed target knots node image ↔
      source.Forms target knots (source.Formed target knots) node image := by
  have hFixed := (source.formStep target knots).map_gfp
  exact iff_of_eq (congrFun (congrFun hFixed.symm node) image)

/-- What goes along with the layers is formed. -/
theorem formed_of_forms (hForms : ∀ node image, formed node image →
      source.Forms target knots formed node image)
    (hFormed : formed node image) : source.Formed target knots node image :=
  (source.formStep target knots).le_gfp hForms node image hFormed

end Definitions

section Layers

/-- What stands for a node stands for those that lead to it. -/
theorem Covers.skip (hSkips : source.Skips node other)
    (hCovers : source.Covers target knots formed other result) :
    source.Covers target knots formed node result := by
  obtain ⟨image, hImage, ⟨last, hLeads, hFormed⟩ | ⟨hOpen, last, hLeads, hKnot⟩⟩ := hCovers
  · exact ⟨image, hImage, Or.inl ⟨last, hLeads.head hSkips, hFormed⟩⟩
  · exact ⟨image, hImage, Or.inr ⟨hOpen, last, hLeads.head hSkips, hKnot⟩⟩

theorem Covers.of_formed (hResult : target.get? result = some image)
    (hFormed : formed node image) : source.Covers target knots formed node result :=
  ⟨image, hResult, Or.inl ⟨node, Relation.ReflTransGen.refl, hFormed⟩⟩

/-- An open placeholder is formed for no node. -/
theorem Formed.ne_open (hFormed : source.Formed target knots node image) :
    image ≠ .delegate none := by
  rintro rfl
  cases formed_iff.mp hFormed with
  | settled hSettles => cases hSettles

end Layers

section Change

theorem Agrees.skips (hAgrees : source.Agrees source' node)
    (hSkips : source.Skips node other) : source'.Skips node other := by
  cases hSkips with
  | delegate hNode => exact .delegate ((hAgrees node (Reaches.refl node)).trans hNode)
  | passed hPasses => exact .passed (hAgrees.passes hPasses)

/-- The nodes that are compacted stay as they are in another source, and so do the nodes that
were formed for them, open placeholders included. -/
structure Conserves (source source' target target' : Grammar Λ)
    (knots : Handle → Handle → Prop) (alive kept : Handle → Prop) : Prop where
  agrees : ∀ node, alive node → source.Agrees source' node
  alive : ∀ node, alive node → ∀ child ∈ source.successors node, alive child
  keeps : ∀ result image, kept result → target.get? result = some image →
    (image = .delegate none → ∃ node, knots node result) → target'.get? result = some image
  kept : ∀ result, kept result → ∀ child ∈ target.successors result, kept child

/-- A source that grows leaves its valid nodes as they are. -/
theorem conserves_of_grows (hGrows : source.Grows source')
    (hKeeps : ∀ result image, target.get? result = some image →
      (image = .delegate none → ∃ node, knots node result) → target'.get? result = some image) :
    Conserves source source' target target' knots source.Valid fun _ => True where
  agrees _ hNode := hNode.agrees hGrows
  alive _ hNode _ hChild := hNode.mono (Relation.ReflTransGen.single hChild)
  keeps result image _ := hKeeps result image
  kept _ _ _ _ := trivial

variable {alive kept : Handle → Prop}
  (hConserves : Conserves source source' target target' knots alive kept)

include hConserves

theorem Conserves.leads (hNode : alive node) (hLeads : source.Leads node other) :
    alive other ∧ source'.Leads node other := by
  induction hLeads with
  | refl => exact ⟨hNode, Relation.ReflTransGen.refl⟩
  | tail _ hSkips ih =>
      exact ⟨hConserves.alive _ ih.1 _ hSkips.mem_successors,
        ih.2.tail ((hConserves.agrees _ ih.1).skips hSkips)⟩

/-- What stands for a node that stays does so in the other grammars, if what is formed there
includes what was formed here. -/
theorem Conserves.covers (hNode : alive node) (hResult : kept result)
    (hFormed : ∀ node image, alive node → (∀ child ∈ image.children, kept child) →
      source.Formed target knots node image → formed node image)
    (hCovers : source.Condenses target knots node result) :
    source'.Covers target' knots formed node result ∧
      (target.Unreduced result → target'.Unreduced result) := by
  obtain ⟨image, hImage, hStands⟩ := hCovers
  have hChildren (child : Handle) (hChild : child ∈ image.children) : kept child :=
    hConserves.kept result hResult child ((mem_successors hImage).mpr hChild)
  have hOpen (hUnset : image = .delegate none) : ∃ node, knots node result := by
    rcases hStands with ⟨last, -, hLast⟩ | ⟨-, last, -, hKnot⟩
    · exact absurd hUnset hLast.ne_open
    · exact ⟨last, hKnot⟩
  have hImage' := hConserves.keeps result image hResult hImage hOpen
  constructor
  · refine ⟨image, hImage', ?_⟩
    rcases hStands with ⟨last, hLeads, hLast⟩ | ⟨hUnset, last, hLeads, hKnot⟩
    · obtain ⟨hAlive, hLeads⟩ := hConserves.leads hNode hLeads
      exact Or.inl ⟨last, hLeads, hFormed last image hAlive hChildren hLast⟩
    · exact Or.inr ⟨hUnset, last, (hConserves.leads hNode hLeads).2, hKnot⟩
  · intro hUnreduced inner reducer hReduction
    exact hUnreduced inner reducer (hImage.trans (hImage'.symm.trans hReduction))

theorem Conserves.formed_image (hNode : alive node) (hImage : ∀ child ∈ image.children, kept child)
    (hFormed : source.Formed target knots node image) :
    source'.Formed target' knots node image := by
  -- The pairs that stay are closed under the layers in the other grammars.
  let stays : Handle → Node Λ → Prop := fun node image => alive node ∧
    (∀ child ∈ image.children, kept child) ∧ source.Formed target knots node image
  have hStays : stays node image := ⟨hNode, hImage, hFormed⟩
  refine formed_of_forms ?_ hStays
  rintro node image ⟨hNode, hImage, hFormed⟩
  have hAlive := hConserves.alive node hNode
  refine (formed_iff.mp hFormed).imp (hConserves.agrees node hNode) ?_ ?_
  · intro child hChild child' hChild' hCovers
    exact hConserves.covers (hAlive child hChild) (hImage child' hChild')
      (fun _ _ hNode hImage hFormed => ⟨hNode, hImage, hFormed⟩) hCovers
  · rintro child hChild innermost hInnermost reducer ⟨last, hLeads, hLast⟩
    obtain ⟨hLastAlive, hLeads⟩ := hConserves.leads (hAlive child hChild) hLeads
    refine ⟨last, hLeads, hLastAlive, fun other hOther => ?_, hLast⟩
    rw [List.mem_singleton.mp hOther]
    exact hImage innermost hInnermost

theorem Conserves.condenses (hNode : alive node) (hResult : kept result)
    (hCondenses : source.Condenses target knots node result) :
    source'.Condenses target' knots node result :=
  (hConserves.covers hNode hResult
    (fun _ _ hNode hImage hFormed => hConserves.formed_image hNode hImage hFormed) hCondenses).1

end Change

section Building

/-- Building other nodes leaves alone what was built before. -/
theorem Condenses.keeps (hKeeps : target.Keeps target')
    (hCondenses : source.Condenses target knots node result) :
    source.Condenses target' knots node result := by
  have hConserves : Conserves source source target target' knots (fun _ => True)
      (fun _ => True) :=
    ⟨fun _ _ _ _ => rfl, fun _ _ _ _ => trivial, fun _ _ _ hImage _ => hKeeps.get? hImage,
      fun _ _ _ _ => trivial⟩
  exact hConserves.condenses trivial trivial hCondenses

/-- A knot more to be open changes nothing. -/
theorem Condenses.open (hKnots : ∀ node result, knots node result → knots' node result)
    (hCondenses : source.Condenses target knots node result) :
    source.Condenses target knots' node result := by
  have hCovers {formed : Handle → Node Λ → Prop} {node result : Handle}
      (hCovers : source.Covers target knots formed node result) :
      source.Covers target knots' formed node result := by
    obtain ⟨image, hImage, hFits | ⟨hUnset, last, hLeads, hKnot⟩⟩ := hCovers
    · exact ⟨image, hImage, Or.inl hFits⟩
    · exact ⟨image, hImage, Or.inr ⟨hUnset, last, hLeads, hKnots _ _ hKnot⟩⟩
  refine (hCovers hCondenses).mono fun node image hFormed => ?_
  refine formed_of_forms (fun node image hFormed => ?_) hFormed
  exact (formed_iff.mp hFormed).imp (fun _ _ => rfl)
    (fun _ _ _ _ h => ⟨hCovers h, id⟩) fun _ _ _ _ _ h => h

/-- A reduction is formed whether or not it is folded into the node below it. -/
theorem formed_fused {inner inner' : Handle} {reducer : Reducer Λ}
    (hKeeps : target.Keeps target') (hConsuming : source.Consuming node)
    (hReduces : source.Reduces node inner reducer)
    (hInner : source.Condenses target knots inner inner') :
    source.Formed target' knots node (target.fused inner' reducer) := by
  have hLater := hInner.keeps hKeeps
  rw [formed_iff]
  unfold fused
  split
  · next innermost innerReducer hImage =>
      obtain ⟨image, hFound, hStands⟩ := hLater
      obtain rfl := Option.some.inj ((hKeeps.get? hImage).symm.trans hFound)
      refine .fused hConsuming hReduces (hStands.resolve_right ?_)
      rintro ⟨hOpen, -⟩
      cases hOpen
  · next hOther =>
      obtain ⟨image, hFound, -⟩ := hInner
      refine .reduced hConsuming hReduces hLater fun innermost innerReducer hReduction => ?_
      obtain rfl := Option.some.inj ((hKeeps.get? hFound).symm.trans hReduction)
      exact hOther innermost innerReducer hFound

variable {delegate part placeholder : Handle}

/-- When a placeholder is filled with what stands for the target of its delegate, what has
relied on the open knot stands for itself. -/
theorem Condenses.close (hDelegate : source.get? delegate = some (.delegate (some part)))
    (hConsuming : source.Consuming delegate)
    (hUnset : target.get? placeholder = some (.delegate none))
    (hFresh : ∀ other, ¬ knots other placeholder)
    (hPart : source.Condenses target (fun other handle => knots other handle ∨
      other = delegate ∧ handle = placeholder) part result)
    (hCondenses : source.Condenses target (fun other handle => knots other handle ∨
      other = delegate ∧ handle = placeholder) node other) :
    source.Condenses (target.patch placeholder (.delegate (some result))) knots node other := by
  have hPatched := get?_patch hUnset (.delegate (some result))
  -- What is formed are the nodes from before and the filled placeholder.
  let formed : Handle → Node Λ → Prop := fun node image =>
    source.Formed target (fun other handle => knots other handle ∨
      other = delegate ∧ handle = placeholder) node image ∨
    node = delegate ∧ image = .delegate (some result)
  have hCovers {node other : Handle} (hCondenses : source.Condenses target
      (fun other handle => knots other handle ∨ other = delegate ∧ handle = placeholder)
      node other) :
      source.Covers (target.patch placeholder (.delegate (some result))) knots formed node other ∧
        (target.Unreduced other →
          (target.patch placeholder (.delegate (some result))).Unreduced other) := by
    obtain ⟨image, hImage, hStands⟩ := hCondenses
    by_cases hSame : other = placeholder
    · subst hSame
      obtain rfl := Option.some.inj (hUnset.symm.trans hImage)
      have hFilled : (target.patch other (.delegate (some result))).get? other =
          some (.delegate (some result)) := by rw [hPatched, if_pos rfl]
      constructor
      · refine ⟨_, hFilled, Or.inl ?_⟩
        rcases hStands with ⟨last, -, hLast⟩ | ⟨-, last, hLeads, hKnot⟩
        · exact absurd rfl hLast.ne_open
        · obtain ⟨rfl, -⟩ := hKnot.resolve_left (hFresh last)
          exact ⟨last, hLeads, Or.inr ⟨rfl, rfl⟩⟩
      · intro _ inner reducer hReduction
        cases hFilled.symm.trans hReduction
    · have hImage' : (target.patch placeholder (.delegate (some result))).get? other =
          some image := by rw [hPatched, if_neg hSame, hImage]
      constructor
      · refine ⟨image, hImage', hStands.imp (Fits.mono fun _ _ => Or.inl) ?_⟩
        rintro ⟨hOpen, last, hLeads, hKnot⟩
        exact ⟨hOpen, last, hLeads, hKnot.resolve_right fun h => hSame h.2⟩
      · intro hUnreduced inner reducer hReduction
        exact hUnreduced inner reducer (hImage.trans (hImage'.symm.trans hReduction))
  refine (hCovers hCondenses).1.mono fun node image hFormed => ?_
  have hFormed : formed node image := hFormed
  refine formed_of_forms ?_ hFormed
  rintro node image (hFormed | ⟨rfl, rfl⟩)
  · exact (formed_iff.mp hFormed).imp (fun _ _ => rfl) (fun _ _ _ _ h => hCovers h)
      fun _ _ _ _ _ h => h.mono fun _ _ => Or.inl
  · exact .knot hConsuming hDelegate (hCovers hPart).1

end Building

end Grammar

namespace Draft

variable {Λ : Lexicon} {source : Grammar Λ} {draft draft' : Draft Λ}
  {knots : Handle → Handle → Prop} {node result : Handle}

/-- Everything that a draft recalls stands for its node. -/
def Condensed (source : Grammar Λ) (knots : Handle → Handle → Prop) (draft : Draft Λ) : Prop :=
  ∀ node result, draft.recalled node = some result →
    source.Condenses draft.grammar knots node result

theorem Condensed.note (hCondensed : draft.Condensed source knots)
    (hResult : source.Condenses draft.grammar knots node result) :
    (draft.note node result).Condensed source knots := by
  intro other found hFound
  rw [recalled_note] at hFound
  split at hFound
  · next hSame =>
      subst hSame
      cases hFound
      exact hResult
  · exact hCondensed other found hFound

theorem Condensed.alloc (hCondensed : draft.Condensed source knots) (image : Node Λ) :
    (draft.alloc image).Condensed source knots :=
  fun node result hFound => (hCondensed node result hFound).keeps (draft.keeps_alloc image)

/-- A node is built that is formed for a node, and remembered for it. -/
theorem Condensed.allocNote (hCondensed : draft.Condensed source knots) {image : Node Λ}
    (hFormed : source.Formed (draft.alloc image).grammar knots node image) :
    ((draft.alloc image).note node draft.next).Condensed source knots ∧
      source.Condenses (draft.alloc image).grammar knots node draft.next := by
  have hNext : source.Condenses (draft.alloc image).grammar knots node draft.next :=
    .of_formed (draft.get?_alloc_next image) hFormed
  exact ⟨(hCondensed.alloc image).note hNext, hNext⟩

/-- Compaction gives a handle that stands for its node, and keeps what it recalls condensed. -/
theorem Compacts.condenses (hCompacts : Compacts source draft node draft' result)
    (hCondensed : draft.Condensed source knots)
    (hLive : ∀ other handle, knots other handle →
      ∃ image, draft.grammar.get? handle = some image) :
    draft'.Condensed source knots ∧ source.Condenses draft'.grammar knots node result := by
  -- The knots are generalized, since a delegate opens one more for its target.
  induction hCompacts generalizing knots with
  | recalled hFound => exact ⟨hCondensed, hCondensed _ _ hFound⟩
  | @kept draft node result leaf _ hSettles hResult =>
      have hStands : source.Condenses draft.grammar knots node result :=
        .of_formed hResult (Grammar.formed_iff.mpr (.settled hSettles))
      exact ⟨hCondensed.note hStands, hStands⟩
  | made _ hSettles => exact hCondensed.allocNote (Grammar.formed_iff.mpr (.settled hSettles))
  | passed _ _ hPasses _ ih =>
      obtain ⟨hAfter, hKept⟩ := ih hCondensed hLive
      have hStands := hKept.skip (.passed hPasses)
      exact ⟨hAfter.note hStands, hStands⟩
  | @union draft draft₁ draft₂ _ _ _ _ _ _ hConsuming hNode hLeft hRight hFirst hSecond ihLeft
      ihRight =>
      obtain ⟨hMiddle, hLeft'⟩ := ihLeft hCondensed hLive
      obtain ⟨hAfter, hRight'⟩ := ihRight hMiddle fun other handle hKnot =>
        (hLive other handle hKnot).imp fun _ h => hFirst.keeps.get? h
      refine hAfter.allocNote (Grammar.formed_iff.mpr (.union hConsuming hNode hLeft hRight ?_ ?_))
      · exact hLeft'.keeps (hSecond.keeps.trans (draft₂.keeps_alloc _))
      · exact hRight'.keeps (draft₂.keeps_alloc _)
  | @sequence draft draft₁ draft₂ _ _ _ _ _ _ hConsuming hNode hFirst hSecond hCompacts
      hCompacts' ihFirst ihSecond =>
      obtain ⟨hMiddle, hFirst'⟩ := ihFirst hCondensed hLive
      obtain ⟨hAfter, hSecond'⟩ := ihSecond hMiddle fun other handle hKnot =>
        (hLive other handle hKnot).imp fun _ h => hCompacts.keeps.get? h
      refine hAfter.allocNote
        (Grammar.formed_iff.mpr (.sequence hConsuming hNode hFirst hSecond ?_ ?_))
      · exact hFirst'.keeps (hCompacts'.keeps.trans (draft₂.keeps_alloc _))
      · exact hSecond'.keeps (draft₂.keeps_alloc _)
  | @repetition draft draft₁ _ _ _ _ hConsuming hNode _ ih =>
      obtain ⟨hAfter, hInner⟩ := ih hCondensed hLive
      exact hAfter.allocNote (Grammar.formed_iff.mpr
        (.repetition hConsuming hNode (hInner.keeps (draft₁.keeps_alloc _))))
  | @reduced draft draft₁ _ _ _ _ _ hConsuming hReduces _ ih =>
      obtain ⟨hAfter, hInner⟩ := ih hCondensed hLive
      exact hAfter.allocNote
        (Grammar.formed_fused (draft₁.keeps_alloc _) hConsuming hReduces hInner)
  | @delegate draft draft₁ node target result _ hConsuming hNode hCompacts ih =>
      have hFresh (other : Handle) : ¬ knots other draft.next := by
        intro hKnot
        obtain ⟨image, hImage⟩ := hLive other draft.next hKnot
        obtain ⟨slot, hSlot, -⟩ := Grammar.get?_eq_some_iff.mp hImage
        cases draft.grammar.slot?_nextHandle.symm.trans hSlot
      have hPlaceholder := draft.get?_alloc_next (.delegate none)
      let opened : Handle → Handle → Prop := fun other handle =>
        knots other handle ∨ other = node ∧ handle = draft.next
      have hOpened : ((draft.alloc (.delegate none)).note node draft.next).Condensed source
          opened := by
        refine Condensed.note (fun other found hFound => ?_) ?_
        · exact (hCondensed.alloc _ other found hFound).open fun _ _ => Or.inl
        · exact ⟨_, hPlaceholder, Or.inr ⟨rfl, node, Relation.ReflTransGen.refl,
            Or.inr ⟨rfl, rfl⟩⟩⟩
      obtain ⟨hAfter, hTarget⟩ := ih hOpened fun other handle hKnot => by
        rcases hKnot with hKnot | ⟨-, rfl⟩
        · exact (hLive other handle hKnot).imp fun _ h => (draft.keeps_alloc _).get? h
        · exact ⟨_, hPlaceholder⟩
      have hUnset := get?_next_of_keeps hCompacts.keeps
      have hClose {other found : Handle}
          (hCondenses : source.Condenses draft₁.grammar opened other found) :
          source.Condenses (draft₁.fill draft.next result).grammar knots other found :=
        .close hNode hConsuming hUnset hFresh hTarget hCondenses
      have hStands := (hClose hTarget).skip (.delegate hNode)
      exact ⟨Condensed.note (fun other found hFound => hClose (hAfter other found hFound)) hStands,
        hStands⟩

end Draft

end DerivativeParsing
