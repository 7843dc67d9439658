import DerivativeParsing.Proofs.Compaction.Draft
import DerivativeParsing.Proofs.Engine.Compaction

namespace DerivativeParsing

/-!
# Every compaction follows the rules

Within a compaction the source is still there, the tables about nodes are right and every
compacted node is live (`Drafting`).  From such a state every step of a compaction goes along
one of the rules (`attains_drafted`), and so by induction on the fuel does the whole of it
(`drafts_compactWithin`).  What the rules preserve holds of every compaction.

Here an action may run out of fuel; that compaction succeeds is known from elsewhere.
-/

namespace Engine

open Draft

variable {Λ : Lexicon} {source : Grammar Λ} {engine after : Engine Λ}
  {serve : Handle → Action Λ Handle} {handle result : Handle} {node : Node Λ}

/-- The draft that an engine holds. -/
def draft (engine : Engine Λ) : Draft Λ where
  grammar := engine.grammar
  recalled := engine.tables.compact.peek?

/-- An engine that compacts nodes of a source: the source is still there, the tables about
nodes are right, and every compacted node is live. -/
structure Drafting (source : Grammar Λ) (engine : Engine Λ) : Prop where
  founded : source.Founded
  keeps : source.Keeps engine.grammar
  informed : engine.Informed
  live : ∀ node result, engine.draft.recalled node = some result →
    ∃ found, engine.grammar.get? result = some found

/-- A handle can be compacted: it leads along the rules to a node that is live. -/
def Drafts (source : Grammar Λ) (serve : Handle → Action Λ Handle) (handle : Handle) : Prop :=
  ∀ engine, Drafting source engine →
    Attains True (serve handle) engine fun result after =>
      Drafting source after ∧ Compacts source engine.draft handle after.draft result ∧
        ∃ found, after.grammar.get? result = some found

section Steps

theorem draft_noted (engine : Engine Λ) (handle result : Handle) :
    draft { engine with
      tables := { engine.tables with
        compact := engine.tables.compact.insert handle result } } =
      engine.draft.note handle result :=
  Draft.ext rfl (funext (Memo.peek?_insert engine.tables.compact handle result))

variable (hDrafting : Drafting source engine)

include hDrafting

/-- Queries change no draft. -/
theorem Drafting.consulted (hConsulted : engine.Consulted after) :
    Drafting source after ∧ after.draft = engine.draft := by
  have hGrammar := hConsulted.grammar
  have hDraft : after.draft = engine.draft :=
    Draft.ext hGrammar (funext hConsulted.compact)
  refine ⟨⟨hDrafting.founded, ?_, hConsulted.informed, ?_⟩, hDraft⟩
  · rw [hGrammar]
    exact hDrafting.keeps
  · rw [hDraft, hGrammar]
    exact hDrafting.live

theorem Drafting.attains_alloc (node : Node Λ) :
    Attains True (alloc node) engine fun result after =>
      Drafting source after ∧ after.draft = engine.draft.alloc node ∧
        result = engine.draft.next := by
  rw [Engine.attains_alloc]
  have hKeeps := engine.grammar.keeps_alloc node .derived
  refine ⟨⟨hDrafting.founded, hDrafting.keeps.trans hKeeps,
    hDrafting.informed.grows hKeeps.grows (Tables.Retains.refl _), ?_⟩, rfl, rfl⟩
  intro node result hRecalled
  obtain ⟨found, hFound⟩ := hDrafting.live node result hRecalled
  exact ⟨found, hKeeps.get? hFound⟩

theorem Drafting.attains_rememberCompaction
    (hLive : ∃ found, engine.grammar.get? result = some found) (handle : Handle) :
    Attains True (rememberCompaction handle result) engine fun _ after =>
      Drafting source after ∧ after.draft = engine.draft.note handle result := by
  unfold rememberCompaction
  rw [attains_remember]
  refine ⟨⟨hDrafting.founded, hDrafting.keeps, hDrafting.informed.grows
    (Grammar.Keeps.refl _).grows (Task.compact.retains_note _ handle result), ?_⟩,
    draft_noted engine handle result⟩
  intro node other hRecalled
  rw [draft_noted, recalled_note] at hRecalled
  split at hRecalled
  · cases hRecalled
    exact hLive
  · exact hDrafting.live node other hRecalled

theorem Drafting.attains_fusedReduction
    (hLive : ∃ found, engine.grammar.get? handle = some found) (reducer : Reducer Λ) :
    Attains True (fusedReduction handle reducer) engine fun result after =>
      Drafting source after ∧
        after.draft = engine.draft.alloc (engine.draft.grammar.fused handle reducer) ∧
        result = engine.draft.next := by
  obtain ⟨found, hFound⟩ := hLive
  have hDraft : engine.draft.grammar.get? handle = some found := hFound
  unfold fusedReduction
  rw [attains_bind, attains_node hFound]
  unfold Grammar.fused
  rw [hDraft]
  cases found <;> exact hDrafting.attains_alloc _

/-- A placeholder is filled after only other nodes were built. -/
theorem Drafting.attains_fill {opened : Draft Λ} {target : Handle}
    (hKeeps : (opened.alloc (.delegate none)).grammar.Keeps engine.grammar)
    (hSource : source.Keeps opened.grammar) :
    Attains True (build fun grammar => ((), grammar.fill ⟨opened.next⟩ target)) engine
      fun _ after => Drafting source after ∧ after.draft = engine.draft.fill opened.next target := by
  have hOpened : (opened.alloc (.delegate none)).grammar.Keeps engine.draft.grammar := hKeeps
  have hUnset : engine.draft.grammar.get? opened.next = some (.delegate none) :=
    get?_next_of_keeps hOpened
  rw [attains_build]
  refine ⟨⟨hDrafting.founded, hSource.trans (keeps_fill hOpened target),
    hDrafting.informed.grows (Grammar.grows_patch hUnset _) (Tables.Retains.refl _), ?_⟩, rfl⟩
  intro node result hRecalled
  obtain ⟨found, hFound⟩ := hDrafting.live node result hRecalled
  show ∃ found, (engine.draft.grammar.patch opened.next (.delegate (some target))).get? result =
    some found
  rw [Grammar.get?_patch hUnset]
  split
  · exact ⟨_, rfl⟩
  · exact ⟨found, hFound⟩

end Steps

section Queries

variable (hDrafting : Drafting source engine) (hValid : source.Valid handle)

include hDrafting hValid

theorem Drafting.attains_isEmpty :
    Attains True (isEmpty handle) engine fun value after =>
      Drafting source after ∧ after.draft = engine.draft ∧
        (value = true ↔ ¬ source.Inhabited handle) := by
  have hAgrees := hValid.agrees hDrafting.keeps.grows
  refine (Engine.attains_isEmpty hDrafting.informed (hAgrees.valid hValid)).mono ?_
  rintro value after ⟨hConsulted, hValue⟩
  obtain ⟨hAfter, hDraft⟩ := hDrafting.consulted hConsulted
  exact ⟨hAfter, hDraft,
    hValue.trans (not_congr ⟨hAgrees.symm.inhabited, hAgrees.inhabited⟩)⟩

theorem Drafting.attains_isNullOnly :
    Attains True (isNullOnly handle) engine fun value after =>
      Drafting source after ∧ after.draft = engine.draft ∧
        (value = true ↔ source.NullOnly handle) := by
  have hAgrees := hValid.agrees hDrafting.keeps.grows
  refine (Engine.attains_isNullOnly hDrafting.informed (hAgrees.valid hValid)).mono ?_
  rintro value after ⟨hConsulted, hValue⟩
  obtain ⟨hAfter, hDraft⟩ := hDrafting.consulted hConsulted
  refine ⟨hAfter, hDraft, hValue.trans ?_⟩
  rw [Grammar.NullOnly, hAgrees.meaning_eq]
  exact and_congr_right fun _ => not_congr ⟨hAgrees.symm.consuming, hAgrees.consuming⟩

theorem Drafting.attains_forestOf :
    Attains True (forestOf handle) engine fun _ after =>
      Drafting source after ∧ after.draft = engine.draft := by
  have hAgrees := hValid.agrees hDrafting.keeps.grows
  refine (Engine.attains_forestOf hDrafting.informed (hAgrees.valid hValid)
    fun _ => trivial).mono ?_
  exact fun trees after hAfter => hDrafting.consulted hAfter.1

end Queries

section Parts

/-- The result for a node that is not remembered yet: once it is, a rule has been followed. -/
def Drafted (source : Grammar Λ) (engine : Engine Λ) (handle result : Handle)
    (after : Engine Λ) : Prop :=
  Drafting source after ∧
    Compacts source engine.draft handle (after.draft.note handle result) result ∧
    ∃ found, after.grammar.get? result = some found

/-- A node that was built last is live. -/
theorem exists_get?_of_alloc (hDraft : after.draft = engine.draft.alloc node) :
    ∃ found, after.grammar.get? engine.draft.next = some found :=
  ⟨node, (congrArg (fun draft => draft.grammar.get? engine.draft.next) hDraft).trans
    (engine.draft.get?_alloc_next node)⟩

/-- Whether a node is drafted depends on the draft before it only. -/
theorem Drafted.of_draft_eq {middle : Engine Λ} (hDraft : middle.draft = engine.draft)
    (hDrafted : Drafted source middle handle result after) :
    Drafted source engine handle result after := by
  unfold Drafted at hDrafted
  rwa [hDraft] at hDrafted

/-- A rule ends by building a node. -/
theorem Drafting.attains_drafted_alloc {middle : Engine Λ} (hMiddle : Drafting source middle)
    (hRule : Compacts source engine.draft handle
      ((middle.draft.alloc node).note handle middle.draft.next) middle.draft.next) :
    Attains True (alloc node) middle (Drafted source engine handle) := by
  refine (hMiddle.attains_alloc node).mono ?_
  rintro result after ⟨hAfter, hDraft, rfl⟩
  refine ⟨hAfter, ?_, exists_get?_of_alloc hDraft⟩
  rw [hDraft]
  exact hRule

/-- A reduced node follows the rule for reductions. -/
theorem Drafting.attains_drafted_reduced {middle : Engine Λ} {inner inner' : Handle}
    {reducer : Reducer Λ} (hMiddle : Drafting source middle)
    (hNew : engine.draft.recalled handle = none) (hConsuming : source.Consuming handle)
    (hReduces : source.Reduces handle inner reducer)
    (hCompacts : Compacts source engine.draft inner middle.draft inner')
    (hLive : ∃ found, middle.grammar.get? inner' = some found) :
    Attains True (fusedReduction inner' reducer) middle (Drafted source engine handle) := by
  refine (hMiddle.attains_fusedReduction hLive reducer).mono ?_
  rintro result after ⟨hAfter, hDraft, rfl⟩
  refine ⟨hAfter, ?_, exists_get?_of_alloc hDraft⟩
  rw [hDraft]
  exact .reduced hNew hConsuming hReduces hCompacts

variable (hDrafting : Drafting source engine) (hNew : engine.draft.recalled handle = none)

include hDrafting hNew

/-- A node that is settled by a node in the source. -/
theorem drafted_kept {leaf : Node Λ} (hSettles : source.Settles handle leaf)
    (hResult : source.get? result = some leaf) :
    Drafted source engine handle result engine := by
  have hFound := hDrafting.keeps.get? hResult
  exact ⟨hDrafting, .kept hNew hSettles hFound, leaf, hFound⟩

/-- An operand that matches only the empty string is taken into a reducer of the other one. -/
theorem attains_drafted_absorbed {absorbed kept : Handle}
    {reducer : Forest Λ.Token → Reducer Λ} (hAbsorbed : source.Valid absorbed)
    (hConsuming : source.Consuming handle)
    (hReduces : ∀ trees, source.Reduces handle kept (reducer trees))
    (hKept : Drafts source serve kept) :
    Attains True
      (do
        let trees ← forestOf absorbed
        let kept ← serve kept
        fusedReduction kept (reducer trees))
      engine (Drafted source engine handle) := by
  refine (hDrafting.attains_forestOf hAbsorbed).bind ?_
  rintro trees engine₁ ⟨hDrafting₁, hDraft₁⟩
  refine (hKept engine₁ hDrafting₁).bind ?_
  rintro kept' engine₂ ⟨hDrafting₂, hCompacts, hLive⟩
  rw [hDraft₁] at hCompacts
  exact hDrafting₂.attains_drafted_reduced hNew hConsuming (hReduces trees) hCompacts hLive

theorem attains_drafted_delegate {target : Handle}
    (hNode : source.get? handle = some (.delegate (some target)))
    (hConsuming : source.Consuming handle) (hTarget : Drafts source serve target) :
    Attains True (plain.compactParts serve handle (.delegate (some target))) engine
      (Drafted source engine handle) := by
  rw [Manner.compactParts]
  have hOpens : Attains True (build Grammar.placeholder) engine fun placeholder after =>
      Drafting source after ∧ after.draft = engine.draft.alloc (.delegate none) ∧
        placeholder = ⟨engine.draft.next⟩ := by
    rw [attains_build]
    obtain ⟨hAfter, hDraft, -⟩ := hDrafting.attains_alloc (.delegate none)
    exact ⟨hAfter, hDraft, rfl⟩
  refine hOpens.bind ?_
  rintro _ engine₁ ⟨hDrafting₁, hDraft₁, rfl⟩
  refine (hDrafting₁.attains_rememberCompaction (exists_get?_of_alloc hDraft₁) handle).bind ?_
  rintro _ engine₂ ⟨hDrafting₂, hDraft₂⟩
  rw [hDraft₁] at hDraft₂
  refine (hTarget engine₂ hDrafting₂).bind ?_
  rintro result engine₃ ⟨hDrafting₃, hCompacts, found, hFound⟩
  rw [hDraft₂] at hCompacts
  refine (hDrafting₃.attains_fill hCompacts.keeps hDrafting.keeps).bind ?_
  rintro _ after ⟨hAfter, hDraft⟩
  have hCompacted : Compacts source engine.draft handle (after.draft.note handle result)
      result := by
    rw [hDraft]
    exact .delegate hNew hConsuming hNode hCompacts
  refine attains_pure.mpr ⟨hAfter, hCompacted, ?_⟩
  have hUnset : engine₃.draft.grammar.get? engine.draft.next = some (.delegate none) :=
    get?_next_of_keeps hCompacts.keeps
  have hGrammar : after.grammar =
      engine₃.draft.grammar.patch engine.draft.next (.delegate (some result)) :=
    congrArg Draft.grammar hDraft
  rw [hGrammar, Grammar.get?_patch hUnset]
  split
  · exact ⟨_, rfl⟩
  · exact ⟨found, hFound⟩

variable (hValid : source.Valid handle)

include hValid

theorem attains_drafted_union {left right : Handle}
    (hNode : source.get? handle = some (.union left right)) (hConsuming : source.Consuming handle)
    (hLeft : Drafts source serve left) (hRight : Drafts source serve right) :
    Attains True (plain.compactParts serve handle (.union left right)) engine
      (Drafted source engine handle) := by
  have hLeftValid := hValid.child hNode (Node.mem_children_union.mpr (Or.inl rfl))
  have hRightValid := hValid.child hNode (Node.mem_children_union.mpr (Or.inr rfl))
  rw [Manner.compactParts]
  refine (hDrafting.attains_isEmpty hLeftValid).bind ?_
  rintro leftEmpty engine₁ ⟨hDrafting₁, hDraft₁, hLeftEmpty⟩
  split
  · next hEmpty =>
      refine (hRight engine₁ hDrafting₁).mono ?_
      rintro result after ⟨hAfter, hCompacts, hLive⟩
      rw [hDraft₁] at hCompacts
      exact ⟨hAfter, .passed hNew hConsuming (.right hNode (hLeftEmpty.mp hEmpty)) hCompacts,
        hLive⟩
  next hInhabited =>
  refine (hDrafting₁.attains_isEmpty hRightValid).bind ?_
  rintro rightEmpty engine₂ ⟨hDrafting₂, hDraft₂, hRightEmpty⟩
  rw [hDraft₁] at hDraft₂
  split
  · next hEmpty =>
      refine (hLeft engine₂ hDrafting₂).mono ?_
      rintro result after ⟨hAfter, hCompacts, hLive⟩
      rw [hDraft₂] at hCompacts
      exact ⟨hAfter, .passed hNew hConsuming (.left hNode (hRightEmpty.mp hEmpty)) hCompacts,
        hLive⟩
  next hInhabited' =>
  refine (hLeft engine₂ hDrafting₂).bind ?_
  rintro left' engine₃ ⟨hDrafting₃, hCompacts₃, -⟩
  refine (hRight engine₃ hDrafting₃).bind ?_
  rintro right' engine₄ ⟨hDrafting₄, hCompacts₄, -⟩
  rw [hDraft₂] at hCompacts₃
  exact hDrafting₄.attains_drafted_alloc (.union hNew hConsuming hNode
    (not_not.mp fun h => hInhabited (hLeftEmpty.mpr h))
    (not_not.mp fun h => hInhabited' (hRightEmpty.mpr h)) hCompacts₃ hCompacts₄)

theorem attains_drafted_sequence {first second : Handle}
    (hNode : source.get? handle = some (.sequence first second))
    (hConsuming : source.Consuming handle)
    (hFirst : Drafts source serve first) (hSecond : Drafts source serve second) :
    Attains True (plain.compactParts serve handle (.sequence first second)) engine
      (Drafted source engine handle) := by
  have hFirstValid := hValid.child hNode (Node.mem_children_sequence.mpr (Or.inl rfl))
  have hSecondValid := hValid.child hNode (Node.mem_children_sequence.mpr (Or.inr rfl))
  obtain ⟨hFirstInhabited, hSecondInhabited⟩ :=
    (Grammar.inhabited_iff hNode).mp hConsuming.inhabited
  rw [Manner.compactParts]
  refine (hDrafting.attains_isNullOnly hFirstValid).bind ?_
  rintro firstNull engine₁ ⟨hDrafting₁, hDraft₁, hFirstNull⟩
  have hNew₁ : engine₁.draft.recalled handle = none := by rw [hDraft₁, hNew]
  split
  · next hNull =>
      refine (attains_drafted_absorbed hDrafting₁ hNew₁ hFirstValid hConsuming
        (fun trees => .prepend trees hNode (hFirstNull.mp hNull)) hSecond).mono ?_
      exact fun result after hDrafted => hDrafted.of_draft_eq hDraft₁
  next hFirstMore =>
  refine (hDrafting₁.attains_isNullOnly hSecondValid).bind ?_
  rintro secondNull engine₂ ⟨hDrafting₂, hDraft₂, hSecondNull⟩
  rw [hDraft₁] at hDraft₂
  have hNew₂ : engine₂.draft.recalled handle = none := by rw [hDraft₂, hNew]
  split
  · next hNull =>
      refine (attains_drafted_absorbed hDrafting₂ hNew₂ hSecondValid hConsuming
        (fun trees => .append trees hNode (hSecondNull.mp hNull)) hFirst).mono ?_
      exact fun result after hDrafted => hDrafted.of_draft_eq hDraft₂
  next hSecondMore =>
  refine (hFirst engine₂ hDrafting₂).bind ?_
  rintro first' engine₃ ⟨hDrafting₃, hCompacts₃, -⟩
  refine (hSecond engine₃ hDrafting₃).bind ?_
  rintro second' engine₄ ⟨hDrafting₄, hCompacts₄, -⟩
  rw [hDraft₂] at hCompacts₃
  exact hDrafting₄.attains_drafted_alloc (.sequence hNew hConsuming hNode
    (hFirstInhabited.consuming fun h => hFirstMore (hFirstNull.mpr h))
    (hSecondInhabited.consuming fun h => hSecondMore (hSecondNull.mpr h)) hCompacts₃ hCompacts₄)

/-- A consuming node with parts is compacted along one of the rules for its kind. -/
theorem attains_drafted_parts (hNode : source.get? handle = some node)
    (hConsuming : source.Consuming handle)
    (hServe : ∀ child ∈ node.children, Drafts source serve child) :
    Attains True (plain.compactParts serve handle node) engine (Drafted source engine handle) := by
  have hPart := (Grammar.consuming_iff hNode).mp hConsuming
  cases node with
  | empty => exact hPart.elim
  | eps forest => exact hPart.elim
  | token matcher => exact attains_pure.mpr (drafted_kept hDrafting hNew (.token hNode) hNode)
  | union left right =>
      exact attains_drafted_union hDrafting hNew hValid hNode hConsuming
        (hServe left (Node.mem_children_union.mpr (Or.inl rfl)))
        (hServe right (Node.mem_children_union.mpr (Or.inr rfl)))
  | sequence first second =>
      exact attains_drafted_sequence hDrafting hNew hValid hNode hConsuming
        (hServe first (Node.mem_children_sequence.mpr (Or.inl rfl)))
        (hServe second (Node.mem_children_sequence.mpr (Or.inr rfl)))
  | repetition inner =>
      have hInner := List.mem_singleton_self inner
      rw [Manner.compactParts]
      refine (hDrafting.attains_isEmpty (hValid.child hNode hInner)).bind ?_
      rintro innerEmpty engine₁ ⟨hDrafting₁, hDraft₁, hInnerEmpty⟩
      have hInhabited : innerEmpty ≠ true := fun h =>
        hInnerEmpty.mp h (Grammar.Consuming.inhabited hPart)
      rw [if_neg hInhabited]
      refine (hServe inner hInner engine₁ hDrafting₁).bind ?_
      rintro inner' engine₂ ⟨hDrafting₂, hCompacts, -⟩
      rw [hDraft₁] at hCompacts
      exact hDrafting₂.attains_drafted_alloc (.repetition hNew hConsuming hNode hCompacts)
  | reduction inner reducer =>
      rw [Manner.compactParts]
      refine (hServe inner (List.mem_singleton_self inner) engine hDrafting).bind ?_
      rintro inner' engine₁ ⟨hDrafting₁, hCompacts, hLive⟩
      exact hDrafting₁.attains_drafted_reduced hNew hConsuming (.reduction hNode) hCompacts hLive
  | delegate target =>
      cases target with
      | none => exact hPart.elim
      | some target =>
          exact attains_drafted_delegate hDrafting hNew hNode hConsuming
            (hServe target (List.mem_singleton_self target))

/-- A node without matches becomes the empty node, a node that matches only the empty string
becomes an `eps` node, and any other is consuming. -/
theorem attains_drafted_unless_settled (hNode : source.get? handle = some node)
    (hServe : ∀ child ∈ node.children, Drafts source serve child) :
    Attains True
      (do
        if ← isEmpty handle then return Handle.empty
        else if ← isNullOnly handle then epsCarrying (← forestOf handle)
        else plain.compactParts serve handle node)
      engine (Drafted source engine handle) := by
  refine (hDrafting.attains_isEmpty hValid).bind ?_
  rintro empty engine₁ ⟨hDrafting₁, hDraft₁, hEmpty⟩
  have hNew₁ : engine₁.draft.recalled handle = none := by rw [hDraft₁, hNew]
  split
  · next hTrue =>
      exact attains_pure.mpr ((drafted_kept hDrafting₁ hNew₁ (.barren (hEmpty.mp hTrue))
        hDrafting.founded.get?_empty).of_draft_eq hDraft₁)
  next hSome =>
  have hInhabited : source.Inhabited handle := not_not.mp fun h => hSome (hEmpty.mpr h)
  refine (hDrafting₁.attains_isNullOnly hValid).bind ?_
  rintro nullOnly engine₂ ⟨hDrafting₂, hDraft₂, hNullOnly⟩
  rw [hDraft₁] at hDraft₂
  have hNew₂ : engine₂.draft.recalled handle = none := by rw [hDraft₂, hNew]
  split
  · next hTrue =>
      have hNull := hNullOnly.mp hTrue
      refine (hDrafting₂.attains_forestOf hValid).bind ?_
      rintro trees engine₃ ⟨hDrafting₃, hDraft₃⟩
      rw [hDraft₂] at hDraft₃
      have hNew₃ : engine₃.draft.recalled handle = none := by rw [hDraft₃, hNew]
      unfold epsCarrying
      split
      · exact attains_pure.mpr ((drafted_kept hDrafting₃ hNew₃ (.nullOnly _ hNull)
          hDrafting.founded.get?_eps).of_draft_eq hDraft₃)
      · refine hDrafting₃.attains_drafted_alloc ?_
        rw [← hDraft₃]
        exact .made hNew₃ (.nullOnly trees hNull)
  · next hMore =>
      refine (attains_drafted_parts hDrafting₂ hNew₂ hValid hNode
        (hInhabited.consuming fun h => hMore (hNullOnly.mpr h)) hServe).mono ?_
      exact fun result after hDrafted => hDrafted.of_draft_eq hDraft₂

/-- A node is compacted along one of the rules. -/
theorem attains_drafted (hNode : source.get? handle = some node)
    (hServe : ∀ child ∈ node.children, Drafts source serve child) :
    Attains True (plain.compactNode serve handle node) engine (Drafted source engine handle) := by
  have hOther := attains_drafted_unless_settled hDrafting hNew hValid hNode hServe
  have hKept {leaf : Node Λ} (hSettles : source.Settles handle leaf)
      (hLeaf : source.get? handle = some leaf) : Drafted source engine handle handle engine :=
    drafted_kept hDrafting hNew hSettles hLeaf
  cases node with
  | empty =>
      refine attains_pure.mpr (hKept (.barren fun h => ?_) hNode)
      exact (Grammar.inhabited_iff hNode).mp h
  | eps forest =>
      refine attains_pure.mpr (hKept (.nullOnly _ ⟨?_, fun h => ?_⟩) hNode)
      · exact (Grammar.nullable_iff hNode).mpr trivial
      · exact (Grammar.consuming_iff hNode).mp h
  | token matcher => exact attains_pure.mpr (hKept (.token hNode) hNode)
  | union left right => exact hOther
  | sequence first second => exact hOther
  | repetition inner => exact hOther
  | reduction inner reducer => exact hOther
  | delegate target => exact hOther

end Parts

/-- Every compaction runs along the rules. -/
theorem drafts_compactWithin (fuel : Nat) (hValid : source.Valid handle) :
    Drafts source (plain.compactWithin fuel) handle := by
  induction fuel generalizing handle with
  | zero => exact fun engine _ => attains_throw.mpr trivial
  | succ fuel ih =>
      intro engine hDrafting
      obtain ⟨node, hNode, -⟩ := hValid.get?
      simp only [Manner.compactWithin, liftM_self]
      refine (attains_rememberedCompaction hDrafting.informed).bind ?_
      rintro _ engine₁ ⟨hConsulted, rfl⟩
      obtain ⟨hDrafting₁, hDraft₁⟩ := hDrafting.consulted hConsulted
      cases hFound : Task.compact.remembered engine.tables handle with
      | some result =>
          obtain ⟨found, hLive⟩ := hDrafting.live handle result hFound
          have hGrammar : engine₁.grammar = engine.grammar := congrArg Draft.grammar hDraft₁
          refine attains_pure.mpr ⟨hDrafting₁, ?_, found, hGrammar ▸ hLive⟩
          rw [hDraft₁]
          exact .recalled hFound
      | none =>
          have hNew : engine₁.draft.recalled handle = none := by
            rw [hDraft₁]
            exact hFound
          rw [attains_bind, attains_node (hDrafting₁.keeps.get? hNode)]
          refine (attains_drafted hDrafting₁ hNew hValid hNode
            fun child hChild => ih (hValid.child hNode hChild)).bind ?_
          rintro result engine₂ ⟨hDrafting₂, hCompacts, hLive⟩
          refine (hDrafting₂.attains_rememberCompaction hLive handle).bind ?_
          rintro _ after ⟨hAfter, hDraft⟩
          rw [hDraft₁, ← hDraft] at hCompacts
          have hGrammar : after.grammar = engine₂.grammar := congrArg Draft.grammar hDraft
          exact attains_pure.mpr ⟨hAfter, hCompacts, hGrammar ▸ hLive⟩

end Engine

end DerivativeParsing
