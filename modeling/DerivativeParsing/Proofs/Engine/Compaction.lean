import DerivativeParsing.Proofs.Engine.Descent

namespace DerivativeParsing

/-!
# Compacted nodes are residuals by the empty word

For every kind of node the compacted form is built along one of the laws for that kind of
node, which one depends on the answers to queries (`attains_compactParts`,
`attains_compactNode`).  By induction on the fuel a compacted node is a residual of its
node by the empty word (`serves_compactWithin`).
-/

namespace Engine

variable {Λ : Lexicon} {excused : Prop} {start engine : Engine Λ}
  {knots : Handle → Handle → Prop} {handle : Handle} {node : Node Λ} {plan : Plan Λ}
  {serve : Handle → Action Λ Handle} {bound : Nat}

/-- A node that represents a plan is live, even if it is still open. -/
theorem Underway.exists_get? {task : Task Λ} (hUnderway : Underway task start knots engine)
    {exact : Prop}
    (hRepresents : start.grammar.Represents exact engine.grammar task.word knots plan handle) :
    ∃ node, engine.grammar.get? handle = some node := by
  induction hRepresents with
  | settled hResidual =>
      obtain ⟨node, hNode, -⟩ := hResidual.valid.get?
      exact ⟨node, hUnderway.keeps.get? hNode⟩
  | knot hKnot =>
      obtain ⟨target, hNode⟩ := hUnderway.placeholders _ _ hKnot
      exact ⟨_, hNode⟩
  | unfolded _ _ ih => exact ih
  | whole hValid =>
      obtain ⟨node, hNode, -⟩ := hValid.get?
      exact ⟨node, hUnderway.keeps.get? hNode⟩
  | empty hNode => exact ⟨_, hNode⟩
  | eps hNode => exact ⟨_, hNode⟩
  | union hNode _ _ _ _ => exact ⟨_, hNode⟩
  | sequence hNode _ _ _ _ => exact ⟨_, hNode⟩
  | repetition hNode _ _ => exact ⟨_, hNode⟩
  | reduction hNode _ _ => exact ⟨_, hNode⟩
  | fused hNode _ _ _ => exact ⟨_, hNode⟩

/-- Nested reductions are folded into one. -/
theorem Underway.attains_fusedReduction {task : Task Λ}
    (hUnderway : Underway task start knots engine) (reducer : Reducer Λ)
    (hInner : start.grammar.Represents engine.Untruncated engine.grammar task.word knots plan
      handle) :
    Attains excused (fusedReduction handle reducer) engine
      (Yields task start (.reduction plan reducer) knots engine) := by
  obtain ⟨inner, hHandle⟩ := hUnderway.exists_get? hInner
  unfold fusedReduction
  rw [attains_bind, attains_node hHandle]
  split
  · refine (hUnderway.attains_alloc _).mono ?_
    rintro result after ⟨hAfter, hStep, hResult⟩
    exact ⟨knots, hAfter, hStep,
      .fused hResult (hStep.keeps.get? hHandle) (hStep.represents hInner)⟩
  · refine (hUnderway.attains_alloc _).mono ?_
    rintro result after ⟨hAfter, hStep, hResult⟩
    exact ⟨knots, hAfter, hStep, .reduction hResult (hStep.represents hInner)⟩

/-- A part that matches only the empty string is taken into a reducer of the other
part. -/
theorem Underway.attains_absorbed {task : Task Λ} {absorbed kept : Handle}
    (hUnderway : Underway task start knots engine)
    (hBound : task.unmet start.grammar engine.tables ≤ bound)
    (hValid : start.grammar.Valid absorbed)
    (hExcused : start.configuration.forestPassLimit = 0 → excused)
    (hKept : Serves excused task start serve bound kept)
    (reducer : Forest Λ.Token → Reducer Λ) :
    Attains excused
      (do
        let trees ← forestOf absorbed
        let kept ← serve kept
        fusedReduction kept (reducer trees))
      engine fun result after => ∃ trees,
        start.grammar.Gathers after.Untruncated absorbed [] trees ∧
          Yields task start (.reduction (.residual kept) (reducer trees)) knots engine result
            after := by
  refine (hUnderway.attains_forestOf hValid hExcused).bind ?_
  rintro trees engine₁ ⟨hQuery, hGathers⟩
  obtain ⟨hUnderway₁, hStep₁⟩ := hUnderway.consulted hQuery
  refine (hKept knots engine₁ hUnderway₁
    ((hStep₁.unmet_le start.grammar).trans hBound)).bind ?_
  rintro result engine₂ ⟨knots₂, hUnderway₂, hStep₂, hResult⟩
  refine (hUnderway₂.attains_fusedReduction (reducer trees) hResult).mono
    fun result after hYields => ⟨trees, ?_, hYields.prepared (hStep₁.trans hStep₂)⟩
  -- If no query was stopped up to now, then none was when the trees were gathered.
  exact hGathers.mono fun h => h.of_suffix (hStep₂.journal.trans hYields.journal)

section Parts

variable (hUnderway : Underway .compact start knots engine)
  (hValid : start.grammar.Valid handle)
  (hBound : Task.compact.unmet start.grammar engine.tables ≤ bound)

include hUnderway hValid hBound

theorem attains_compact_union {left right : Handle}
    (hNode : start.grammar.get? handle = some (.union left right))
    (hLeft : Serves excused .compact start serve bound left)
    (hRight : Serves excused .compact start serve bound right) :
    Attains excused (plain.compactParts serve handle (.union left right)) engine
      (Yields .compact start (.residual handle) knots engine) := by
  have hLeftValid := hValid.child hNode (Node.mem_children_union.mpr (Or.inl rfl))
  have hRightValid := hValid.child hNode (Node.mem_children_union.mpr (Or.inr rfl))
  rw [Manner.compactParts]
  refine (hUnderway.attains_isEmpty hLeftValid).bind ?_
  rintro leftEmpty engine₁ ⟨hQuery₁, hLeftEmpty⟩
  obtain ⟨hUnderway₁, hStep₁⟩ := hUnderway.consulted hQuery₁
  have hBound₁ := (hStep₁.unmet_le start.grammar).trans hBound
  split
  · next hEmpty =>
      refine (hRight knots engine₁ hUnderway₁ hBound₁).mono fun result after hYields => ?_
      exact (hYields.prepared hStep₁).unfolded
        (Grammar.unfolds_union_right hNode (hLeftEmpty.mp hEmpty))
  refine (hUnderway₁.attains_isEmpty hRightValid).bind ?_
  rintro rightEmpty engine₂ ⟨hQuery₂, hRightEmpty⟩
  obtain ⟨hUnderway₂, hStep₂⟩ := hUnderway₁.consulted hQuery₂
  have hBound₂ := (hStep₂.unmet_le start.grammar).trans hBound₁
  split
  · next hEmpty =>
      refine (hLeft knots engine₂ hUnderway₂ hBound₂).mono fun result after hYields => ?_
      exact (hYields.prepared (hStep₁.trans hStep₂)).unfolded
        (Grammar.unfolds_union_left hNode (hRightEmpty.mp hEmpty))
  · refine (hUnderway₂.attains_both hBound₂ hLeft hRight .union .union).mono
      fun result after hYields => ?_
    exact (hYields.prepared (hStep₁.trans hStep₂)).unfolded (Grammar.unfolds_union hNode)

variable (hExcused : start.configuration.forestPassLimit = 0 → excused)

include hExcused

/-- A part of a sequence that matches only the empty string is taken into the reducer of
the other part. -/
theorem attains_compact_sequence {first second : Handle}
    (hNode : start.grammar.get? handle = some (.sequence first second))
    (hFirst : Serves excused .compact start serve bound first)
    (hSecond : Serves excused .compact start serve bound second) :
    Attains excused (plain.compactParts serve handle (.sequence first second)) engine
      (Yields .compact start (.residual handle) knots engine) := by
  have hFirstValid := hValid.child hNode (Node.mem_children_sequence.mpr (Or.inl rfl))
  have hSecondValid := hValid.child hNode (Node.mem_children_sequence.mpr (Or.inr rfl))
  rw [Manner.compactParts]
  refine (hUnderway.attains_isNullOnly hFirstValid).bind ?_
  rintro firstNull engine₁ ⟨hQuery₁, hFirstNull⟩
  obtain ⟨hUnderway₁, hStep₁⟩ := hUnderway.consulted hQuery₁
  have hBound₁ := (hStep₁.unmet_le start.grammar).trans hBound
  split
  · next hNull =>
      obtain ⟨hNullable, hConsuming⟩ := hFirstNull.mp hNull
      refine (hUnderway₁.attains_absorbed hBound₁ hFirstValid hExcused hSecond .prepend).mono ?_
      rintro result after ⟨trees, hGathers, hYields⟩
      exact (hYields.prepared hStep₁).unfolded
        (Grammar.unfolds_sequence_prepend hNode hNullable hConsuming hGathers)
  refine (hUnderway₁.attains_isNullOnly hSecondValid).bind ?_
  rintro secondNull engine₂ ⟨hQuery₂, hSecondNull⟩
  obtain ⟨hUnderway₂, hStep₂⟩ := hUnderway₁.consulted hQuery₂
  have hBound₂ := (hStep₂.unmet_le start.grammar).trans hBound₁
  split
  · next hNull =>
      obtain ⟨hNullable, hConsuming⟩ := hSecondNull.mp hNull
      refine (hUnderway₂.attains_absorbed hBound₂ hSecondValid hExcused hFirst .append).mono ?_
      rintro result after ⟨trees, hGathers, hYields⟩
      exact (hYields.prepared (hStep₁.trans hStep₂)).unfolded
        (Grammar.unfolds_sequence_append hNode hNullable hConsuming hGathers)
  · refine (hUnderway₂.attains_both hBound₂ hFirst hSecond .sequence .sequence).mono
      fun result after hYields => ?_
    exact (hYields.prepared (hStep₁.trans hStep₂)).unfolded (Grammar.unfolds_sequence hNode)

/-- The compacted form of a node with parts, along one of the laws for its kind. -/
theorem attains_compactParts (hNode : start.grammar.get? handle = some node)
    (hNew : Task.compact.remembered engine.tables handle = none)
    (hServe : ∀ child ∈ node.children,
      Serves excused .compact start serve (bound - node.isDelegate.toNat) child) :
    Attains excused (plain.compactParts serve handle node) engine
      (Yields .compact start (.residual handle) knots engine) := by
  -- A node without parts is its own residual.
  have hWhole : Yields .compact start (.residual handle) knots engine handle engine :=
    Yields.unfolded ⟨knots, hUnderway, Advances.refl, .whole hValid⟩ Grammar.unfolds_whole
  cases node with
  | empty => exact attains_pure.mpr hWhole
  | eps forest => exact attains_pure.mpr hWhole
  | token matcher => exact attains_pure.mpr hWhole
  | union left right =>
      exact attains_compact_union hUnderway hValid hBound hNode
        (hServe left (Node.mem_children_union.mpr (Or.inl rfl)))
        (hServe right (Node.mem_children_union.mpr (Or.inr rfl)))
  | sequence first second =>
      exact attains_compact_sequence hUnderway hValid hBound hExcused hNode
        (hServe first (Node.mem_children_sequence.mpr (Or.inl rfl)))
        (hServe second (Node.mem_children_sequence.mpr (Or.inr rfl)))
  | repetition inner =>
      rw [Manner.compactParts]
      have hInner := List.mem_singleton_self inner
      refine (hUnderway.attains_isEmpty (hValid.child hNode hInner)).bind ?_
      rintro innerEmpty engine₁ ⟨hQuery₁, hInnerEmpty⟩
      obtain ⟨hUnderway₁, hStep₁⟩ := hUnderway.consulted hQuery₁
      split
      · next hEmpty =>
          refine (hUnderway₁.attains_alloc _).mono ?_
          rintro result after ⟨hAfter, hStep₂, hResult⟩
          exact Yields.unfolded ⟨knots, hAfter, hStep₁.trans hStep₂, .eps hResult⟩
            (Grammar.unfolds_repetition_of_not_inhabited hNode (hInnerEmpty.mp hEmpty))
      · refine (hServe inner hInner knots engine₁ hUnderway₁
          ((hStep₁.unmet_le start.grammar).trans hBound)).bind ?_
        rintro compacted engine₂ ⟨knots₂, hUnderway₂, hStep₂, hCompacted⟩
        refine (hUnderway₂.attains_alloc _).mono ?_
        rintro result after ⟨hAfter, hStep₃, hResult⟩
        exact Yields.unfolded ⟨knots₂, hAfter, (hStep₁.trans hStep₂).trans hStep₃,
          .repetition hResult (hStep₃.represents hCompacted)⟩
          (Grammar.unfolds_repetition hNode)
  | reduction inner reducer =>
      rw [Manner.compactParts]
      refine (hServe inner (List.mem_singleton_self inner) knots engine hUnderway
        hBound).bind ?_
      rintro compacted engine₁ ⟨knots₁, hUnderway₁, hStep₁, hCompacted⟩
      refine (hUnderway₁.attains_fusedReduction reducer hCompacted).mono
        fun result after hYields => ?_
      exact (hYields.prepared hStep₁).unfolded (Grammar.unfolds_reduction hNode)
  | delegate target =>
      cases target with
      | none => exact attains_pure.mpr hWhole
      | some target =>
          refine hUnderway.attains_delegate hValid hNode hNew fun knots' after hAfter hLt => ?_
          refine hServe target (List.mem_singleton_self target) knots' after hAfter ?_
          exact Nat.le_sub_one_of_lt (hLt.trans_le hBound)

variable (hFounded : start.grammar.Founded)

include hFounded

/-- A node without matches becomes the empty node, and a node that matches only the empty
string becomes the trees of its matches. -/
theorem attains_compact_unless_trivial (hNode : start.grammar.get? handle = some node)
    (hNew : Task.compact.remembered engine.tables handle = none)
    (hServe : ∀ child ∈ node.children,
      Serves excused .compact start serve (bound - node.isDelegate.toNat) child) :
    Attains excused
      (do
        if ← isEmpty handle then return Handle.empty
        else if ← isNullOnly handle then epsCarrying (← forestOf handle)
        else plain.compactParts serve handle node)
      engine (Yields .compact start (.residual handle) knots engine) := by
  refine (hUnderway.attains_isEmpty hValid).bind ?_
  rintro empty engine₁ ⟨hQuery₁, hEmpty⟩
  obtain ⟨hUnderway₁, hStep₁⟩ := hUnderway.consulted hQuery₁
  split
  · next hTrue =>
      have hNone := Grammar.not_meaning_of_not_inhabited (hEmpty.mp hTrue)
      exact attains_pure.mpr (((hUnderway₁.yields_empty hFounded).prepared hStep₁).unfolded
        (Grammar.unfolds_empty hNone))
  refine (hUnderway₁.attains_isNullOnly hValid).bind ?_
  rintro nullOnly engine₂ ⟨hQuery₂, hNullOnly⟩
  obtain ⟨hUnderway₂, hStep₂⟩ := hUnderway₁.consulted hQuery₂
  have hSteps := hStep₁.trans hStep₂
  split
  · next hTrue =>
      obtain ⟨hNullable, hConsuming⟩ := hNullOnly.mp hTrue
      refine (hUnderway₂.attains_forestOf hValid hExcused).bind ?_
      rintro trees engine₃ ⟨hQuery₃, hGathers⟩
      obtain ⟨hUnderway₃, hStep₃⟩ := hUnderway₂.consulted hQuery₃
      refine (hUnderway₃.attains_epsCarrying hFounded trees).mono ?_
      rintro result after ⟨hAfter, hStep₄, hResult⟩
      have hExact := hGathers.mono fun (h : after.Untruncated) => h.of_suffix hStep₄.journal
      exact Yields.unfolded
        ⟨knots, hAfter, (hSteps.trans hStep₃).trans hStep₄, .eps hResult⟩
        (Grammar.unfolds_eps hNullable hConsuming hExact)
  · -- Queries do not touch what the task remembers.
    have hStill : Task.compact.remembered engine₂.tables handle = none :=
      ((hQuery₁.trans hQuery₂).remembered .compact handle).trans hNew
    refine (attains_compactParts hUnderway₂ hValid
      ((hSteps.unmet_le start.grammar).trans hBound) hExcused hNode hStill hServe).mono
      fun result after hYields => hYields.prepared hSteps

/-- The compacted form of a node, along one of the laws for its kind. -/
theorem attains_compactNode (hNode : start.grammar.get? handle = some node)
    (hNew : Task.compact.remembered engine.tables handle = none)
    (hServe : ∀ child ∈ node.children,
      Serves excused .compact start serve (bound - node.isDelegate.toNat) child) :
    Attains excused (plain.compactNode serve handle node) engine
      (Yields .compact start (.residual handle) knots engine) := by
  have hWhole : Yields .compact start (.residual handle) knots engine handle engine :=
    Yields.unfolded ⟨knots, hUnderway, Advances.refl, .whole hValid⟩ Grammar.unfolds_whole
  have hOther := attains_compact_unless_trivial hUnderway hValid hBound hExcused hFounded
    hNode hNew hServe
  cases node with
  | empty => exact attains_pure.mpr hWhole
  | eps forest => exact attains_pure.mpr hWhole
  | token matcher => exact attains_pure.mpr hWhole
  | union left right => exact hOther
  | sequence first second => exact hOther
  | repetition inner => exact hOther
  | reduction inner reducer => exact hOther
  | delegate target => exact hOther

end Parts

/-- Looking a compacted node up is a query. -/
theorem attains_rememberedCompaction (hInformed : engine.Informed) :
    Attains excused (rememberedCompaction handle) engine fun found after =>
      engine.Consulted after ∧ found = Task.compact.remembered engine.tables handle := by
  unfold rememberedCompaction
  rw [attains_remember]
  exact ⟨⟨rfl, rfl, fun _ => rfl, engine.tables.compact.peek?_lookup handle,
    List.suffix_rfl, hInformed.nullable, hInformed.inhabited, hInformed.consuming,
    hInformed.forest⟩, engine.tables.compact.lookup_fst handle⟩

/-- A compacted node is a residual by the empty word, and the fuel lasts if there is
enough. -/
theorem serves_compactWithin (hFounded : start.grammar.Founded)
    (hExcused : start.configuration.forestPassLimit = 0 → excused) {fuel : Nat}
    (hValid : start.grammar.Valid handle)
    (hFuelled : ¬ excused → Fuelled start bound fuel handle) :
    Serves excused .compact start (plain.compactWithin fuel) bound handle := by
  induction fuel generalizing handle bound with
  | zero =>
      intro knots engine _ _
      exact attains_throw.mpr (by_contra fun hNot => nomatch (hFuelled hNot).2)
  | succ fuel ih =>
      intro knots engine hUnderway hBound
      obtain ⟨node, hNode, -⟩ := hValid.get?
      refine hUnderway.attains_recollected hValid hNode
        (attains_rememberedCompaction hUnderway.informed) fun after hAfter hNew hLe => ?_
      -- Only a delegate that is entered for the first time lowers the bound.
      refine attains_compactNode hAfter hValid (hLe.trans hBound) hExcused hFounded hNode hNew
        fun child hChild => ih (hValid.child hNode hChild) fun hNot => ?_
      refine (hFuelled hNot).child hValid hNode hChild fun hDelegate => ?_
      exact (Task.unmet_pos hNode hDelegate hNew).trans_le (hLe.trans hBound)

end Engine

end DerivativeParsing
