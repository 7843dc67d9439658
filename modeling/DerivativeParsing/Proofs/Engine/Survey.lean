import DerivativeParsing.Proofs.Engine.Coherence

namespace DerivativeParsing

/-!
# Surveys of inhabitation

A table surveys a grammar if it speaks of valid nodes only, and of all that they reach
(`Grammar.Surveyed`).  The equation of inhabitation asks for every child of its node, so what
a query finds makes a survey of a survey, and adds its root to it
(`Grammar.Surveyed.exists_solve`), wherever the nodes are that were known before.
-/

open Fixpoint

namespace Memo

variable {κ ν : Type} [Ord κ] [Std.TransOrd κ] {memo : Memo κ ν} {key : κ}

theorem contains_iff : memo.contains key = true ↔ memo.peek? key ≠ none := by
  rw [contains, peek?, Std.TreeMap.contains_eq_isSome_getElem?, Option.isSome_iff_ne_none]

theorem contains_lookup (other : κ) :
    (memo.lookup key).2.contains other = memo.contains other := by
  rw [Bool.eq_iff_iff, contains_iff, contains_iff, peek?_lookup]

theorem contains_insert [Std.LawfulEqOrd κ] (other : κ) (value : ν) :
    (memo.insert other value).contains key = true ↔
      key = other ∨ memo.contains key = true := by
  rw [contains, insert, Std.TreeMap.contains_insert, Bool.or_eq_true, beq_iff_eq,
    Std.LawfulEqOrd.compare_eq_iff_eq, eq_comm (a := other), contains]

/-- The keys of a table that was extended are the old ones and the new ones. -/
theorem contains_extend [Std.LawfulEqOrd κ] {results : List (κ × ν)} :
    (memo.extend results).contains key = true ↔
      memo.contains key = true ∨ ∃ value, (key, value) ∈ results := by
  unfold extend
  induction results generalizing memo with
  | nil => simp
  | cons result rest ih =>
      obtain ⟨first, found⟩ := result
      rw [List.foldl_cons, ih, contains_insert]
      constructor
      · rintro ((rfl | hOld) | ⟨value, hRest⟩)
        · exact Or.inr ⟨found, List.mem_cons_self⟩
        · exact Or.inl hOld
        · exact Or.inr ⟨value, List.mem_cons_of_mem _ hRest⟩
      · rintro (hOld | ⟨value, hMem⟩)
        · exact Or.inl (Or.inr hOld)
        · rcases List.mem_cons.mp hMem with hFirst | hRest
          · exact Or.inl (Or.inl (congrArg Prod.fst hFirst))
          · exact Or.inr ⟨value, hRest⟩

end Memo

namespace Grammar

variable {Λ : Lexicon} {grammar grammar' : Grammar Λ} {known : Memo Handle Bool}
  {root handle other child : Handle} {node : Node Λ}

/-- A table speaks of valid nodes, and of all that they reach. -/
def Surveyed (grammar : Grammar Λ) (known : Memo Handle Bool) : Prop :=
  ∀ handle, known.contains handle = true →
    grammar.Valid handle ∧ ∀ other, grammar.Reaches handle other → known.contains other = true

/-- The equation of inhabitation asks for every child, whatever the others are worth. -/
theorem inhabitedEquation_asks (hNode : grammar.get? handle = some node)
    (hChild : child ∈ node.children) (seen : Handle → Bool) :
    (grammar.inhabitedEquation handle).Asks seen child := by
  simp only [inhabitedEquation, inspect_of_get? hNode, Inquiry.answer_bind]
  cases node with
  | empty => cases hChild
  | eps forest => cases hChild
  | token matcher => cases hChild
  | union left right => simpa [Node.children] using hChild
  | sequence first second => simpa [Node.children] using hChild
  | repetition inner => simpa [Node.children] using hChild
  | reduction inner reducer => simpa [Node.children] using hChild
  | delegate target =>
      cases target with
      | none => cases hChild
      | some target => simpa [Node.children] using hChild

/-- What is known or covered by a solution of inhabitation reaches nothing else. -/
theorem Surveyed.covers_of_reaches (hSurveyed : grammar.Surveyed known)
    {assignment : Handle → Bool} {covered : Handle → Prop}
    (hSolves : (grammar.inhabitation known).Solves id grammar.Valid root assignment covered)
    (hHandle : known.contains handle = true ∨ covered handle)
    (hReaches : grammar.Reaches handle other) :
    known.contains other = true ∨ covered other := by
  induction hReaches with
  | refl => exact hHandle
  | @tail parent child _ hChild ih =>
      rcases ih with hKnown | hCovered
      · exact Or.inl ((hSurveyed parent hKnown).2 child (Relation.ReflTransGen.single hChild))
      · obtain ⟨node, hNode, -⟩ := (hSolves.bounded parent hCovered).1.get?
        obtain ⟨seen, -, -, hAsks⟩ := hSolves.equation parent hCovered
        refine (hAsks child ?_).imp_left Memo.contains_iff.mpr
        exact inhabitedEquation_asks hNode ((mem_successors hNode).mp hChild) seen

/-- A query of inhabitation about a valid node is solved, and adds to a survey the node and
all that it reaches. -/
theorem Surveyed.exists_solve (hSurveyed : grammar.Surveyed known) (hRoot : grammar.Valid root) :
    ∃ solution notes,
      (grammar.inhabitation known).solve grammar.budget .unbounded root =
        (.ok solution, notes) ∧
      grammar.Surveyed (known.extend solution.values) ∧
      (known.extend solution.values).contains root = true := by
  have hTracks := grammar.inhabitation_tracks known
  have hLength := grammar.length_handles_le
  have hBudget : grammar.handles.length < grammar.capacity + 2 := by omega
  have hDepth : grammar.handles.length < grammar.budget.depth := hBudget
  have hPasses : grammar.handles.length < grammar.budget.passes := hBudget
  obtain ⟨solution, notes, hSolve, hConverged⟩ :=
    System.exists_solve_eq_ok_of_monotone hTracks.monotone (fun _ h => h.mem_handles) hRoot
      hDepth hPasses
  have hRespects : (grammar.inhabitation known).Respects grammar.Valid fun _ _ => True :=
    ⟨fun key hKey _ => (hTracks.safe key hKey).stays, fun _ _ _ => trivial,
      fun _ _ _ _ _ _ _ => trivial⟩
  obtain ⟨-, -, hSolved, -⟩ := hRespects.solve (fun _ => trivial) hRoot hSolve
  obtain ⟨assignment, covered, hSolves, -, hEntries⟩ := hSolved hConverged
  have hContains (handle : Handle) : (known.extend solution.values).contains handle = true ↔
      known.contains handle = true ∨ covered handle := by
    simp [Memo.contains_extend, hEntries]
  refine ⟨solution, notes, hSolve, fun handle hHandle => ⟨?_, fun other hReaches => ?_⟩, ?_⟩
  · rcases (hContains handle).mp hHandle with hKnown | hCovered
    · exact (hSurveyed handle hKnown).1
    · exact (hSolves.bounded handle hCovered).1
  · exact (hContains other).mpr
      (hSurveyed.covers_of_reaches hSolves ((hContains handle).mp hHandle) hReaches)
  · exact (hContains root).mpr (hSolves.root.imp_left Memo.contains_iff.mpr)

/-- Counting a look-up leaves a survey one. -/
theorem Surveyed.lookup (hSurveyed : grammar.Surveyed known) (key : Handle) :
    grammar.Surveyed (known.lookup key).2 := by
  intro handle hHandle
  simp only [Memo.contains_lookup] at hHandle ⊢
  exact hSurveyed handle hHandle

/-- Growth of the grammar leaves a survey one. -/
theorem Surveyed.grows (hSurveyed : grammar.Surveyed known) (hGrows : grammar.Grows grammar') :
    grammar'.Surveyed known := by
  intro handle hHandle
  obtain ⟨hValid, hReached⟩ := hSurveyed handle hHandle
  have hAgrees := hValid.agrees hGrows
  exact ⟨hAgrees.valid hValid, fun other hReaches =>
    hReached other (hAgrees.reaches_of_reaches hReaches)⟩

/-- A collection leaves a survey one that was swept: what is live reaches live nodes only. -/
theorem Surveyed.collect (hSurveyed : grammar.Surveyed known) (roots : List Handle) :
    (grammar.collect roots).2.Surveyed (known.sweep (grammar.collect roots).2.contains).2 := by
  have hContains (handle : Handle) :
      (known.sweep (grammar.collect roots).2.contains).2.contains handle = true ↔
        known.contains handle = true ∧ (grammar.collect roots).2.contains handle = true := by
    simp only [Memo.contains_iff, Option.ne_none_iff_exists', Memo.peek?_sweep_eq_some]
    simp [anchors]
  intro handle hHandle
  obtain ⟨hKnown, hLive⟩ := (hContains handle).mp hHandle
  obtain ⟨hValid, hReached⟩ := hSurveyed handle hKnown
  obtain ⟨node, hNode⟩ := contains_eq_true_iff.mp hLive
  have hAgrees := hValid.agrees_collect (kept_of_collect_get? hNode)
  refine ⟨hAgrees.valid hValid, fun other hReaches => (hContains other).mpr ⟨?_, ?_⟩⟩
  · exact hReached other (hAgrees.reaches_of_reaches hReaches)
  · obtain ⟨found, hFound, -⟩ := hAgrees.valid hValid other hReaches
    exact contains_eq_true_iff.mpr ⟨found, hFound⟩

end Grammar

namespace Engine

variable {Λ : Lexicon} {engine : Engine Λ} {handle : Handle}

/-- The table of inhabited nodes surveys the grammar. -/
def Surveyed (engine : Engine Λ) : Prop := engine.grammar.Surveyed engine.tables.inhabited

/-- After the question whether a node is inhabited the survey includes the node, and all that
it included before. -/
theorem Surveyed.attains_isInhabited (hSurveyed : engine.Surveyed)
    (hValid : engine.grammar.Valid handle) :
    Attains False (isInhabited handle) engine fun _ after =>
      after.grammar = engine.grammar ∧ after.Surveyed ∧
        after.tables.inhabited.contains handle = true ∧
        ∀ other, engine.tables.inhabited.contains other = true →
          after.tables.inhabited.contains other = true := by
  have hCounted := Grammar.Surveyed.lookup hSurveyed handle
  have hContains (other : Handle) :
      (engine.tables.inhabited.lookup handle).2.contains other =
        engine.tables.inhabited.contains other := Memo.contains_lookup other
  unfold isInhabited
  rw [attains_bind, attains_remember, Memo.lookup_fst]
  cases hFound : engine.tables.inhabited.peek? handle with
  | some value =>
      refine attains_pure.mpr ⟨rfl, hCounted, ?_, fun other hOther => (hContains other).trans hOther⟩
      rw [hContains, Memo.contains_iff, hFound]
      simp
  | none =>
      obtain ⟨solution, notes, hSolve, hAfter, hRoot⟩ := hCounted.exists_solve hValid
      rw [attains_bind, attains_solve hSolve, attains_bind, attains_remember, attains_pure]
      refine ⟨rfl, hAfter, hRoot, fun other hOther => ?_⟩
      exact Memo.contains_extend.mpr (Or.inl ((hContains other).trans hOther))

end Engine

end DerivativeParsing
