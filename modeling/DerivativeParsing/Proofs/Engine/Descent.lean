import DerivativeParsing.Proofs.Engine.Underway

namespace DerivativeParsing

/-!
# Descending into the parts of a node

A task takes a node apart and asks for the residuals of its parts.  `Serves` says that
the parts are taken care of, as long as not too many delegates are left to be entered.
On this rest the rules for building nodes out of the parts' results, which derivation and
compaction share.

The depth of a descent is bounded: a step into a part of a node lowers the rank, unless
the node is a delegate, and a delegate is one less to be entered (`Fuelled.child`).
-/

namespace Engine

variable {Λ : Lexicon} {excused : Prop} {task : Task Λ} {start engine after : Engine Λ}
  {knots : Handle → Handle → Prop} {plan : Plan Λ} {handle : Handle} {node : Node Λ}
  {serve : Handle → Action Λ Handle} {bound : Nat}

/-- A node is taken care of whenever at most so many delegates are left. -/
def Serves (excused : Prop) (task : Task Λ) (start : Engine Λ)
    (serve : Handle → Action Λ Handle) (bound : Nat) (handle : Handle) : Prop :=
  ∀ knots engine, Underway task start knots engine →
    task.unmet start.grammar engine.tables ≤ bound →
    Attains excused (serve handle) engine (Yields task start (.residual handle) knots engine)

/-- There is fuel enough for a descent: one layer of nodes for each delegate left. -/
def Fuelled (start : Engine Λ) (bound fuel : Nat) (handle : Handle) : Prop :=
  start.grammar.Guarded handle ∧
    bound * (start.grammar.capacity + 1) + start.grammar.rank handle < fuel

/-- A step into a part of a node uses up one unit of fuel at most. -/
theorem Fuelled.child {fuel : Nat} {child : Handle}
    (hFuelled : Fuelled start bound (fuel + 1) handle)
    (hValid : start.grammar.Valid handle) (hNode : start.grammar.get? handle = some node)
    (hChild : child ∈ node.children) (hBound : node.isDelegate = true → 0 < bound) :
    Fuelled start (bound - node.isDelegate.toNat) fuel child := by
  obtain ⟨hGuarded, hFuel⟩ := hFuelled
  have hBelow := hGuarded.child hNode hChild
  refine ⟨hBelow, ?_⟩
  cases hDelegate : node.isDelegate with
  | false =>
      -- The same delegates are left, and the rank goes down.
      have hRank := Grammar.rank_lt ⟨node, hNode, hDelegate, hChild⟩
        (hValid.child hNode hChild).mem_handles (hBelow child (Grammar.Reaches.refl child))
      rw [Bool.toNat_false, Nat.sub_zero]
      omega
  | true =>
      -- One delegate less pays for any rank.
      have hRank := start.grammar.rank_le child
      obtain ⟨smaller, rfl⟩ := Nat.exists_eq_succ_of_ne_zero (hBound hDelegate).ne'
      rw [Bool.toNat_true, Nat.succ_sub_one]
      rw [Nat.succ_mul] at hFuel
      omega

/-- At the start the bound of the grammar is fuel enough. -/
theorem fuelled_descentBound (hGuarded : start.grammar.Guarded handle) :
    Fuelled start start.grammar.capacity (start.grammar.descentBound + 1) handle := by
  refine ⟨hGuarded, ?_⟩
  have hRank := start.grammar.rank_le handle
  unfold Grammar.descentBound
  rw [Nat.succ_mul]
  omega

/-- The plan that a step follows may be replaced by the node it is right for. -/
theorem Yields.unfolded {result : Handle}
    (hYields : Yields task start plan knots engine result after)
    (hUnfolds : start.grammar.Unfolds after.Untruncated task.word handle plan) :
    Yields task start (.residual handle) knots engine result after := by
  obtain ⟨knots', hUnderway, hAdvances, hRepresents⟩ := hYields
  exact ⟨knots', hUnderway, hAdvances, .unfolded hUnfolds hRepresents⟩

theorem Yields.journal {result : Handle}
    (hYields : Yields task start plan knots engine result after) :
    engine.journal <:+ after.journal := by
  obtain ⟨knots', -, hAdvances, -⟩ := hYields
  exact hAdvances.journal

/-- What a step yields may have been prepared before. -/
theorem Yields.prepared {middle : Engine Λ} {between : Handle → Handle → Prop} {result : Handle}
    (hYields : Yields task start plan between middle result after)
    (hAdvances : Advances task start knots engine between middle) :
    Yields task start plan knots engine result after := by
  obtain ⟨knots', hUnderway, hOnwards, hRepresents⟩ := hYields
  exact ⟨knots', hUnderway, hAdvances.trans hOnwards, hRepresents⟩

section Build

variable (hUnderway : Underway task start knots engine)

include hUnderway

theorem Underway.attains_alloc (node : Node Λ) :
    Attains excused (alloc node) engine fun result after =>
      Underway task start knots after ∧ Advances task start knots engine knots after ∧
        after.grammar.get? result = some node := by
  rw [Engine.attains_alloc]
  obtain ⟨hAfter, hAdvances⟩ := hUnderway.allocated node
  exact ⟨hAfter, hAdvances, get?_allocated engine node⟩

/-- A node is built out of the residuals of two others. -/
theorem Underway.attains_both {first second : Handle}
    (hBound : task.unmet start.grammar engine.tables ≤ bound)
    (hFirst : Serves excused task start serve bound first)
    (hSecond : Serves excused task start serve bound second)
    (combine : Handle → Handle → Node Λ)
    (hPlan : ∀ {exact : Prop} {grown : Grammar Λ} {knots : Handle → Handle → Prop}
      {left right result : Handle}, grown.get? result = some (combine left right) →
      start.grammar.Represents exact grown task.word knots (.residual first) left →
      start.grammar.Represents exact grown task.word knots (.residual second) right →
      start.grammar.Represents exact grown task.word knots plan result) :
    Attains excused
      (do
        let left ← serve first
        let right ← serve second
        alloc (combine left right))
      engine (Yields task start plan knots engine) := by
  refine (hFirst knots engine hUnderway hBound).bind ?_
  rintro left middle ⟨between, hMiddle, hStep, hLeft⟩
  have hLeaves := (hStep.unmet_le start.grammar).trans hBound
  refine (hSecond between middle hMiddle hLeaves).bind ?_
  rintro right last ⟨knots', hLast, hStep', hRight⟩
  refine (hLast.attains_alloc (combine left right)).mono ?_
  rintro result after ⟨hAfter, hStep'', hResult⟩
  refine ⟨knots', hAfter, (hStep.trans hStep').trans hStep'', hPlan hResult ?_ ?_⟩
  · exact (hStep'.trans hStep'').represents hLeft
  · exact hStep''.represents hRight

variable (hFounded : start.grammar.Founded)

include hFounded

/-- The node without matches is there from the start. -/
theorem Underway.yields_empty :
    Yields task start .empty knots engine Handle.empty engine :=
  ⟨knots, hUnderway, Advances.refl, .empty (hUnderway.keeps.get? hFounded.get?_empty)⟩

theorem Underway.attains_epsCarrying (trees : Forest Λ.Token) :
    Attains excused (epsCarrying trees) engine fun result after =>
      Underway task start knots after ∧ Advances task start knots engine knots after ∧
        after.grammar.get? result = some (.eps trees) := by
  unfold epsCarrying
  split
  · next hNil =>
      rw [(Forest.isNil_iff trees).mp hNil, attains_pure]
      exact ⟨hUnderway, Advances.refl, hUnderway.keeps.get? hFounded.get?_eps⟩
  · exact hUnderway.attains_alloc (.eps trees)

end Build

end Engine

end DerivativeParsing
