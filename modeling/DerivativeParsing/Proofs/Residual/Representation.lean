import DerivativeParsing.Proofs.Residual.Basic

namespace DerivativeParsing
namespace Grammar

/-!
# Nodes that represent plans

While residuals are being built the grammar grows by nodes that represent plans.  The
plans are finite, although the graph may be cyclic: where a delegate was entered before,
the plan ends in a knot, a placeholder that stands for the delegate's residual without
showing it.  When all knots are tied, every placeholder points at a node that represents
the residual of the delegate's target.

From then on a node that represents a residual is one (`Represents.residual`):

* its matches are matches of the plan, by induction on their depth, which every tied knot
  lowers (`Represents.sound`);
* the matches of the plan are its matches, by induction on the depth of the matches they
  come from, which every knot lowers on the other side (`Represents.complete`);
* every node that it reaches represents a plan, too (`Represents.reach`), so it is valid,
  and fruitful and guarded if the plan is.
-/

variable {Λ : Lexicon} {exact exact' : Prop} {grammar grown later : Grammar Λ}
  {word : List Λ.Token} {knots knots' : Handle → Handle → Prop} {plan : Plan Λ}
  {handle : Handle}

/-- A node of the grown grammar represents a plan over the grammar it has grown from.
`knots` holds the placeholders, each with the delegate it was opened for. -/
inductive Represents (exact : Prop) (grammar grown : Grammar Λ) (word : List Λ.Token)
    (knots : Handle → Handle → Prop) : Plan Λ → Handle → Prop
  /-- The residual was there before. -/
  | settled {node handle : Handle} :
      Residual exact grammar grammar word node handle →
      Represents exact grammar grown word knots (.residual node) handle
  /-- The residual is still being built, or was when it was used here. -/
  | knot {node handle : Handle} : knots node handle →
      Represents exact grammar grown word knots (.residual node) handle
  /-- The residual was built by a plan. -/
  | unfolded {node handle : Handle} {plan : Plan Λ} :
      Unfolds exact grammar word node plan →
      Represents exact grammar grown word knots plan handle →
      Represents exact grammar grown word knots (.residual node) handle
  | whole {handle : Handle} : grammar.Valid handle →
      Represents exact grammar grown word knots (.whole handle) handle
  | empty {handle : Handle} : grown.get? handle = some .empty →
      Represents exact grammar grown word knots .empty handle
  | eps {handle : Handle} {forest : Forest Λ.Token} :
      grown.get? handle = some (.eps forest) →
      Represents exact grammar grown word knots (.eps forest) handle
  | union {handle left right : Handle} {leftPlan rightPlan : Plan Λ} :
      grown.get? handle = some (.union left right) →
      Represents exact grammar grown word knots leftPlan left →
      Represents exact grammar grown word knots rightPlan right →
      Represents exact grammar grown word knots (.union leftPlan rightPlan) handle
  | sequence {handle first second : Handle} {firstPlan secondPlan : Plan Λ} :
      grown.get? handle = some (.sequence first second) →
      Represents exact grammar grown word knots firstPlan first →
      Represents exact grammar grown word knots secondPlan second →
      Represents exact grammar grown word knots (.sequence firstPlan secondPlan) handle
  | repetition {handle inner : Handle} {plan : Plan Λ} :
      grown.get? handle = some (.repetition inner) →
      Represents exact grammar grown word knots plan inner →
      Represents exact grammar grown word knots (.repetition plan) handle
  | reduction {handle inner : Handle} {plan : Plan Λ} {reducer : Reducer Λ} :
      grown.get? handle = some (.reduction inner reducer) →
      Represents exact grammar grown word knots plan inner →
      Represents exact grammar grown word knots (.reduction plan reducer) handle
  /-- A reduction of a reduction was folded into one. -/
  | fused {handle inner innermost : Handle} {plan : Plan Λ}
      {reducer innerReducer : Reducer Λ} :
      grown.get? handle = some (.reduction innermost (.compose reducer innerReducer)) →
      grown.get? inner = some (.reduction innermost innerReducer) →
      Represents exact grammar grown word knots plan inner →
      Represents exact grammar grown word knots (.reduction plan reducer) handle

/-- A knot is tied: its placeholder points at the residual of its delegate's target. -/
def Tied (exact : Prop) (grammar grown : Grammar Λ) (word : List Λ.Token)
    (knots : Handle → Handle → Prop) (node handle : Handle) : Prop :=
  ∃ target derived, grammar.get? node = some (.delegate (some target)) ∧
    grown.get? handle = some (.delegate (some derived)) ∧
    Represents exact grammar grown word knots (.residual target) derived

/-- A node goes on representing its plan while the grammar grows, more knots are opened
and exactness is lost. -/
theorem Represents.grow
    (hRepresents : Represents exact grammar grown word knots plan handle)
    (hExact : exact' → exact)
    (hGrows : grown.Grows later)
    (hKnots : ∀ node handle, knots node handle → knots' node handle) :
    Represents exact' grammar later word knots' plan handle := by
  induction hRepresents with
  | settled hResidual => exact .settled (hResidual.mono hExact)
  | knot hKnot => exact .knot (hKnots _ _ hKnot)
  | unfolded hUnfolds _ ih => exact .unfolded (hUnfolds.mono hExact) ih
  | whole hValid => exact .whole hValid
  | empty hNode => exact .empty (hGrows _ _ hNode nofun)
  | eps hNode => exact .eps (hGrows _ _ hNode nofun)
  | union hNode _ _ ihLeft ihRight => exact .union (hGrows _ _ hNode nofun) ihLeft ihRight
  | sequence hNode _ _ ihFirst ihSecond =>
      exact .sequence (hGrows _ _ hNode nofun) ihFirst ihSecond
  | repetition hNode _ ih => exact .repetition (hGrows _ _ hNode nofun) ih
  | reduction hNode _ ih => exact .reduction (hGrows _ _ hNode nofun) ih
  | fused hNode hInner _ ih =>
      exact .fused (hGrows _ _ hNode nofun) (hGrows _ _ hInner nofun) ih

/-- A tied knot stays tied while the grammar grows. -/
theorem Tied.grow {node : Handle} (hTied : Tied exact grammar grown word knots node handle)
    (hExact : exact' → exact) (hGrows : grown.Grows later)
    (hKnots : ∀ node handle, knots node handle → knots' node handle) :
    Tied exact' grammar later word knots' node handle := by
  obtain ⟨target, derived, hNode, hHandle, hDerived⟩ := hTied
  exact ⟨target, derived, hNode, hGrows _ _ hHandle (by simp),
    hDerived.grow hExact hGrows hKnots⟩

section Tied

variable (hGrows : grammar.Grows grown)
  (hTied : ∀ node handle, knots node handle →
    Tied exact grammar grown word knots node handle)

include hGrows hTied

/-- A node has no other matches than its plan. -/
theorem Represents.sound
    (hRepresents : Represents exact grammar grown word knots plan handle) (view : View)
    (depth : Nat) :
    grown.within view depth handle ≤
      plan.meaning (grammar.meaning view)
        (fun node => Meaning.after word (grammar.meaning view node)) := by
  induction depth generalizing plan handle with
  | zero => exact fun _ _ hMatch => hMatch.elim
  | succ depth ihDepth =>
  -- Within one depth the induction is on the plan; every node that is looked into
  -- lowers the depth, except for the two reductions that were folded into one.
  induction hRepresents with
  | @settled node handle hResidual =>
      refine le_trans (within_le_meaning (depth + 1) handle) ?_
      rw [(hResidual.valid.agrees hGrows).meaning_eq]
      exact hResidual.sound view
  | @knot node handle hKnot =>
      obtain ⟨target, derived, hNode, hHandle, hDerived⟩ := hTied node handle hKnot
      rw [within_succ hHandle, Plan.meaning, meaning_eq hNode]
      exact ihDepth hDerived
  | unfolded hUnfolds _ ih => exact le_trans ih (hUnfolds.sound view)
  | @whole handle hValid =>
      refine le_trans (within_le_meaning (depth + 1) handle) ?_
      rw [(hValid.agrees hGrows).meaning_eq]
      exact le_refl _
  | empty hNode =>
      rw [within_succ hNode]
      exact le_refl _
  | eps hNode =>
      rw [within_succ hNode]
      exact le_refl _
  | union hNode hLeft hRight =>
      rw [within_succ hNode]
      exact Meaning.union_mono (ihDepth hLeft) (ihDepth hRight)
  | sequence hNode hFirst hSecond =>
      rw [within_succ hNode]
      exact Meaning.sequence_mono (ihDepth hFirst) (ihDepth hSecond)
  | repetition hNode hInner =>
      rw [within_succ hNode]
      exact Meaning.iterated_mono (ihDepth hInner)
  | @reduction _ _ _ reducer hNode hInner =>
      rw [within_succ hNode]
      exact Meaning.reduced_mono reducer (ihDepth hInner)
  | fused hNode hInner _ ih =>
      rw [within_succ hNode]
      rintro string result ⟨given, hGiven, hResult⟩
      obtain ⟨between, hBetween, hResult⟩ := View.reduces_compose.mp hResult
      refine ⟨between, ih string between ?_, hResult⟩
      rw [within_succ hInner]
      exact ⟨given, hGiven, hBetween⟩

/-- A node has all the matches of its plan. -/
theorem Represents.complete
    (hRepresents : Represents exact grammar grown word knots plan handle) {view : View}
    (hView : view.Exact exact) (depth : Nat) :
    plan.meaning (grammar.meaning view)
        (fun node => Meaning.after word (grammar.within view depth node)) ≤
      grown.meaning view handle := by
  induction depth using Nat.strongRecOn generalizing plan handle with
  | ind depth ihDepth =>
  -- Only a residual that was built lowers the depth: a plan of other nodes has matches
  -- at depth zero, so the induction has to reach it with the plan.
  induction hRepresents with
  | @settled node handle hResidual =>
      rw [(hResidual.valid.agrees hGrows).meaning_eq]
      exact le_trans (Meaning.after_mono word (within_le_meaning depth node))
        (hResidual.complete view hView)
  | @knot node handle hKnot =>
      obtain ⟨target, derived, hNode, hHandle, hDerived⟩ := hTied node handle hKnot
      cases depth with
      | zero => exact fun _ _ hMatch => hMatch.elim
      | succ depth =>
          rw [Plan.meaning, within_succ hNode, meaning_eq hHandle]
          exact ihDepth depth (Nat.lt_succ_self depth) hDerived
  | unfolded hUnfolds hPlan _ =>
      cases depth with
      | zero => exact fun _ _ hMatch => hMatch.elim
      | succ depth =>
          exact le_trans (hUnfolds.complete view hView depth)
            (ihDepth depth (Nat.lt_succ_self depth) hPlan)
  | @whole handle hValid =>
      rw [(hValid.agrees hGrows).meaning_eq]
      exact le_refl _
  | empty hNode =>
      rw [meaning_eq hNode]
      exact le_refl _
  | eps hNode =>
      rw [meaning_eq hNode]
      exact le_refl _
  | union hNode _ _ ihLeft ihRight =>
      rw [meaning_eq hNode]
      exact Meaning.union_mono ihLeft ihRight
  | sequence hNode _ _ ihFirst ihSecond =>
      rw [meaning_eq hNode]
      exact Meaning.sequence_mono ihFirst ihSecond
  | repetition hNode _ ih =>
      rw [meaning_eq hNode]
      exact Meaning.iterated_mono ih
  | @reduction _ _ _ reducer hNode _ ih =>
      rw [meaning_eq hNode]
      exact Meaning.reduced_mono reducer ih
  | fused hNode hInner _ ih =>
      rintro string result ⟨between, hBetween, hResult⟩
      have hBetween := ih string between hBetween
      rw [meaning_eq hInner] at hBetween
      obtain ⟨given, hGiven, hReduced⟩ := hBetween
      rw [meaning_eq hNode]
      exact ⟨given, hGiven, View.reduces_compose.mpr ⟨between, hReduced, hResult⟩⟩

/-- What a node that represents a plan points at represents a plan as well. -/
theorem Represents.child {child : Handle} {node : Node Λ}
    (hRepresents : Represents exact grammar grown word knots plan handle)
    (hNode : grown.get? handle = some node) (hChild : child ∈ node.children) :
    ∃ plan', Represents exact grammar grown word knots plan' child ∧
      (plan.Fruitful grammar → plan'.Fruitful grammar) ∧
      (plan.Guarded grammar → plan'.Guarded grammar) := by
  induction hRepresents generalizing node with
  | @settled _ handle hResidual =>
      -- Below a residual that was there before, every node is a plan of its own.
      rw [hResidual.valid.agrees hGrows handle (Reaches.refl handle)] at hNode
      have hReaches := reaches_child hNode hChild
      exact ⟨.whole child, .whole (hResidual.valid.mono hReaches),
        fun hFruitful => (hResidual.fruitful hFruitful).mono hReaches,
        fun hGuarded => (hResidual.guarded hGuarded).mono hReaches⟩
  | @knot source handle hKnot =>
      obtain ⟨target, derived, hSource, hHandle, hDerived⟩ := hTied source handle hKnot
      obtain rfl := Option.some.inj (hHandle.symm.trans hNode)
      obtain rfl := List.mem_singleton.mp hChild
      have hReaches := reaches_child hSource (List.mem_singleton_self target)
      exact ⟨.residual target, hDerived, fun hFruitful => hFruitful.mono hReaches,
        fun hGuarded => hGuarded.mono hReaches⟩
  | unfolded hUnfolds _ ih =>
      obtain ⟨plan', hPlan', hFruitful, hGuarded⟩ := ih hNode hChild
      exact ⟨plan', hPlan', fun h => hFruitful (hUnfolds.fruitful h),
        fun h => hGuarded (hUnfolds.guarded h)⟩
  | @whole handle hValid =>
      rw [hValid.agrees hGrows handle (Reaches.refl handle)] at hNode
      have hReaches := reaches_child hNode hChild
      exact ⟨.whole child, .whole (hValid.mono hReaches),
        fun hFruitful => Fruitful.mono hFruitful hReaches,
        fun hGuarded => Guarded.mono hGuarded hReaches⟩
  | empty hHandle =>
      obtain rfl := Option.some.inj (hHandle.symm.trans hNode)
      cases hChild
  | eps hHandle =>
      obtain rfl := Option.some.inj (hHandle.symm.trans hNode)
      cases hChild
  | union hHandle hLeft hRight =>
      obtain rfl := Option.some.inj (hHandle.symm.trans hNode)
      rcases Node.mem_children_union.mp hChild with rfl | rfl
      · exact ⟨_, hLeft, And.left, And.left⟩
      · exact ⟨_, hRight, And.right, And.right⟩
  | sequence hHandle hFirst hSecond =>
      obtain rfl := Option.some.inj (hHandle.symm.trans hNode)
      rcases Node.mem_children_sequence.mp hChild with rfl | rfl
      · exact ⟨_, hFirst, And.left, And.left⟩
      · exact ⟨_, hSecond, And.right, And.right⟩
  | repetition hHandle hInner =>
      obtain rfl := Option.some.inj (hHandle.symm.trans hNode)
      obtain rfl := List.mem_singleton.mp hChild
      exact ⟨_, hInner, id, id⟩
  | reduction hHandle hInner =>
      obtain rfl := Option.some.inj (hHandle.symm.trans hNode)
      obtain rfl := List.mem_singleton.mp hChild
      exact ⟨_, hInner, And.left, id⟩
  | fused hHandle hInner _ ih =>
      obtain rfl := Option.some.inj (hHandle.symm.trans hNode)
      obtain rfl := List.mem_singleton.mp hChild
      obtain ⟨plan', hPlan', hFruitful, hGuarded⟩ :=
        ih hInner (List.mem_singleton_self child)
      exact ⟨plan', hPlan', fun h => hFruitful h.1, hGuarded⟩

/-- Everything that a node which represents a plan reaches represents a plan. -/
theorem Represents.reach {other : Handle}
    (hRepresents : Represents exact grammar grown word knots plan handle)
    (hReaches : grown.Reaches handle other) :
    ∃ plan', Represents exact grammar grown word knots plan' other ∧
      (plan.Fruitful grammar → plan'.Fruitful grammar) ∧
      (plan.Guarded grammar → plan'.Guarded grammar) := by
  induction hReaches with
  | refl => exact ⟨plan, hRepresents, id, id⟩
  | @tail parent child _ hChild ih =>
      obtain ⟨plan', hPlan', hFruitful, hGuarded⟩ := ih
      unfold successors at hChild
      split at hChild
      · next node hNode =>
          obtain ⟨plan'', hPlan'', hFruitful', hGuarded'⟩ :=
            hPlan'.child hGrows hTied hNode hChild
          exact ⟨plan'', hPlan'', fun h => hFruitful' (hFruitful h),
            fun h => hGuarded' (hGuarded h)⟩
      · cases hChild

/-- A node that represents a plan is live, is no delegate without a target, and holds no
empty forest if the plan is fruitful. -/
theorem Represents.get?
    (hRepresents : Represents exact grammar grown word knots plan handle) :
    ∃ node, grown.get? handle = some node ∧ node ≠ .delegate none ∧
      (plan.Fruitful grammar → node.Fruitful) := by
  have hOld {handle : Handle} (hValid : grammar.Valid handle) :
      ∃ node, grown.get? handle = some node ∧ node ≠ .delegate none ∧
        (grammar.Fruitful handle → node.Fruitful) := by
    obtain ⟨node, hNode, hSet⟩ := hValid.get?
    exact ⟨node, hGrows handle node hNode hSet, hSet,
      fun hFruitful => hFruitful handle node (Reaches.refl handle) hNode⟩
  induction hRepresents with
  | settled hResidual =>
      obtain ⟨node, hNode, hSet, hFruitful⟩ := hOld hResidual.valid
      exact ⟨node, hNode, hSet, fun h => hFruitful (hResidual.fruitful h)⟩
  | @knot node handle hKnot =>
      obtain ⟨_, _, -, hHandle, -⟩ := hTied node handle hKnot
      exact ⟨_, hHandle, by simp, fun _ => trivial⟩
  | unfolded hUnfolds _ ih =>
      obtain ⟨node, hNode, hSet, hFruitful⟩ := ih
      exact ⟨node, hNode, hSet, fun h => hFruitful (hUnfolds.fruitful h)⟩
  | whole hValid => exact hOld hValid
  | empty hNode => exact ⟨_, hNode, by simp, fun _ => trivial⟩
  | eps hNode => exact ⟨_, hNode, by simp, id⟩
  | union hNode _ _ => exact ⟨_, hNode, by simp, fun _ => trivial⟩
  | sequence hNode _ _ => exact ⟨_, hNode, by simp, fun _ => trivial⟩
  | repetition hNode _ => exact ⟨_, hNode, by simp, fun _ => trivial⟩
  | reduction hNode _ => exact ⟨_, hNode, by simp, And.right⟩
  | fused hNode hInner _ ih =>
      obtain ⟨node, hSame, -, hFruitful⟩ := ih
      obtain rfl := Option.some.inj (hInner.symm.trans hSame)
      exact ⟨_, hNode, by simp, fun h => ⟨h.2, hFruitful h.1⟩⟩

/-- From a node that represents a plan of guarded nodes no plain steps run into a
cycle: the plan is finite, and a placeholder is a delegate. -/
theorem Represents.tame
    (hRepresents : Represents exact grammar grown word knots plan handle)
    (hGuarded : plan.Guarded grammar) : grown.Tame handle := by
  have hPlain {handle child : Handle} {node : Node Λ}
      (hNode : grown.get? handle = some node) (hStep : grown.Plain handle child) :
      node.isDelegate = false ∧ child ∈ node.children := by
    obtain ⟨other, hOther, hRest⟩ := hStep
    obtain rfl := Option.some.inj (hNode.symm.trans hOther)
    exact hRest
  induction hRepresents with
  | settled hResidual =>
      exact ((hResidual.valid.agrees hGrows).guarded (hResidual.guarded hGuarded)).tame
  | @knot node handle hKnot =>
      obtain ⟨_, _, -, hHandle, -⟩ := hTied node handle hKnot
      exact tame_of_plain fun child hStep => nomatch (hPlain hHandle hStep).1
  | unfolded hUnfolds _ ih => exact ih (hUnfolds.guarded hGuarded)
  | whole hValid => exact ((hValid.agrees hGrows).guarded hGuarded).tame
  | empty hNode => exact tame_of_plain fun child hStep => nomatch (hPlain hNode hStep).2
  | eps hNode => exact tame_of_plain fun child hStep => nomatch (hPlain hNode hStep).2
  | union hNode _ _ ihLeft ihRight =>
      refine tame_of_plain fun child hStep => ?_
      rcases Node.mem_children_union.mp (hPlain hNode hStep).2 with rfl | rfl
      · exact ihLeft hGuarded.1
      · exact ihRight hGuarded.2
  | sequence hNode _ _ ihFirst ihSecond =>
      refine tame_of_plain fun child hStep => ?_
      rcases Node.mem_children_sequence.mp (hPlain hNode hStep).2 with rfl | rfl
      · exact ihFirst hGuarded.1
      · exact ihSecond hGuarded.2
  | repetition hNode _ ih =>
      refine tame_of_plain fun child hStep => ?_
      obtain rfl := List.mem_singleton.mp (hPlain hNode hStep).2
      exact ih hGuarded
  | reduction hNode _ ih =>
      refine tame_of_plain fun child hStep => ?_
      obtain rfl := List.mem_singleton.mp (hPlain hNode hStep).2
      exact ih hGuarded
  | fused hNode hInner _ ih =>
      refine tame_of_plain fun child hStep => ?_
      obtain rfl := List.mem_singleton.mp (hPlain hNode hStep).2
      exact (ih hGuarded).child ⟨_, hInner, rfl, List.mem_singleton_self child⟩

/-- A node that represents a residual is one. -/
theorem Represents.residual {node : Handle}
    (hRepresents : Represents exact grammar grown word knots (.residual node) handle) :
    Residual exact grammar grown word node handle where
  valid other hReaches := by
    obtain ⟨plan, hPlan, -, -⟩ := hRepresents.reach hGrows hTied hReaches
    obtain ⟨found, hFound, hSet, -⟩ := hPlan.get? hGrows hTied
    exact ⟨found, hFound, hSet⟩
  sound view := by
    rintro string result ⟨depth, hMatch⟩
    exact hRepresents.sound hGrows hTied view depth string result hMatch
  complete view hView := by
    rintro string result ⟨depth, hMatch⟩
    exact hRepresents.complete hGrows hTied hView depth string result hMatch
  fruitful hFruitful other found hReaches hFound := by
    obtain ⟨plan, hPlan, hKeeps, -⟩ := hRepresents.reach hGrows hTied hReaches
    obtain ⟨same, hSame, -, hBears⟩ := hPlan.get? hGrows hTied
    obtain rfl := Option.some.inj (hFound.symm.trans hSame)
    exact hBears (hKeeps hFruitful)
  guarded hGuarded other hReaches := by
    obtain ⟨plan, hPlan, -, hKeeps⟩ := hRepresents.reach hGrows hTied hReaches
    exact hPlan.tame hGrows hTied (hKeeps hGuarded) other Relation.ReflTransGen.refl

end Tied

end Grammar

end DerivativeParsing
