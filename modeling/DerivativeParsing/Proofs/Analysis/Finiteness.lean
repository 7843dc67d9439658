import Mathlib.Data.Set.Finite.Lattice
import DerivativeParsing.Proofs.Analysis.Forests
import DerivativeParsing.Proofs.Fixpoint.Rounds

namespace DerivativeParsing

/-!
# How many rounds a finite forest takes

The forest equations of a root can be applied in rounds, from the forests that are known
(`Reaped`).  If no tree is found for the first time in some round, the rounds before it
have found all trees (`suffices_of_not_fresh`).  Two numbers of rounds suffice for forests
that are finite in reach of the root:

* as many as there are trees, since every round before the last finds another one
  (`suffices_ncard_crop`);
* as many as there are nodes to evaluate, if the reducers on cycles make trees larger
  (`suffices_ncard_evaluated`).  For a tree that is found later has come around a cycle and
  grown on it, and then the trees of that cycle grow without end.
-/

open Fixpoint

namespace Reducer

variable {Λ : Lexicon} {reducer : Reducer Λ} {tree result : Tree Λ.Token}

/-- A reducer that has a result for some tree holds no empty forest. -/
theorem fruitful_of_mem_apply (hResult : result ∈ reducer.apply tree) : reducer.Fruitful := by
  induction reducer generalizing tree result with
  | map name => exact trivial
  | prepend forest =>
      obtain ⟨left, hLeft, -⟩ := mem_apply_prepend.mp hResult
      exact ⟨left, hLeft⟩
  | append forest =>
      obtain ⟨right, hRight, -⟩ := mem_apply_append.mp hResult
      exact ⟨right, hRight⟩
  | cons => exact trivial
  | compose outer inner ihOuter ihInner =>
      obtain ⟨between, hBetween, hOuter⟩ := mem_apply_compose.mp hResult
      exact ⟨ihOuter hOuter, ihInner hBetween⟩

/-- The reducer only pairs trees with others. -/
def Pairs : Reducer Λ → Prop
  | map _ => False
  | prepend _ => True
  | append _ => True
  | cons => False
  | compose outer inner => outer.Pairs ∧ inner.Pairs

theorem Pairs.lt_sizeOf (hPairs : reducer.Pairs) (hResult : result ∈ reducer.apply tree) :
    sizeOf tree < sizeOf result := by
  induction reducer generalizing tree result with
  | map name => exact hPairs.elim
  | prepend forest =>
      obtain ⟨left, -, rfl⟩ := mem_apply_prepend.mp hResult
      simp
  | append forest =>
      obtain ⟨right, -, rfl⟩ := mem_apply_append.mp hResult
      simp
      omega
  | cons => exact hPairs.elim
  | compose outer inner ihOuter ihInner =>
      obtain ⟨between, hBetween, hOuter⟩ := mem_apply_compose.mp hResult
      exact (ihInner hPairs.2 hBetween).trans (ihOuter hPairs.1 hOuter)

end Reducer

namespace Grammar

variable {Λ : Lexicon} {grammar : Grammar Λ} {known : Memo Handle (Forest Λ.Token)}
  {root handle child : Handle} {node : Node Λ} {tree : Tree Λ.Token} {rounds : Nat}

/-- The trees that the forest equations give in so many rounds. -/
def Reaped (grammar : Grammar Λ) (known : Memo Handle (Forest Λ.Token)) :
    Nat → Handle → Tree Λ.Token → Prop :=
  (grammar.emptyMatches known).Found View.trees.holds (grammar.emptyStep .trees)

/-- A tree of a demanded node that a round finds for the first time. -/
structure Fresh (grammar : Grammar Λ) (known : Memo Handle (Forest Λ.Token))
    (root : Handle) (rounds : Nat) (handle : Handle) (tree : Tree Λ.Token) : Prop where
  demanded : (grammar.emptyMatches known).Demanded root handle
  found : grammar.Reaped known (rounds + 1) handle tree
  missing : ¬ grammar.Reaped known rounds handle tree

section Demand

theorem reaches_of_demanded (hValid : grammar.Valid root)
    (hDemanded : (grammar.emptyMatches known).Demanded root handle) :
    grammar.Reaches root handle := by
  induction hDemanded with
  | root => exact Reaches.refl root
  | @asked key other seen _ _ hAsks ih =>
      obtain ⟨node, hNode, -⟩ := hValid key ih
      exact ih.trans (reaches_child hNode ((asks_forestEquation hNode seen).mp hAsks))

theorem demanded_child (hNode : grammar.get? handle = some node)
    (hDemanded : (grammar.emptyMatches known).Demanded root handle)
    (hKnown : known.peek? handle = none) (hChild : child ∈ node.children) :
    (grammar.emptyMatches known).Demanded root child := by
  have hAsks : (grammar.forestEquation handle).Asks (fun _ => ∅) child :=
    (asks_forestEquation hNode _).mpr hChild
  exact .asked hDemanded hKnown hAsks

/-- A forest query can be measured by the rounds of its equations. -/
abbrev Paced (grammar : Grammar Λ) (known : Memo Handle (Forest Λ.Token)) (root : Handle) :
    Prop :=
  (grammar.emptyMatches known).Paced grammar.Valid View.trees.holds
    (grammar.emptyStep .trees) root

/-- Forest queries are measured by the rounds of their equations, if the forests that are
known are right. -/
theorem paced_emptyMatches (hValid : grammar.Valid root)
    (hKnown : ∀ handle trees tree, known.peek? handle = some trees →
      (tree ∈ trees ↔ grammar.Bears handle tree)) : grammar.Paced known root where
  tracks := emptyMatches_tracks known
  rooted := hValid
  known handle trees tree hFound :=
    (hKnown handle trees tree hFound).trans (bears_iff.trans emptyStep_lfp_iff.symm)
  ext _ _ hSame := Forest.ext hSame
  stays handle hDemanded hUnknown := by
    obtain ⟨node, hNode, -⟩ := hValid handle (reaches_of_demanded hValid hDemanded)
    exact (safe_forestEquation hNode fun child =>
      demanded_child hNode hDemanded hUnknown).stays
  asks handle seen seen' other hDemanded _ hAsks := by
    obtain ⟨node, hNode, -⟩ := hValid handle (reaches_of_demanded hValid hDemanded)
    exact (asks_forestEquation hNode seen').mpr ((asks_forestEquation hNode seen).mp hAsks)

/-- The nodes that a forest query has to evaluate. -/
def evaluated (grammar : Grammar Λ) (known : Memo Handle (Forest Λ.Token)) (root : Handle) :
    Set Handle :=
  {handle | (grammar.emptyMatches known).Demanded root handle ∧ known.peek? handle = none}

theorem finite_evaluated (hPaced : grammar.Paced known root) :
    (grammar.evaluated known root).Finite := by
  refine (List.finite_toSet grammar.handles).subset fun handle hHandle => ?_
  exact (hPaced.inside_of_demanded hHandle.1).mem_handles

/-- A layer looks at demanded nodes only. -/
theorem emptyStep_of_demanded {part part' : Handle → Tree Λ.Token → Prop}
    (hDemanded : (grammar.emptyMatches known).Demanded root handle)
    (hKnown : known.peek? handle = none)
    (hPart : ∀ child, (grammar.emptyMatches known).Demanded root child →
      ∀ tree, part child tree → part' child tree)
    (hStep : grammar.emptyStep .trees part handle tree) :
    grammar.emptyStep .trees part' handle tree := by
  obtain ⟨node, hNode, hMatch⟩ := hStep
  refine ⟨node, hNode, Node.meaning_mono (fun child hChild => ?_) _ _ hMatch⟩
  rintro string tree ⟨hString, hTree⟩
  exact ⟨hString, hPart child (demanded_child hNode hDemanded hKnown hChild) tree hTree⟩

end Demand

section Rounds

theorem reaped_succ (hKnown : known.peek? handle = none) :
    grammar.Reaped known (rounds + 1) handle tree ↔
      grammar.emptyStep .trees (grammar.Reaped known rounds) handle tree :=
  System.found_succ hKnown

theorem Fresh.unknown (hFresh : grammar.Fresh known root rounds handle tree) :
    known.peek? handle = none := by
  by_contra hKnown
  obtain ⟨trees, hTrees⟩ := Option.ne_none_iff_exists'.mp hKnown
  have hFound : tree ∈ trees := (System.found_of_known hTrees).mp hFresh.found
  exact hFresh.missing ((System.found_of_known hTrees).mpr hFound)

theorem bears_of_reaped (hPaced : grammar.Paced known root)
    (hFound : grammar.Reaped known rounds handle tree) : grammar.Bears handle tree :=
  bears_iff.mpr (emptyStep_lfp_iff.mp (hPaced.lfp_of_found hFound))

/-- So many rounds find all the trees of the demanded nodes. -/
def Suffices (grammar : Grammar Λ) (known : Memo Handle (Forest Λ.Token)) (root : Handle)
    (rounds : Nat) : Prop :=
  ∀ handle tree, (grammar.emptyMatches known).Demanded root handle →
    (grammar.emptyStep .trees).lfp handle tree → grammar.Reaped known rounds handle tree

/-- If a round finds nothing new, the rounds before it have found everything. -/
theorem suffices_of_not_fresh (hPaced : grammar.Paced known root)
    (hNone : ∀ handle tree, ¬ grammar.Fresh known root rounds handle tree) :
    grammar.Suffices known root rounds := by
  let right (handle : Handle) (tree : Tree Λ.Token) : Prop :=
    (grammar.emptyStep .trees).lfp handle tree ∧
      ((grammar.emptyMatches known).Demanded root handle →
        grammar.Reaped known rounds handle tree)
  have hRight : grammar.emptyStep .trees right ≤ right := by
    intro handle tree hStep
    have hLeast : (grammar.emptyStep .trees).lfp handle tree :=
      System.lfp_iff_step.mpr
        ((grammar.emptyStep .trees).mono (fun _ _ h => h.1) handle tree hStep)
    refine ⟨hLeast, fun hDemanded => ?_⟩
    cases hPeek : known.peek? handle with
    | some trees =>
        exact (System.found_of_known hPeek).mpr
          ((hPaced.known handle trees tree hPeek).mpr hLeast)
    | none =>
        by_contra hMissing
        have hFound : grammar.Reaped known (rounds + 1) handle tree :=
          (reaped_succ hPeek).mpr (emptyStep_of_demanded hDemanded hPeek
            (fun child hChild tree hTree => hTree.2 hChild) hStep)
        exact hNone handle tree ⟨hDemanded, hFound, hMissing⟩
  exact fun handle tree hDemanded hLeast =>
    ((grammar.emptyStep .trees).lfp_le hRight handle tree hLeast).2 hDemanded

end Rounds

section Counting

/-- The trees of all the nodes in reach of a root. -/
def crop (grammar : Grammar Λ) (root : Handle) : Set (Handle × Tree Λ.Token) :=
  {entry | grammar.Reaches root entry.1 ∧ grammar.Bears entry.1 entry.2}

theorem finite_crop (hValid : grammar.Valid root)
    (hFinite : ∀ handle, grammar.Reaches root handle →
      {tree | grammar.Bears handle tree}.Finite) : (grammar.crop root).Finite := by
  have hHandles : {handle | grammar.Reaches root handle}.Finite := by
    refine (List.finite_toSet grammar.handles).subset fun handle hReaches => ?_
    exact (hValid.mono hReaches).mem_handles
  refine (Set.Finite.biUnion hHandles fun handle hReaches =>
    (hFinite handle hReaches).image (Prod.mk handle)).subset ?_
  rintro ⟨handle, tree⟩ ⟨hReaches, hBears⟩
  simp only [Set.mem_iUnion, Set.mem_image]
  exact ⟨handle, hReaches, tree, hBears, rfl⟩

/-- A round finds something new only if the round before it did. -/
theorem Fresh.exists_earlier (hFresh : grammar.Fresh known root (rounds + 1) handle tree) :
    ∃ handle tree, grammar.Fresh known root rounds handle tree := by
  by_contra hNone
  apply hFresh.missing
  rw [reaped_succ hFresh.unknown]
  refine emptyStep_of_demanded hFresh.demanded hFresh.unknown (fun child hChild part hPart => ?_)
    ((reaped_succ hFresh.unknown).mp hFresh.found)
  by_contra hMissing
  exact hNone ⟨child, part, hChild, hPart, hMissing⟩

/-- What so many rounds have found at the demanded nodes. -/
def yield (grammar : Grammar Λ) (known : Memo Handle (Forest Λ.Token)) (root : Handle)
    (rounds : Nat) : Set (Handle × Tree Λ.Token) :=
  {entry | (grammar.emptyMatches known).Demanded root entry.1 ∧
    grammar.Reaped known rounds entry.1 entry.2}

theorem yield_subset (hPaced : grammar.Paced known root) (rounds : Nat) :
    grammar.yield known root rounds ⊆ grammar.crop root := by
  rintro ⟨handle, tree⟩ ⟨hDemanded, hFound⟩
  exact ⟨reaches_of_demanded hPaced.rooted hDemanded, bears_of_reaped hPaced hFound⟩

/-- Every round that finds something new adds to what was found. -/
theorem Fresh.lt_ncard (hPaced : grammar.Paced known root)
    (hFinite : (grammar.crop root).Finite)
    (hFresh : grammar.Fresh known root rounds handle tree) :
    rounds < (grammar.yield known root (rounds + 1)).ncard := by
  have hFiniteYield (rounds : Nat) : (grammar.yield known root rounds).Finite :=
    hFinite.subset (yield_subset hPaced rounds)
  induction rounds generalizing handle tree with
  | zero =>
      have hEntry : (handle, tree) ∈ grammar.yield known root 1 :=
        ⟨hFresh.demanded, hFresh.found⟩
      exact (Set.ncard_pos (hFiniteYield 1)).mpr ⟨_, hEntry⟩
  | succ rounds ih =>
      obtain ⟨other, earlier, hEarlier⟩ := hFresh.exists_earlier
      have hCount := ih hEarlier
      have hEntry : (handle, tree) ∈ grammar.yield known root (rounds + 1 + 1) :=
        ⟨hFresh.demanded, hFresh.found⟩
      have hMore : grammar.yield known root (rounds + 1) ⊂
          grammar.yield known root (rounds + 1 + 1) := by
        refine ⟨fun entry hOld => ⟨hOld.1, ?_⟩, fun hSame => ?_⟩
        · exact System.found_succ_mono entry.1 entry.2 hOld.2
        · exact hFresh.missing (hSame hEntry).2
      have hGrown := Set.ncard_lt_ncard hMore (hFiniteYield (rounds + 1 + 1))
      omega

/-- As many rounds as there are trees suffice. -/
theorem suffices_ncard_crop (hPaced : grammar.Paced known root)
    (hFinite : (grammar.crop root).Finite) :
    grammar.Suffices known root (grammar.crop root).ncard := by
  refine suffices_of_not_fresh hPaced fun handle tree hFresh => ?_
  have hCount := hFresh.lt_ncard hPaced hFinite
  have hAll := Set.ncard_le_ncard (yield_subset hPaced ((grammar.crop root).ncard + 1)) hFinite
  omega

end Counting

section Swelling

variable {weight : Tree Λ.Token → Nat} {low middle high : Handle}
  {small medium large : Tree Λ.Token}

/-- By some weight of trees, a pair weighs more than its parts, and reducers on cycles in
reach of a root make heavier trees of those that they are given. -/
structure Swells (grammar : Grammar Λ) (weight : Tree Λ.Token → Nat) (root : Handle) :
    Prop where
  left : ∀ left right, weight left < weight (.pair left right)
  right : ∀ left right, weight right < weight (.pair left right)
  reduction : ∀ handle inner reducer given tree, grammar.Reaches root handle →
    grammar.get? handle = some (.reduction inner reducer) → grammar.Reaches inner handle →
    grammar.Bears inner given → tree ∈ reducer.apply given → weight given < weight tree

/-- Reducers that pair trees with others make them larger. -/
theorem swells_of_pairs (hPairs : ∀ handle inner reducer, grammar.Reaches root handle →
      grammar.get? handle = some (.reduction inner reducer) → grammar.Reaches inner handle →
      reducer.Pairs) : grammar.Swells sizeOf root where
  left left right := by
    simp
    omega
  right left right := by simp
  reduction handle inner reducer given tree hReaches hNode hCycle _ hTree :=
    (hPairs handle inner reducer hReaches hNode hCycle).lt_sizeOf hTree

/-- A tree of a high node was made of one of a low node.  If the two nodes are on a cycle,
the tree was not changed, and all trees of the low node belong to the high one too; or
every tree of the low node is outweighed by one of the high node. -/
def Carries (grammar : Grammar Λ) (weight : Tree Λ.Token → Nat) (low : Handle)
    (small : Tree Λ.Token) (high : Handle) (large : Tree Λ.Token) : Prop :=
  grammar.Reaches high low ∧ (grammar.Reaches low high →
    small = large ∧ (∀ tree, grammar.Bears low tree → grammar.Bears high tree) ∨
    ∀ tree, grammar.Bears low tree →
      ∃ heavier, grammar.Bears high heavier ∧ weight tree < weight heavier)

theorem Carries.refl (handle : Handle) (tree : Tree Λ.Token) :
    grammar.Carries weight handle tree handle tree :=
  ⟨Reaches.refl handle, fun _ => Or.inl ⟨rfl, fun _ => id⟩⟩

theorem Carries.trans (hLow : grammar.Carries weight low small middle medium)
    (hHigh : grammar.Carries weight middle medium high large) :
    grammar.Carries weight low small high large := by
  refine ⟨hHigh.1.trans hLow.1, fun hCycle => ?_⟩
  have hLower := hLow.2 (hCycle.trans hHigh.1)
  have hUpper := hHigh.2 (hLow.1.trans hCycle)
  rcases hLower with ⟨rfl, hLower⟩ | hLower
  · rcases hUpper with ⟨rfl, hUpper⟩ | hUpper
    · exact Or.inl ⟨rfl, fun tree hTree => hUpper tree (hLower tree hTree)⟩
    · exact Or.inr fun tree hTree => hUpper tree (hLower tree hTree)
  · refine Or.inr fun tree hTree => ?_
    obtain ⟨heavier, hHeavier, hLess⟩ := hLower tree hTree
    rcases hUpper with ⟨-, hUpper⟩ | hUpper
    · exact ⟨heavier, hUpper heavier hHeavier, hLess⟩
    · obtain ⟨heaviest, hHeaviest, hMore⟩ := hUpper heavier hHeavier
      exact ⟨heaviest, hHeaviest, hLess.trans hMore⟩

/-- A child carries its trees to a node that has them too. -/
theorem carries_unchanged (hNode : grammar.get? handle = some node)
    (hChild : child ∈ node.children)
    (hBears : ∀ other, grammar.Bears child other → grammar.Bears handle other) :
    grammar.Carries weight child tree handle tree :=
  ⟨reaches_child hNode hChild, fun _ => Or.inl ⟨rfl, hBears⟩⟩

/-- A child carries its trees to a node that makes heavier trees of them. -/
theorem carries_grown (hNode : grammar.get? handle = some node)
    (hChild : child ∈ node.children)
    (hHeavier : grammar.Reaches child handle → ∀ other, grammar.Bears child other →
      ∃ heavier, grammar.Bears handle heavier ∧ weight other < weight heavier) :
    grammar.Carries weight child small handle large :=
  ⟨reaches_child hNode hChild, fun hCycle => Or.inr (hHeavier hCycle)⟩

/-- What is found in a round was made of something that was found in the round before. -/
theorem Fresh.carried (hPaced : grammar.Paced known root)
    (hSwells : grammar.Swells weight root)
    (hFresh : grammar.Fresh known root (rounds + 1) handle tree) :
    ∃ child part, grammar.Fresh known root rounds child part ∧
      grammar.Carries weight child part handle tree := by
  have hUnknown := hFresh.unknown
  have hReaches := reaches_of_demanded hPaced.rooted hFresh.demanded
  obtain ⟨node, hNode, hMatch⟩ := (reaped_succ hUnknown).mp hFresh.found
  have hMissing : ¬ node.meaning (fun child string (tree : View.trees.Result Λ) =>
      string = [] ∧ grammar.Reaped known rounds child tree) [] tree := fun hEarlier =>
    hFresh.missing ((reaped_succ hUnknown).mpr ⟨node, hNode, hEarlier⟩)
  have hNew {child : Handle} {part : Tree Λ.Token} (hChild : child ∈ node.children)
      (hFound : grammar.Reaped known (rounds + 1) child part)
      (hLate : ¬ grammar.Reaped known rounds child part) :
      grammar.Fresh known root rounds child part :=
    ⟨demanded_child hNode hFresh.demanded hUnknown hChild, hFound, hLate⟩
  cases node with
  | empty => exact hMatch.elim
  | eps forest => exact absurd hMatch hMissing
  | token matcher => exact absurd hMatch hMissing
  | union left right =>
      have hLeft : left ∈ (Node.union left right : Node Λ).children :=
        Node.mem_children_union.mpr (Or.inl rfl)
      have hRight : right ∈ (Node.union left right : Node Λ).children :=
        Node.mem_children_union.mpr (Or.inr rfl)
      rcases hMatch with ⟨-, hFound⟩ | ⟨-, hFound⟩
      · refine ⟨left, tree, hNew hLeft hFound fun hOld => hMissing (Or.inl ⟨rfl, hOld⟩), ?_⟩
        exact carries_unchanged hNode hLeft fun other hOther =>
          bears_of_layer hNode (Or.inl ⟨rfl, hOther⟩)
      · refine ⟨right, tree, hNew hRight hFound fun hOld => hMissing (Or.inr ⟨rfl, hOld⟩), ?_⟩
        exact carries_unchanged hNode hRight fun other hOther =>
          bears_of_layer hNode (Or.inr ⟨rfl, hOther⟩)
  | sequence first second =>
      have hFirst : first ∈ (Node.sequence first second : Node Λ).children :=
        Node.mem_children_sequence.mpr (Or.inl rfl)
      have hSecond : second ∈ (Node.sequence first second : Node Λ).children :=
        Node.mem_children_sequence.mpr (Or.inr rfl)
      obtain ⟨_, _, left, right, -, ⟨-, hLeft⟩, ⟨-, hRight⟩, rfl⟩ := hMatch
      have hPair {left right : Tree Λ.Token} (hLeft : grammar.Bears first left)
          (hRight : grammar.Bears second right) : grammar.Bears handle (.pair left right) :=
        bears_of_layer hNode ⟨[], [], left, right, rfl, ⟨rfl, hLeft⟩, ⟨rfl, hRight⟩, rfl⟩
      -- One of the parts at least is new, and the other one may stay.
      by_cases hOld : grammar.Reaped known rounds first left
      · have hLate : ¬ grammar.Reaped known rounds second right := fun hAlso =>
          hMissing ⟨[], [], left, right, rfl, ⟨rfl, hOld⟩, ⟨rfl, hAlso⟩, rfl⟩
        refine ⟨second, right, hNew hSecond hRight hLate, ?_⟩
        refine carries_grown hNode hSecond fun _ other hOther => ⟨.pair left other, ?_, ?_⟩
        · exact hPair (bears_of_reaped hPaced hLeft) hOther
        · exact hSwells.right left other
      · refine ⟨first, left, hNew hFirst hLeft hOld, ?_⟩
        refine carries_grown hNode hFirst fun _ other hOther => ⟨.pair other right, ?_, ?_⟩
        · exact hPair hOther (bears_of_reaped hPaced hRight)
        · exact hSwells.left other right
  | repetition inner =>
      -- The tree does not depend on the inner node.
      exact absurd (Meaning.iterated_nil.mpr (Meaning.iterated_nil.mp hMatch)) hMissing
  | reduction inner reducer =>
      have hInner : inner ∈ (Node.reduction inner reducer : Node Λ).children :=
        List.mem_singleton_self inner
      obtain ⟨given, ⟨-, hGiven⟩, hTree⟩ := hMatch
      have hLate : ¬ grammar.Reaped known rounds inner given := fun hOld =>
        hMissing ⟨given, ⟨rfl, hOld⟩, hTree⟩
      refine ⟨inner, given, hNew hInner hGiven hLate, ?_⟩
      refine carries_grown hNode hInner fun hCycle other hOther => ?_
      obtain ⟨result, hResult⟩ :=
        (Reducer.fruitful_of_mem_apply hTree).exists_mem_apply other
      refine ⟨result, bears_of_layer hNode ⟨other, ⟨rfl, hOther⟩, hResult⟩, ?_⟩
      exact hSwells.reduction handle inner reducer other result hReaches hNode hCycle hOther
        hResult
  | delegate target =>
      cases target with
      | none => exact hMatch.elim
      | some target =>
          have hTarget : target ∈ (Node.delegate (some target) : Node Λ).children :=
            List.mem_singleton_self target
          refine ⟨target, tree, hNew hTarget hMatch.2 fun hOld => hMissing ⟨rfl, hOld⟩, ?_⟩
          exact carries_unchanged hNode hTarget fun other hOther =>
            bears_of_layer hNode ⟨rfl, hOther⟩

/-- A finite forest has no tree that came around a cycle to the node where it started. -/
theorem Fresh.not_carries {earlier : Nat} (hPaced : grammar.Paced known root)
    (hFinite : {tree | grammar.Bears handle tree}.Finite)
    (hSmall : grammar.Fresh known root earlier handle small)
    (hLarge : grammar.Fresh known root rounds handle large) (hEarlier : earlier < rounds) :
    ¬ grammar.Carries weight handle small handle large := by
  rintro ⟨-, hCarries⟩
  rcases hCarries (Reaches.refl handle) with ⟨rfl, -⟩ | hHeavier
  · exact hLarge.missing (System.found_mono hEarlier handle small hSmall.found)
  · -- The heaviest tree of the node is outweighed.
    have hSome : {tree | grammar.Bears handle tree}.Nonempty :=
      ⟨small, bears_of_reaped hPaced hSmall.found⟩
    obtain ⟨heaviest, hBears, hMost⟩ := hFinite.exists_maximalFor weight _ hSome
    obtain ⟨heavier, hMore, hLess⟩ := hHeavier heaviest hBears
    have hLe := hMost hMore hLess.le
    omega

/-- The nodes where a tree comes from, each with what it found on the way. -/
def lineage (grammar : Grammar Λ) (known : Memo Handle (Forest Λ.Token)) (root : Handle)
    (weight : Tree Λ.Token → Nat) (rounds : Nat) (handle : Handle) (tree : Tree Λ.Token) :
    Set Handle :=
  {low | ∃ small earlier, earlier ≤ rounds ∧ grammar.Fresh known root earlier low small ∧
    grammar.Carries weight low small handle tree}

theorem lineage_subset (rounds : Nat) (handle : Handle) (tree : Tree Λ.Token) :
    grammar.lineage known root weight rounds handle tree ⊆ grammar.evaluated known root := by
  rintro low ⟨small, earlier, -, hFresh, -⟩
  exact ⟨hFresh.demanded, hFresh.unknown⟩

/-- A tree that is found in a later round comes from more nodes. -/
theorem Fresh.lt_ncard_lineage (hPaced : grammar.Paced known root)
    (hSwells : grammar.Swells weight root)
    (hFinite : ∀ handle, grammar.Reaches root handle →
      {tree | grammar.Bears handle tree}.Finite)
    (hFresh : grammar.Fresh known root rounds handle tree) :
    rounds < (grammar.lineage known root weight rounds handle tree).ncard := by
  have hFiniteLineage (rounds : Nat) (handle : Handle) (tree : Tree Λ.Token) :
      (grammar.lineage known root weight rounds handle tree).Finite :=
    (finite_evaluated hPaced).subset (lineage_subset rounds handle tree)
  have hSelf {rounds : Nat} {handle : Handle} {tree : Tree Λ.Token}
      (hFresh : grammar.Fresh known root rounds handle tree) :
      handle ∈ grammar.lineage known root weight rounds handle tree :=
    ⟨tree, rounds, le_refl rounds, hFresh, Carries.refl handle tree⟩
  induction rounds generalizing handle tree with
  | zero => exact (Set.ncard_pos (hFiniteLineage 0 handle tree)).mpr ⟨handle, hSelf hFresh⟩
  | succ rounds ih =>
      obtain ⟨child, part, hChild, hCarries⟩ := hFresh.carried hPaced hSwells
      have hCount := ih hChild
      have hMore : grammar.lineage known root weight rounds child part ⊂
          grammar.lineage known root weight (rounds + 1) handle tree := by
        refine ⟨?_, fun hSame => ?_⟩
        · rintro low ⟨small, earlier, hEarlier, hSmall, hBelow⟩
          exact ⟨small, earlier, by omega, hSmall, hBelow.trans hCarries⟩
        · -- The node itself was not there before, or its tree had come around a cycle.
          obtain ⟨small, earlier, hEarlier, hSmall, hBelow⟩ := hSame (hSelf hFresh)
          have hReaches := reaches_of_demanded hPaced.rooted hFresh.demanded
          exact hSmall.not_carries hPaced (hFinite handle hReaches) hFresh (by omega)
            (hBelow.trans hCarries)
      have hGrown := Set.ncard_lt_ncard hMore (hFiniteLineage (rounds + 1) handle tree)
      omega

/-- As many rounds as there are nodes to evaluate suffice, if reducers on cycles make trees
larger. -/
theorem suffices_ncard_evaluated (hPaced : grammar.Paced known root)
    (hSwells : grammar.Swells weight root)
    (hFinite : ∀ handle, grammar.Reaches root handle →
      {tree | grammar.Bears handle tree}.Finite) :
    grammar.Suffices known root (grammar.evaluated known root).ncard := by
  refine suffices_of_not_fresh hPaced fun handle tree hFresh => ?_
  have hCount := hFresh.lt_ncard_lineage hPaced hSwells hFinite
  have hSubset : grammar.lineage known root weight (grammar.evaluated known root).ncard handle
      tree ⊆ grammar.evaluated known root := lineage_subset _ handle tree
  have hAll := Set.ncard_le_ncard hSubset (finite_evaluated hPaced)
  omega

end Swelling

end Grammar

end DerivativeParsing
