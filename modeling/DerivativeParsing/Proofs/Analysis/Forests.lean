import DerivativeParsing.Analysis.Forest
import DerivativeParsing.Proofs.Analysis.Properties

namespace DerivativeParsing

/-!
# What forest queries find

The system of forests tracks the matches of the empty string with their trees
(`emptyMatches_tracks`).  So every tree that a query finds is the tree of such a match,
and a query that was not stopped finds them all.  The trees of these matches are the least
solution of the forest equations (`bears_iff`).

Below a fruitful root the same system, seen only through whether forests are empty,
tracks nullability (`emptyMatches_tracks_nullable`): a sequence has trees if both parts
have, and no reducer loses the last tree.  That is what survives when a query is stopped.
-/

open Fixpoint

theorem Forest.isEmpty_eq_false_iff {τ : Type} [Ord τ] {forest : Forest τ} :
    forest.isEmpty = false ↔ ∃ tree, tree ∈ forest := by
  rw [Forest.isEmpty, List.isEmpty_eq_false_iff_exists_mem]
  rfl

namespace Node

variable {Λ : Lexicon}

/-- The forest of a node, given those of its children. -/
def forest (part : Handle → Forest Λ.Token) : Node Λ → Forest Λ.Token
  | empty => ∅
  | eps forest => forest
  | token _ => ∅
  | union left right => (part left).union (part right)
  | sequence first second => (part first).cross (part second)
  | repetition _ => Forest.singleton (.list [])
  | reduction inner reducer => reducer.applyAll (part inner)
  | delegate none => ∅
  | delegate (some target) => part target

/-- The forest of a node holds the trees of its matches of the empty string. -/
theorem mem_forest {part : Handle → Forest Λ.Token} {node : Node Λ}
    {tree : View.trees.Result Λ} :
    View.trees.holds (node.forest part) tree ↔
      node.meaning (fun child string tree => string = [] ∧ View.trees.holds (part child) tree)
        [] tree := by
  cases node with
  | empty => exact ⟨fun h => absurd h (Forest.not_mem_empty tree), False.elim⟩
  | eps forest => exact ⟨fun h => ⟨rfl, h⟩, And.right⟩
  | token matcher =>
      constructor
      · exact fun h => absurd h (Forest.not_mem_empty tree)
      · rintro ⟨_, hString, -⟩
        cases hString
  | union left right =>
      refine Forest.mem_union.trans ?_
      exact or_congr ⟨fun h => ⟨rfl, h⟩, And.right⟩ ⟨fun h => ⟨rfl, h⟩, And.right⟩
  | sequence first second =>
      refine Forest.mem_cross.trans ?_
      constructor
      · rintro ⟨left, hLeft, right, hRight, rfl⟩
        exact ⟨[], [], left, right, rfl, ⟨rfl, hLeft⟩, ⟨rfl, hRight⟩, rfl⟩
      · rintro ⟨_, _, left, right, -, hLeft, hRight, rfl⟩
        exact ⟨left, hLeft.2, right, hRight.2, rfl⟩
  | repetition inner => exact Meaning.iterated_nil.symm
  | reduction inner reducer =>
      refine Reducer.mem_applyAll.trans ?_
      constructor
      · rintro ⟨given, hGiven, hTree⟩
        exact ⟨given, ⟨rfl, hGiven⟩, hTree⟩
      · rintro ⟨given, hGiven, hTree⟩
        exact ⟨given, hGiven.2, hTree⟩
  | delegate target =>
      cases target with
      | none => exact ⟨fun h => absurd h (Forest.not_mem_empty tree), False.elim⟩
      | some target => exact ⟨fun h => ⟨rfl, h⟩, And.right⟩

/-- Forests that hold some trees, each at its own node. -/
def holding (parts : List (Handle × Tree Λ.Token)) (child : Handle) : Forest Λ.Token :=
  Forest.ofList ((parts.filter fun part => part.1 = child).map Prod.snd)

theorem mem_holding {parts : List (Handle × Tree Λ.Token)} {child : Handle}
    {tree : Tree Λ.Token} : tree ∈ holding parts child ↔ (child, tree) ∈ parts := by
  simp [holding, Forest.mem_ofList]

/-- The tree of a match of the empty string is made of finitely many trees of the
children. -/
theorem exists_mem_forest_holding {part : Handle → Tree Λ.Token → Prop} {node : Node Λ}
    {tree : View.trees.Result Λ}
    (hMatch : node.meaning (fun child string tree => string = [] ∧ part child tree) []
      tree) :
    ∃ parts, (∀ child tree, (child, tree) ∈ parts → part child tree) ∧
      tree ∈ node.forest (holding parts) := by
  have hOne {child : Handle} {tree : Tree Λ.Token} (hTree : part child tree) :
      ∀ other tree', (other, tree') ∈ [(child, tree)] → part other tree' := by
    rintro _ _ (_ | ⟨_, ⟨⟩⟩)
    exact hTree
  cases node with
  | empty => exact hMatch.elim
  | eps forest => exact ⟨[], nofun, hMatch.2⟩
  | token matcher =>
      obtain ⟨_, hString, -⟩ := hMatch
      cases hString
  | union left right =>
      rcases hMatch with ⟨-, hLeft⟩ | ⟨-, hRight⟩
      · exact ⟨[(left, tree)], hOne hLeft, Forest.mem_union.mpr
          (Or.inl (mem_holding.mpr (List.mem_singleton_self _)))⟩
      · exact ⟨[(right, tree)], hOne hRight, Forest.mem_union.mpr
          (Or.inr (mem_holding.mpr (List.mem_singleton_self _)))⟩
  | sequence first second =>
      obtain ⟨_, _, left, right, -, ⟨-, hLeft⟩, ⟨-, hRight⟩, rfl⟩ := hMatch
      refine ⟨[(first, left), (second, right)], ?_, Forest.mem_cross.mpr
        ⟨left, mem_holding.mpr (by simp), right, mem_holding.mpr (by simp), rfl⟩⟩
      rintro _ _ (_ | ⟨_, hSecond⟩)
      · exact hLeft
      · exact hOne hRight _ _ hSecond
  | repetition inner => exact ⟨[], nofun, Meaning.iterated_nil.mp hMatch⟩
  | reduction inner reducer =>
      obtain ⟨given, ⟨-, hGiven⟩, hTree⟩ := hMatch
      exact ⟨[(inner, given)], hOne hGiven, Reducer.mem_applyAll.mpr
        ⟨given, mem_holding.mpr (List.mem_singleton_self _), hTree⟩⟩
  | delegate target =>
      cases target with
      | none => exact hMatch.elim
      | some target =>
          exact ⟨[(target, tree)], hOne hMatch.2, mem_holding.mpr (List.mem_singleton_self _)⟩

/-- The forest of a fruitful node has a tree exactly if the node is nullable as far as
the forests of its children show. -/
theorem exists_mem_forest {part : Handle → Forest Λ.Token} {node : Node Λ}
    (hFruitful : node.Fruitful) :
    (∃ tree, tree ∈ node.forest part) ↔
      node.nullable fun child => ∃ tree, tree ∈ part child := by
  have hNone : ¬ ∃ tree, tree ∈ (∅ : Forest Λ.Token) := by
    rintro ⟨tree, hTree⟩
    exact Forest.not_mem_empty tree hTree
  cases node with
  | empty => exact ⟨hNone, False.elim⟩
  | eps forest => exact ⟨fun _ => trivial, fun _ => hFruitful⟩
  | token matcher => exact ⟨hNone, False.elim⟩
  | union left right => simp only [forest, nullable, Forest.mem_union, exists_or]
  | sequence first second =>
      simp only [forest, Forest.mem_cross]
      constructor
      · rintro ⟨_, left, hLeft, right, hRight, rfl⟩
        exact ⟨⟨left, hLeft⟩, ⟨right, hRight⟩⟩
      · rintro ⟨⟨left, hLeft⟩, ⟨right, hRight⟩⟩
        exact ⟨_, left, hLeft, right, hRight, rfl⟩
  | repetition inner => exact ⟨fun _ => trivial, fun _ => ⟨_, Forest.mem_singleton.mpr rfl⟩⟩
  | reduction inner reducer =>
      simp only [forest, Reducer.mem_applyAll]
      constructor
      · rintro ⟨_, given, hGiven, -⟩
        exact ⟨given, hGiven⟩
      · rintro ⟨given, hGiven⟩
        obtain ⟨tree, hTree⟩ := hFruitful.exists_mem_apply given
        exact ⟨tree, given, hGiven, hTree⟩
  | delegate target =>
      cases target with
      | none => exact ⟨hNone, False.elim⟩
      | some target => exact Iff.rfl

end Node

namespace Grammar

variable {Λ : Lexicon} {grammar : Grammar Λ} {handle : Handle} {node : Node Λ}

theorem eval_forestEquation (hNode : grammar.get? handle = some node)
    (seen : Handle → Forest Λ.Token) :
    (grammar.forestEquation handle).eval seen = .ok (node.forest seen) := by
  simp only [forestEquation, inspect_of_get? hNode, Inquiry.answer_bind]
  cases node with
  | delegate target => cases target <;> rfl
  | _ => rfl

/-- The least solution of the forest equations, in which a node may have infinitely many
trees: a node has the trees that its equation computes from trees that other nodes
have. -/
inductive Bears (grammar : Grammar Λ) : Handle → Tree Λ.Token → Prop
  | equation {handle : Handle} {seen : Handle → Forest Λ.Token} {value : Forest Λ.Token}
      {tree : Tree Λ.Token} :
      (∀ other tree, tree ∈ seen other → Bears grammar other tree) →
      (grammar.forestEquation handle).eval seen = .ok value → tree ∈ value →
      Bears grammar handle tree

/-- The equations have the matches of the empty string as their least solution. -/
theorem bears_iff {tree : View.trees.Result Λ} :
    grammar.Bears handle tree ↔ grammar.meaning .trees handle [] tree := by
  rw [← emptyStep_lfp_iff]
  constructor
  · intro hBears
    induction hBears with
    | @equation handle seen value tree _ hEval hTree ih =>
        cases hNode : grammar.get? handle with
        | none =>
            -- The equation of a stale handle has no value.
            simp only [forestEquation, inspect, hNode] at hEval
            cases hEval
        | some node =>
            obtain rfl := Except.ok.inj (hEval.symm.trans (eval_forestEquation hNode seen))
            rw [System.lfp_iff_step]
            refine ⟨node, hNode, Node.meaning_mono (fun child _ => ?_) _ _
              (Node.mem_forest.mp hTree)⟩
            exact fun string tree => And.imp_right (ih child tree)
  · refine fun hLeast => (grammar.emptyStep .trees).lfp_le
      (a := fun handle tree => grammar.Bears handle tree) ?_ handle tree hLeast
    rintro handle tree ⟨node, hNode, hMatch⟩
    obtain ⟨parts, hParts, hTree⟩ := Node.exists_mem_forest_holding hMatch
    refine .equation (fun other tree hOther => ?_) (eval_forestEquation hNode _) hTree
    exact hParts other tree (Node.mem_holding.mp hOther)

/-- The trees of a node are made of those of its children. -/
theorem bears_of_layer {tree : Tree Λ.Token} (hNode : grammar.get? handle = some node)
    (hMatch : node.meaning (fun child string (tree : View.trees.Result Λ) =>
      string = [] ∧ grammar.Bears child tree) [] tree) : grammar.Bears handle tree := by
  rw [bears_iff, ← emptyStep_lfp_iff, System.lfp_iff_step]
  refine ⟨node, hNode, Node.meaning_mono (fun child _ => ?_) _ _ hMatch⟩
  rintro string tree ⟨hString, hBears⟩
  exact ⟨hString, emptyStep_lfp_iff.mpr (bears_iff.mp hBears)⟩

/-- The equation of a forest asks for all the children of its node. -/
theorem asks_forestEquation {child : Handle} (hNode : grammar.get? handle = some node)
    (seen : Handle → Forest Λ.Token) :
    (grammar.forestEquation handle).Asks seen child ↔ child ∈ node.children := by
  simp only [forestEquation, inspect_of_get? hNode, Inquiry.answer_bind]
  cases node with
  | delegate target => cases target <;> simp [Node.children]
  | _ => simp [Node.children]

theorem safe_forestEquation {inside : Handle → Prop}
    (hNode : grammar.get? handle = some node)
    (hInside : ∀ child ∈ node.children, inside child) :
    (grammar.forestEquation handle).Safe inside := by
  simp only [forestEquation, inspect_of_get? hNode, Inquiry.answer_bind]
  cases node with
  | union left right =>
      exact ⟨hInside left (by simp [Node.children]), fun _ =>
        ⟨hInside right (by simp [Node.children]), fun _ => trivial⟩⟩
  | sequence first second =>
      exact ⟨hInside first (by simp [Node.children]), fun _ =>
        ⟨hInside second (by simp [Node.children]), fun _ => trivial⟩⟩
  | repetition inner =>
      exact ⟨hInside inner (by simp [Node.children]), fun _ => trivial⟩
  | reduction inner reducer =>
      exact ⟨hInside inner (by simp [Node.children]), fun _ => trivial⟩
  | delegate target =>
      cases target with
      | none => exact trivial
      | some target => exact ⟨hInside target (by simp [Node.children]), fun _ => trivial⟩
  | _ => exact trivial

/-- The forests track the matches of the empty string with their trees. -/
theorem emptyMatches_tracks (known : Memo Handle (Forest Λ.Token)) :
    (grammar.emptyMatches known).Tracks grammar.Valid id View.trees.holds
      (grammar.emptyStep .trees) where
  bottom tree := Forest.not_mem_empty tree
  safe handle hValid := by
    obtain ⟨node, hNode, -⟩ := hValid.get?
    exact safe_forestEquation hNode fun child hChild => hValid.child hNode hChild
  sound handle seen value tree hValid hEval hTree := by
    obtain ⟨node, hNode, -⟩ := hValid.get?
    have hValue := hEval.symm.trans (eval_forestEquation hNode seen)
    obtain rfl := Except.ok.inj hValue
    exact ⟨node, hNode, Node.mem_forest.mp hTree⟩
  complete handle seen value tree holds hValid hEval hAsks hStep := by
    obtain ⟨node, hNode, hMatch⟩ := hStep
    have hValue := hEval.symm.trans (eval_forestEquation hNode seen)
    obtain rfl := Except.ok.inj hValue
    refine Node.mem_forest.mpr (Node.meaning_mono (fun child hChild => ?_) _ _ hMatch)
    rintro string result ⟨hString, hHolds⟩
    exact ⟨hString, hAsks child ((asks_forestEquation hNode seen).mpr hChild) result hHolds⟩

/-- Below a fruitful root the forests track nullability, as far as it shows in whether
they are empty. -/
theorem emptyMatches_tracks_nullable (known : Memo Handle (Forest Λ.Token)) :
    (grammar.emptyMatches known).Tracks
      (fun handle => grammar.Valid handle ∧ grammar.Fruitful handle)
      (fun forest => !forest.isEmpty) (fun value _ => value = true)
      (grammar.emptyStep .language) where
  bottom _ := Bool.false_ne_true
  safe handle hInside := by
    obtain ⟨node, hNode, -⟩ := hInside.1.get?
    exact safe_forestEquation hNode fun child hChild =>
      ⟨hInside.1.child hNode hChild, hInside.2.child hNode hChild⟩
  sound handle seen value _ hInside hEval hTree := by
    obtain ⟨node, hNode, -⟩ := hInside.1.get?
    have hValue := hEval.symm.trans (eval_forestEquation hNode seen)
    obtain rfl := Except.ok.inj hValue
    have hOwn := hInside.2 handle node (Reaches.refl handle) hNode
    simp only [Bool.not_eq_true', Forest.isEmpty_eq_false_iff] at hTree ⊢
    exact ⟨node, hNode,
      Node.nullable_iff_meaning.mp ((Node.exists_mem_forest hOwn).mp hTree)⟩
  complete handle seen value _ holds hInside hEval hAsks hStep := by
    obtain ⟨node, hNode, hMatch⟩ := hStep
    have hValue := hEval.symm.trans (eval_forestEquation hNode seen)
    obtain rfl := Except.ok.inj hValue
    have hOwn := hInside.2 handle node (Reaches.refl handle) hNode
    simp only [Bool.not_eq_true', Forest.isEmpty_eq_false_iff] at hAsks ⊢
    refine (Node.exists_mem_forest hOwn).mpr (Node.nullable_iff_meaning.mpr
      (Node.meaning_mono (fun child hChild => ?_) _ _ hMatch))
    rintro string result ⟨hString, hHolds⟩
    exact ⟨hString, hAsks child ((asks_forestEquation hNode seen).mpr hChild) result hHolds⟩

/-- What a forest is worth for a node and a string: it holds trees of the string, all of
them if that is known to be exact, and one at least if a fruitful node accepts the
string. -/
structure Gathers (grammar : Grammar Λ) (exact : Prop) (handle : Handle)
    (string : List Λ.Token) (trees : Forest Λ.Token) : Prop where
  sound : ∀ tree, tree ∈ trees → grammar.meaning .trees handle string tree
  complete : exact → ∀ tree, grammar.meaning .trees handle string tree → tree ∈ trees
  fruitful : grammar.Fruitful handle → grammar.meaning .language handle string () →
    ∃ tree, tree ∈ trees

theorem Gathers.mono {exact exact' : Prop} {string : List Λ.Token} {trees : Forest Λ.Token}
    (hGathers : grammar.Gathers exact handle string trees) (hExact : exact' → exact) :
    grammar.Gathers exact' handle string trees :=
  { hGathers with complete := fun h => hGathers.complete (hExact h) }

/-- Two forests that are known to be exact are the same. -/
theorem Gathers.eq {exact exact' : Prop} {string : List Λ.Token} {trees trees' : Forest Λ.Token}
    (hGathers : grammar.Gathers exact handle string trees)
    (hGathers' : grammar.Gathers exact' handle string trees') (hExact : exact)
    (hExact' : exact') : trees = trees' :=
  Forest.ext fun tree =>
    ⟨fun hTree => hGathers'.complete hExact' tree (hGathers.sound tree hTree),
      fun hTree => hGathers.complete hExact tree (hGathers'.sound tree hTree)⟩

theorem Agrees.gathers {grammar' : Grammar Λ} {exact : Prop} {string : List Λ.Token}
    {trees : Forest Λ.Token} (hAgrees : grammar.Agrees grammar' handle)
    (hGathers : grammar.Gathers exact handle string trees) :
    grammar'.Gathers exact handle string trees := by
  refine ⟨?_, ?_, fun hFruitful => ?_⟩
  · rw [hAgrees.meaning_eq]
    exact hGathers.sound
  · rw [hAgrees.meaning_eq]
    exact hGathers.complete
  · rw [hAgrees.meaning_eq]
    exact hGathers.fruitful (hAgrees.symm.fruitful hFruitful)

end Grammar

end DerivativeParsing
