import DerivativeParsing.Tree.Order

namespace DerivativeParsing

/-!
# Parse forests

A parse forest is a finite set of parse trees.  It is kept as the strictly
ascending list of its members, so that two forests are equal exactly when they
have the same members, and listing a forest needs no choice of order.

Membership is the view of a forest: every operation has one lemma that says what
it does to membership, and `Forest.ext` turns equal membership into equality.
-/

/-- A finite set of trees, held as the strictly ascending list of its members. -/
structure Forest (τ : Type) [Ord τ] where
  trees : List (Tree τ)
  ascending : trees.Pairwise (fun earlier later => compare earlier later = .lt)

namespace Forest

section Lists

variable {τ : Type} [Ord τ]

/-- Put a tree into its place in an ascending list, unless it is there already. -/
def place (tree : Tree τ) : List (Tree τ) → List (Tree τ)
  | [] => [tree]
  | head :: tail =>
      match compare tree head with
      | .lt => tree :: head :: tail
      | .eq => head :: tail
      | .gt => head :: place tree tail

/-- Merge two ascending lists. -/
def merge : List (Tree τ) → List (Tree τ) → List (Tree τ)
  | [], second => second
  | head :: tail, [] => head :: tail
  | head :: tail, head' :: tail' =>
      match compare head head' with
      | .lt => head :: merge tail (head' :: tail')
      | .eq => head :: merge tail tail'
      | .gt => head' :: merge (head :: tail) tail'
termination_by first second => first.length + second.length

variable [Std.LawfulEqOrd τ]

theorem mem_place {tree candidate : Tree τ} {trees : List (Tree τ)} :
    candidate ∈ place tree trees ↔ candidate = tree ∨ candidate ∈ trees := by
  induction trees with
  | nil => simp [place]
  | cons head tail ih =>
      simp only [place]
      split
      · simp
      · next hEq =>
        rw [Std.LawfulEqOrd.eq_of_compare hEq]
        simp
      · rw [List.mem_cons, ih, List.mem_cons]
        exact or_left_comm

theorem ascending_place [Std.TransOrd τ] (tree : Tree τ) {trees : List (Tree τ)}
    (h : trees.Pairwise (fun earlier later => compare earlier later = .lt)) :
    (place tree trees).Pairwise
      (fun earlier later => compare earlier later = .lt) := by
  induction trees with
  | nil => simp [place]
  | cons head tail ih =>
      rw [List.pairwise_cons] at h
      simp only [place]
      split
      · next hLt =>
        rw [List.pairwise_cons, List.pairwise_cons]
        refine ⟨?_, h⟩
        intro later hLater
        rcases List.mem_cons.mp hLater with rfl | hLater
        · exact hLt
        · exact Std.TransCmp.lt_trans hLt (h.1 later hLater)
      · exact List.pairwise_cons.mpr h
      · next hGt =>
        rw [List.pairwise_cons]
        refine ⟨?_, ih h.2⟩
        intro later hLater
        rcases mem_place.mp hLater with rfl | hLater
        · exact Std.OrientedCmp.lt_of_gt hGt
        · exact h.1 later hLater

theorem mem_merge {candidate : Tree τ} {first second : List (Tree τ)} :
    candidate ∈ merge first second ↔ candidate ∈ first ∨ candidate ∈ second := by
  fun_induction merge first second with
  | case1 second => simp
  | case2 head tail => simp
  | case3 head tail head' tail' hLt ih =>
      simp only [List.mem_cons, ih, or_assoc]
  | case4 head tail head' tail' hEq ih =>
      have hHead := Std.LawfulEqOrd.eq_of_compare hEq
      subst hHead
      rw [List.mem_cons, ih, List.mem_cons, List.mem_cons]
      constructor
      · rintro (h | h | h)
        · exact Or.inl (Or.inl h)
        · exact Or.inl (Or.inr h)
        · exact Or.inr (Or.inr h)
      · rintro ((h | h) | (h | h))
        · exact Or.inl h
        · exact Or.inr (Or.inl h)
        · exact Or.inl h
        · exact Or.inr (Or.inr h)
  | case5 head tail head' tail' hGt ih =>
      simp only [List.mem_cons, ih]
      exact or_left_comm

theorem ascending_merge [Std.TransOrd τ] {first second : List (Tree τ)}
    (hFirst : first.Pairwise (fun earlier later => compare earlier later = .lt))
    (hSecond : second.Pairwise (fun earlier later => compare earlier later = .lt)) :
    (merge first second).Pairwise
      (fun earlier later => compare earlier later = .lt) := by
  fun_induction merge first second with
  | case1 second => exact hSecond
  | case2 head tail => exact hFirst
  | case3 head tail head' tail' hLt ih =>
      rw [List.pairwise_cons] at hFirst
      rw [List.pairwise_cons]
      refine ⟨?_, ih hFirst.2 hSecond⟩
      intro later hLater
      rcases mem_merge.mp hLater with hLater | hLater
      · exact hFirst.1 later hLater
      · rcases List.mem_cons.mp hLater with rfl | hLater
        · exact hLt
        · exact Std.TransCmp.lt_trans hLt
            ((List.pairwise_cons.mp hSecond).1 later hLater)
  | case4 head tail head' tail' hEq ih =>
      have hHead := Std.LawfulEqOrd.eq_of_compare hEq
      subst hHead
      rw [List.pairwise_cons] at hFirst hSecond
      rw [List.pairwise_cons]
      refine ⟨?_, ih hFirst.2 hSecond.2⟩
      intro later hLater
      rcases mem_merge.mp hLater with hLater | hLater
      · exact hFirst.1 later hLater
      · exact hSecond.1 later hLater
  | case5 head tail head' tail' hGt ih =>
      rw [List.pairwise_cons] at hSecond
      rw [List.pairwise_cons]
      refine ⟨?_, ih hFirst hSecond.2⟩
      intro later hLater
      have hLt : compare head' head = .lt := Std.OrientedCmp.lt_of_gt hGt
      rcases mem_merge.mp hLater with hLater | hLater
      · rcases List.mem_cons.mp hLater with rfl | hLater
        · exact hLt
        · exact Std.TransCmp.lt_trans hLt
            ((List.pairwise_cons.mp hFirst).1 later hLater)
      · exact hSecond.1 later hLater

end Lists

variable {τ : Type} [Ord τ]

/-- The forest without trees. -/
def empty : Forest τ := ⟨[], List.Pairwise.nil⟩

instance : EmptyCollection (Forest τ) := ⟨empty⟩

instance : Inhabited (Forest τ) := ⟨empty⟩

instance : Membership (Tree τ) (Forest τ) :=
  ⟨fun forest tree => tree ∈ forest.trees⟩

/-- The forest that holds exactly one tree. -/
def singleton (tree : Tree τ) : Forest τ :=
  ⟨[tree], List.pairwise_singleton _ _⟩

/-- The number of trees. -/
def size (forest : Forest τ) : Nat := forest.trees.length

/-- Whether the forest has no tree. -/
def isEmpty (forest : Forest τ) : Bool := forest.trees.isEmpty

/-- The compact texts of the later trees of a forest, each after a comma. -/
def displayRest (text : τ → String) : List (Tree τ) → String
  | [] => ""
  | tree :: trees => ", " ++ tree.display text ++ displayRest text trees

/-- The text of a forest: the compact texts of its trees, in ascending order,
between braces. -/
def display (text : τ → String) (forest : Forest τ) : String :=
  match forest.trees with
  | [] => "\x7b\x7d"
  | tree :: trees =>
      "\x7b" ++ tree.display text ++ displayRest text trees ++ "\x7d"

/-- Whether the forest is the one of a plain empty match, which holds the tree
`nil` and no other. -/
def isNil (forest : Forest τ) : Bool :=
  match forest.trees with
  | [.nil] => true
  | _ => false

theorem eq_of_trees_eq {first second : Forest τ} (h : first.trees = second.trees) :
    first = second := by
  cases first
  cases second
  simp_all

instance [Std.LawfulEqOrd τ] : DecidableEq (Forest τ) := fun first second =>
  decidable_of_iff (first.trees = second.trees)
    ⟨eq_of_trees_eq, fun h => h ▸ rfl⟩

theorem mem_def {tree : Tree τ} {forest : Forest τ} :
    tree ∈ forest ↔ tree ∈ forest.trees := Iff.rfl

@[simp]
theorem not_mem_empty (tree : Tree τ) : ¬ tree ∈ (∅ : Forest τ) :=
  List.not_mem_nil

@[simp]
theorem mem_singleton {tree candidate : Tree τ} :
    candidate ∈ singleton tree ↔ candidate = tree :=
  List.mem_singleton

theorem isNil_iff (forest : Forest τ) :
    forest.isNil = true ↔ forest = singleton .nil := by
  obtain ⟨trees, ascending⟩ := forest
  unfold isNil
  constructor
  · intro h
    dsimp only at h
    split at h
    · rfl
    · cases h
  · intro h
    rw [h]
    rfl

section Operations

variable [Std.TransOrd τ] [Std.LawfulEqOrd τ]

/-- Add a tree. -/
def insert (tree : Tree τ) (forest : Forest τ) : Forest τ :=
  ⟨place tree forest.trees, ascending_place tree forest.ascending⟩

/-- The forest of the trees of a list. -/
def ofList (trees : List (Tree τ)) : Forest τ :=
  trees.foldr insert ∅

/-- The trees of either forest. -/
def union (first second : Forest τ) : Forest τ :=
  ⟨merge first.trees second.trees, ascending_merge first.ascending second.ascending⟩

/-- Every tree of the first forest paired with every tree of the second. -/
def cross (first second : Forest τ) : Forest τ :=
  ofList (first.trees.flatMap fun left => second.trees.map (Tree.pair left))

/-- Unite the forests of a list two by two. -/
def unionPairs : List (Forest τ) → List (Forest τ)
  | first :: second :: rest => first.union second :: unionPairs rest
  | rest => rest

/-- Unite the forests of a list in rounds, each of which halves the list; what is
left after the last round is united one by one. -/
def unionRounds : (rounds : Nat) → List (Forest τ) → Forest τ
  | _, [] => ∅
  | _, [forest] => forest
  | 0, forests => forests.foldr union ∅
  | rounds + 1, forests => unionRounds rounds (unionPairs forests)

/-- The trees of all the forests of a list. -/
def unionAll (forests : List (Forest τ)) : Forest τ :=
  unionRounds forests.length forests

/-- The trees of all the forests that `rewrite` makes of the members. -/
def flatMap (forest : Forest τ) (rewrite : Tree τ → Forest τ) : Forest τ :=
  unionAll (forest.trees.map rewrite)

@[simp]
theorem mem_insert {tree candidate : Tree τ} {forest : Forest τ} :
    candidate ∈ insert tree forest ↔ candidate = tree ∨ candidate ∈ forest :=
  mem_place

@[simp]
theorem mem_ofList {candidate : Tree τ} {trees : List (Tree τ)} :
    candidate ∈ ofList trees ↔ candidate ∈ trees := by
  unfold ofList
  induction trees with
  | nil => simp
  | cons head tail ih => rw [List.foldr_cons, mem_insert, ih, List.mem_cons]

@[simp]
theorem mem_union {candidate : Tree τ} {first second : Forest τ} :
    candidate ∈ union first second ↔ candidate ∈ first ∨ candidate ∈ second :=
  mem_merge

/-- Uniting forests two by two loses no tree and adds none. -/
theorem mem_unionPairs {candidate : Tree τ} (forests : List (Forest τ)) :
    (∃ forest ∈ unionPairs forests, candidate ∈ forest) ↔
      ∃ forest ∈ forests, candidate ∈ forest := by
  fun_induction unionPairs forests with
  | case1 first second rest ih =>
      simp only [List.mem_cons, exists_eq_or_imp, mem_union, ih, or_assoc]
  | case2 rest => exact Iff.rfl

/-- Uniting forests one by one loses no tree and adds none. -/
theorem mem_foldr_union {candidate : Tree τ} (forests : List (Forest τ)) :
    candidate ∈ forests.foldr union ∅ ↔ ∃ forest ∈ forests, candidate ∈ forest := by
  induction forests with
  | nil => simp
  | cons head tail ih =>
      rw [List.foldr_cons, mem_union, ih]
      simp only [List.mem_cons, exists_eq_or_imp]

/-- The number of rounds does not change what is united. -/
theorem mem_unionRounds {candidate : Tree τ} (rounds : Nat)
    (forests : List (Forest τ)) :
    candidate ∈ unionRounds rounds forests ↔
      ∃ forest ∈ forests, candidate ∈ forest := by
  fun_induction unionRounds rounds forests with
  | case1 => simp
  | case2 => simp
  | case3 forests => exact mem_foldr_union forests
  | case4 rounds forests _ _ ih => rw [ih, mem_unionPairs]

@[simp]
theorem mem_unionAll {candidate : Tree τ} {forests : List (Forest τ)} :
    candidate ∈ unionAll forests ↔ ∃ forest ∈ forests, candidate ∈ forest :=
  mem_unionRounds forests.length forests

@[simp]
theorem mem_cross {candidate : Tree τ} {first second : Forest τ} :
    candidate ∈ cross first second ↔
      ∃ left ∈ first, ∃ right ∈ second, candidate = Tree.pair left right := by
  unfold cross
  rw [mem_ofList, List.mem_flatMap]
  simp only [List.mem_map, mem_def, eq_comm]

@[simp]
theorem mem_flatMap {candidate : Tree τ} {forest : Forest τ}
    {rewrite : Tree τ → Forest τ} :
    candidate ∈ forest.flatMap rewrite ↔
      ∃ tree ∈ forest, candidate ∈ rewrite tree := by
  unfold flatMap
  rw [mem_unionAll]
  simp only [List.mem_map, mem_def]
  constructor
  · rintro ⟨_, ⟨tree, hTree, rfl⟩, hMem⟩
    exact ⟨tree, hTree, hMem⟩
  · rintro ⟨tree, hTree, hMem⟩
    exact ⟨rewrite tree, ⟨tree, hTree, rfl⟩, hMem⟩

end Operations

/-- Two ascending lists with the same members are equal. -/
theorem ascending_ext [Std.TransOrd τ] [Std.LawfulEqOrd τ]
    {first second : List (Tree τ)}
    (hFirst : first.Pairwise (fun earlier later => compare earlier later = .lt))
    (hSecond : second.Pairwise (fun earlier later => compare earlier later = .lt))
    (h : ∀ tree, tree ∈ first ↔ tree ∈ second) : first = second := by
  induction first generalizing second with
  | nil =>
      cases second with
      | nil => rfl
      | cons head tail => exact absurd ((h head).mpr List.mem_cons_self) (by simp)
  | cons head tail ih =>
      cases second with
      | nil => exact absurd ((h head).mp List.mem_cons_self) (by simp)
      | cons head' tail' =>
          rw [List.pairwise_cons] at hFirst hSecond
          have hIrrefl (tree : Tree τ) : compare tree tree ≠ .lt := by
            rw [Std.ReflOrd.compare_self]
            decide
          have hHead : head = head' := by
            rcases List.mem_cons.mp ((h head).mp List.mem_cons_self) with h₁ | h₁
            · exact h₁
            · rcases List.mem_cons.mp ((h head').mpr List.mem_cons_self) with h₂ | h₂
              · exact h₂.symm
              · exact absurd
                  (Std.TransCmp.lt_trans (hFirst.1 _ h₂) (hSecond.1 _ h₁))
                  (hIrrefl head)
          subst hHead
          congr 1
          apply ih hFirst.2 hSecond.2
          intro tree
          constructor
          · intro hMem
            rcases List.mem_cons.mp
                ((h tree).mp (List.mem_cons_of_mem _ hMem)) with rfl | hMem'
            · exact absurd (hFirst.1 _ hMem) (hIrrefl _)
            · exact hMem'
          · intro hMem
            rcases List.mem_cons.mp
                ((h tree).mpr (List.mem_cons_of_mem _ hMem)) with rfl | hMem'
            · exact absurd (hSecond.1 _ hMem) (hIrrefl _)
            · exact hMem'

/-- A forest is determined by its members. -/
theorem ext [Std.TransOrd τ] [Std.LawfulEqOrd τ] {first second : Forest τ}
    (h : ∀ tree, tree ∈ first ↔ tree ∈ second) : first = second :=
  eq_of_trees_eq (ascending_ext first.ascending second.ascending h)

end Forest

end DerivativeParsing
