namespace DerivativeParsing

/-!
# Parse trees

A parse tree records how a piece of input was matched.

* `nil` is the tree of the empty match;
* `leaf` holds one matched token;
* `pair` joins the trees of two consecutive matches;
* `list` holds the trees of the iterations of a repetition.

The module also fixes the two texts of a tree: `display`, the compact form used
in answers, and `outline`, which names every constructor.  Both take the text of
a token as an argument, so they are the same for every kind of token.
-/

/-- A parse tree over tokens of type `τ`. -/
inductive Tree (τ : Type) where
  | nil
  | leaf (token : τ)
  | pair (left right : Tree τ)
  | list (items : List (Tree τ))

namespace Tree

variable {τ : Type}

instance : Inhabited (Tree τ) := ⟨nil⟩

/-- What holds of a tree once it holds of its parts holds of every tree. -/
@[elab_as_elim]
theorem induction {motive : Tree τ → Prop} (nil : motive nil)
    (leaf : ∀ token, motive (leaf token))
    (pair : ∀ left right, motive left → motive right → motive (pair left right))
    (list : ∀ items, (∀ item ∈ items, motive item) → motive (list items)) :
    ∀ tree, motive tree
  | .nil => nil
  | .leaf token => leaf token
  | .pair left right =>
      pair left right (induction nil leaf pair list left) (induction nil leaf pair list right)
  | .list items => list items fun item _ => induction nil leaf pair list item

mutual

/-- The matched tokens, in input order. -/
def leaves : Tree τ → List τ
  | nil => []
  | leaf token => [token]
  | pair left right => left.leaves ++ right.leaves
  | list items => leavesOfAll items

/-- The matched tokens of consecutive trees, in input order. -/
def leavesOfAll : List (Tree τ) → List τ
  | [] => []
  | item :: items => item.leaves ++ leavesOfAll items

end

mutual

/-- The compact text of a tree: `()`, the token, `(l . r)` or `[a b c]`. -/
def display (text : τ → String) : Tree τ → String
  | nil => "()"
  | leaf token => text token
  | pair left right =>
      "(" ++ left.display text ++ " . " ++ right.display text ++ ")"
  | list [] => "[]"
  | list (item :: items) =>
      "[" ++ item.display text ++ displayRest text items ++ "]"

/-- The compact texts of the later items of a list, each after a blank. -/
def displayRest (text : τ → String) : List (Tree τ) → String
  | [] => ""
  | item :: items => " " ++ item.display text ++ displayRest text items

end

mutual

/-- The text of a tree that names each of its constructors. -/
def outline (text : τ → String) : Tree τ → String
  | nil => "Nil"
  | leaf token => "Leaf(" ++ text token ++ ")"
  | pair left right =>
      "Pair(" ++ left.outline text ++ ", " ++ right.outline text ++ ")"
  | list [] => "List([])"
  | list (item :: items) =>
      "List([" ++ item.outline text ++ outlineRest text items ++ "])"

/-- The constructor texts of the later items of a list, each after a comma. -/
def outlineRest (text : τ → String) : List (Tree τ) → String
  | [] => ""
  | item :: items => ", " ++ item.outline text ++ outlineRest text items

end

/-- The text matched by a tree over characters. -/
def spelling (tree : Tree Char) : String :=
  String.ofList tree.leaves

/-- Fold a head and the list after it, `(head . [rest..])`, into one list
`[head rest..]`.  Every other tree stays as it is. -/
def cons : Tree τ → Tree τ
  | pair head (list items) => list (head :: items)
  | tree => tree

@[simp]
theorem leaves_nil : (nil : Tree τ).leaves = [] := by
  simp [leaves]

@[simp]
theorem leaves_leaf (token : τ) : (leaf token).leaves = [token] := by
  simp [leaves]

@[simp]
theorem leaves_pair (left right : Tree τ) :
    (pair left right).leaves = left.leaves ++ right.leaves := by
  simp [leaves]

theorem leavesOfAll_eq_flatMap (items : List (Tree τ)) :
    leavesOfAll items = items.flatMap leaves := by
  induction items with
  | nil => simp [leavesOfAll]
  | cons item items ih => simp [leavesOfAll, ih]

@[simp]
theorem leaves_list (items : List (Tree τ)) :
    (list items).leaves = items.flatMap leaves := by
  simp [leaves, leavesOfAll_eq_flatMap]

/-- Folding a head into a list keeps the matched tokens and their order. -/
@[simp]
theorem leaves_cons (tree : Tree τ) : tree.cons.leaves = tree.leaves := by
  unfold cons
  split
  · simp
  · rfl

end Tree

end DerivativeParsing
