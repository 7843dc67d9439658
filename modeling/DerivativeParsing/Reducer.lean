import DerivativeParsing.Lexicon

namespace DerivativeParsing

/-!
# Reducers

A reducer rewrites the trees of a match.  It turns one tree into a forest:

* `map` applies a named rewriting;
* `prepend` pairs every tree of a fixed forest on the left, `append` on the right;
* `cons` folds `(head . [rest..])` into `[head rest..]`;
* `compose` applies the inner reducer first and the outer one to all its results.

Reducers are compared by construction.  `flatten` forgets how compositions are
nested and keeps only the chain of reducers, outermost first.
-/

/-- A rewriting of parse trees into forests. -/
inductive Reducer (Λ : Lexicon) where
  | map (name : Λ.Rewriting)
  | prepend (forest : Forest Λ.Token)
  | append (forest : Forest Λ.Token)
  | cons
  | compose (outer inner : Reducer Λ)
deriving DecidableEq

namespace Reducer

variable {Λ : Lexicon}

/-- The trees that a tree is rewritten into. -/
def apply : Reducer Λ → Tree Λ.Token → Forest Λ.Token
  | map name, tree => Forest.singleton (Λ.rewrite name tree)
  | prepend forest, tree =>
      Forest.ofList (forest.trees.map fun left => Tree.pair left tree)
  | append forest, tree =>
      Forest.ofList (forest.trees.map fun right => Tree.pair tree right)
  | cons, tree => Forest.singleton tree.cons
  | compose outer inner, tree => (inner.apply tree).flatMap outer.apply

/-- The trees that the trees of a forest are rewritten into. -/
def applyAll (reducer : Reducer Λ) (forest : Forest Λ.Token) : Forest Λ.Token :=
  forest.flatMap reducer.apply

/-- The chain of reducers behind nested compositions, outermost first. -/
def flatten : Reducer Λ → List (Reducer Λ)
  | compose outer inner => outer.flatten ++ inner.flatten
  | reducer => [reducer]

/-- The text of a reducer; the name behind a rewriting is not shown. -/
def describe : Reducer Λ → String
  | map _ => "map@*"
  | prepend forest => "prepend " ++ forest.display Λ.text
  | append forest => "append " ++ forest.display Λ.text
  | cons => "cons"
  | compose outer inner =>
      "compose(" ++ outer.describe ++ ", " ++ inner.describe ++ ")"

/-- The text of a reducer inside a rendered grammar. -/
def render : Reducer Λ → String
  | map _ => "map"
  | prepend forest => "(prepend " ++ forest.display Λ.text ++ ")"
  | append forest => "(append " ++ forest.display Λ.text ++ ")"
  | cons => "cons"
  | compose outer inner =>
      "(compose " ++ outer.render ++ " " ++ inner.render ++ ")"

@[simp]
theorem mem_apply_map {name : Λ.Rewriting} {tree candidate : Tree Λ.Token} :
    candidate ∈ (map name).apply tree ↔ candidate = Λ.rewrite name tree := by
  simp [apply]

@[simp]
theorem mem_apply_prepend {forest : Forest Λ.Token} {tree candidate : Tree Λ.Token} :
    candidate ∈ (prepend forest).apply tree ↔
      ∃ left ∈ forest, candidate = Tree.pair left tree := by
  rw [apply, Forest.mem_ofList]
  simp only [List.mem_map, Forest.mem_def, eq_comm]

@[simp]
theorem mem_apply_append {forest : Forest Λ.Token} {tree candidate : Tree Λ.Token} :
    candidate ∈ (append forest).apply tree ↔
      ∃ right ∈ forest, candidate = Tree.pair tree right := by
  rw [apply, Forest.mem_ofList]
  simp only [List.mem_map, Forest.mem_def, eq_comm]

@[simp]
theorem mem_apply_cons {tree candidate : Tree Λ.Token} :
    candidate ∈ (cons : Reducer Λ).apply tree ↔ candidate = tree.cons := by
  simp [apply]

@[simp]
theorem mem_apply_compose {outer inner : Reducer Λ} {tree candidate : Tree Λ.Token} :
    candidate ∈ (compose outer inner).apply tree ↔
      ∃ between ∈ inner.apply tree, candidate ∈ outer.apply between := by
  rw [apply, Forest.mem_flatMap]

@[simp]
theorem mem_applyAll {reducer : Reducer Λ} {forest : Forest Λ.Token}
    {candidate : Tree Λ.Token} :
    candidate ∈ reducer.applyAll forest ↔
      ∃ tree ∈ forest, candidate ∈ reducer.apply tree := by
  rw [applyAll, Forest.mem_flatMap]

end Reducer

end DerivativeParsing
