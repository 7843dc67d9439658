import DerivativeParsing.Tree.Basic

namespace DerivativeParsing

/-!
# The order of parse trees

Trees are ordered by shape first: `nil`, then leaves, then pairs, then lists.
Leaves are ordered by their tokens, pairs by the left and then the right part,
and lists lexicographically, a shorter list before its extensions.

The order is total and decides equality as soon as the order of the tokens does.
Both facts are proved here once; forests rely on them for their canonical form.
-/

namespace Tree

variable {τ : Type} [Ord τ]

mutual

/-- Compare two trees by shape, then part by part. -/
def order : Tree τ → Tree τ → Ordering
  | nil, nil => .eq
  | nil, _ => .lt
  | leaf _, nil => .gt
  | leaf first, leaf second => compare first second
  | leaf _, _ => .lt
  | pair _ _, nil => .gt
  | pair _ _, leaf _ => .gt
  | pair left right, pair left' right' =>
      (left.order left').then (right.order right')
  | pair _ _, list _ => .lt
  | list items, list items' => orderAll items items'
  | list _, _ => .gt

/-- Compare two lists of trees lexicographically. -/
def orderAll : List (Tree τ) → List (Tree τ) → Ordering
  | [], [] => .eq
  | [], _ :: _ => .lt
  | _ :: _, [] => .gt
  | item :: items, item' :: items' =>
      (item.order item').then (orderAll items items')

end

instance : Ord (Tree τ) := ⟨order⟩

theorem compare_def (first second : Tree τ) :
    compare first second = first.order second := rfl

section Lawful

mutual

theorem order_self [Std.LawfulEqOrd τ] (tree : Tree τ) : tree.order tree = .eq := by
  cases tree with
  | nil => simp [order]
  | leaf token => simp [order]
  | pair left right => simp [order, order_self left, order_self right]
  | list items => simp [order, orderAll_self items]

theorem orderAll_self [Std.LawfulEqOrd τ] (items : List (Tree τ)) :
    orderAll items items = .eq := by
  cases items with
  | nil => simp [orderAll]
  | cons item items => simp [orderAll, order_self item, orderAll_self items]

end

mutual

theorem eq_of_order [Std.LawfulEqOrd τ] {first second : Tree τ}
    (h : first.order second = .eq) : first = second := by
  cases first with
  | nil => cases second <;> simp_all [order]
  | leaf token => cases second <;> simp_all [order]
  | pair left right =>
      cases second with
      | pair left' right' =>
          simp only [order, Ordering.then_eq_eq] at h
          rw [eq_of_order h.1, eq_of_order h.2]
      | _ => simp [order] at h
  | list items =>
      cases second with
      | list items' =>
          simp only [order] at h
          rw [eq_of_orderAll h]
      | _ => simp [order] at h

theorem eq_of_orderAll [Std.LawfulEqOrd τ] {items items' : List (Tree τ)}
    (h : orderAll items items' = .eq) : items = items' := by
  cases items with
  | nil => cases items' <;> simp_all [orderAll]
  | cons item items =>
      cases items' with
      | nil => simp [orderAll] at h
      | cons item' items' =>
          simp only [orderAll, Ordering.then_eq_eq] at h
          rw [eq_of_order h.1, eq_of_orderAll h.2]

end

variable [Std.LawfulEqOrd τ]

instance : Std.LawfulEqOrd (Tree τ) where
  compare_self := order_self _
  eq_of_compare := eq_of_order

/-- Equality of trees is decided by their order. -/
instance : DecidableEq (Tree τ) := fun first second =>
  decidable_of_iff (compare first second = .eq)
    ⟨Std.LawfulEqOrd.eq_of_compare, fun h => h ▸ order_self first⟩

end Lawful

section Total

mutual

theorem order_swap [Std.TransOrd τ] (first second : Tree τ) :
    first.order second = (second.order first).swap := by
  cases first with
  | nil => cases second <;> simp [order]
  | leaf token =>
      cases second with
      | leaf token' => simpa [order] using Std.OrientedOrd.eq_swap
      | _ => simp [order]
  | pair left right =>
      cases second with
      | pair left' right' =>
          simp only [order, Ordering.swap_then]
          rw [← order_swap left left', ← order_swap right right']
      | _ => simp [order]
  | list items =>
      cases second with
      | list items' => simpa [order] using orderAll_swap items items'
      | _ => simp [order]

theorem orderAll_swap [Std.TransOrd τ] (items items' : List (Tree τ)) :
    orderAll items items' = (orderAll items' items).swap := by
  cases items with
  | nil => cases items' <;> simp [orderAll]
  | cons item items =>
      cases items' with
      | nil => simp [orderAll]
      | cons item' items' =>
          simp only [orderAll, Ordering.swap_then]
          rw [← order_swap item item', ← orderAll_swap items items']

end

instance [Std.TransOrd τ] : Std.OrientedOrd (Tree τ) where
  eq_swap := order_swap _ _

end Total

section Transitive

mutual

theorem order_lt_trans [Std.TransOrd τ] [Std.LawfulEqOrd τ] {first second third : Tree τ}
    (h : first.order second = .lt) (h' : second.order third = .lt) :
    first.order third = .lt := by
  cases first with
  | nil => cases second <;> cases third <;> simp_all [order]
  | leaf token =>
      cases second with
      | leaf token' =>
          cases third with
          | leaf token'' =>
              simp only [order] at h h' ⊢
              exact Std.TransCmp.lt_trans h h'
          | _ => simp_all [order]
      | _ => cases third <;> simp_all [order]
  | pair left right =>
      cases second with
      | pair left' right' =>
          cases third with
          | pair left'' right'' =>
              simp only [order, Ordering.then_eq_lt] at h h' ⊢
              rcases h with h | ⟨hl, hr⟩
              · rcases h' with h' | ⟨hl', hr'⟩
                · exact Or.inl (order_lt_trans h h')
                · rw [← eq_of_order hl']
                  exact Or.inl h
              · rw [eq_of_order hl]
                rcases h' with h' | ⟨hl', hr'⟩
                · exact Or.inl h'
                · exact Or.inr ⟨hl', order_lt_trans hr hr'⟩
          | _ => simp_all [order]
      | _ => cases third <;> simp_all [order]
  | list items =>
      cases second with
      | list items' =>
          cases third with
          | list items'' =>
              simp only [order] at h h' ⊢
              exact orderAll_lt_trans h h'
          | _ => simp_all [order]
      | _ => cases third <;> simp_all [order]

theorem orderAll_lt_trans [Std.TransOrd τ] [Std.LawfulEqOrd τ]
    {items items' items'' : List (Tree τ)} (h : orderAll items items' = .lt)
    (h' : orderAll items' items'' = .lt) : orderAll items items'' = .lt := by
  cases items with
  | nil => cases items' <;> cases items'' <;> simp_all [orderAll]
  | cons item items =>
      cases items' with
      | nil => simp [orderAll] at h
      | cons item' items' =>
          cases items'' with
          | nil => simp [orderAll] at h'
          | cons item'' items'' =>
              simp only [orderAll, Ordering.then_eq_lt] at h h' ⊢
              rcases h with h | ⟨hl, hr⟩
              · rcases h' with h' | ⟨hl', hr'⟩
                · exact Or.inl (order_lt_trans h h')
                · rw [← eq_of_order hl']
                  exact Or.inl h
              · rw [eq_of_order hl]
                rcases h' with h' | ⟨hl', hr'⟩
                · exact Or.inl h'
                · exact Or.inr ⟨hl', orderAll_lt_trans hr hr'⟩

end

instance [Std.TransOrd τ] [Std.LawfulEqOrd τ] : Std.TransOrd (Tree τ) where
  isLE_trans {first second third} h h' := by
    rw [compare_def] at *
    cases hFirst : first.order second with
    | gt => simp [hFirst] at h
    | eq => rw [eq_of_order hFirst]; exact h'
    | lt =>
        cases hSecond : second.order third with
        | gt => simp [hSecond] at h'
        | eq => rw [← eq_of_order hSecond, hFirst]; rfl
        | lt => rw [order_lt_trans hFirst hSecond]; rfl

end Transitive

end Tree

end DerivativeParsing
