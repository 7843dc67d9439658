namespace DerivativeParsing

/-!
# Slotted stores

A slotted store keeps values in numbered slots.  What is said of it here is all that
is relied on: a new value takes a slot that held none, a value is replaced where it
stands, and a sweep removes the values that a test rejects.  The first two values go
to the first two slots.  Later on, which of the vacant slots a new value takes, and
whether a slot is added for it, is left to the store.
-/

/-- Stores of type `σ` that keep values of type `α` in numbered slots. -/
class Slotted (σ : Type) (α : outParam Type) where
  /-- The store without values. -/
  empty : σ
  /-- The value in a slot, if there is one. -/
  get? : σ → Nat → Option α
  /-- The number of values. -/
  size : σ → Nat
  /-- A bound on the number of values that there is room for. -/
  capacity : σ → Nat
  /-- The slots that hold a value, in ascending order. -/
  occupied : σ → List Nat
  /-- The slot that the next value goes to. -/
  next : σ → Nat
  /-- Put a value into the next slot. -/
  insert : σ → α → σ
  /-- Replace the value in a slot, if there is one. -/
  replace : σ → Nat → α → σ
  /-- The slots whose values a test rejects. -/
  rejected : σ → (Nat → α → Bool) → List Nat
  /-- Remove every value that a test rejects. -/
  sweep : σ → (Nat → α → Bool) → σ
  get?_empty : ∀ index, get? empty index = none
  next_empty : next empty = 0
  next_insert_empty : ∀ value, next (insert empty value) = 1
  get?_next : ∀ store, get? store (next store) = none
  get?_insert : ∀ store value index,
    get? (insert store value) index = if index = next store then some value else get? store index
  get?_replace : ∀ store index value other, get? (replace store index value) other =
    if other = index then (get? store index).map fun _ => value else get? store other
  get?_sweep : ∀ store keep index,
    get? (sweep store keep) index = (get? store index).filter (keep index)
  mem_occupied : ∀ {store index}, index ∈ occupied store ↔ (get? store index).isSome = true
  ascending_occupied : ∀ store, (occupied store).Pairwise (· < ·)
  length_occupied : ∀ store, (occupied store).length = size store
  size_le_capacity : ∀ store, size store ≤ capacity store
  size_sweep_add_length_rejected : ∀ store keep,
    size (sweep store keep) + (rejected store keep).length = size store

end DerivativeParsing
