import DerivativeParsing.Text.Quoted

namespace DerivativeParsing

/-!
# Node handles

A node of a grammar is referred to by a handle: the index of its slot in the
arena and the generation in which the slot was filled.  A handle is live only as
long as its slot still holds the node of that generation, so a recycled slot is
never mistaken for the node it held before.

Handles are ordered by index and then by generation.
-/

/-- A reference to a node: the slot's index and the generation of its content. -/
structure Handle where
  index : Nat
  generation : Nat
deriving DecidableEq

namespace Handle

instance : Inhabited Handle := ⟨⟨0, 0⟩⟩

instance : Ord Handle :=
  ⟨compareLex (compareOn Handle.index) (compareOn Handle.generation)⟩

theorem compare_def (first second : Handle) :
    compare first second =
      compareLex (compareOn Handle.index) (compareOn Handle.generation)
        first second := rfl

instance : Std.TransOrd Handle :=
  inferInstanceAs (Std.TransCmp
    (compareLex (compareOn Handle.index) (compareOn Handle.generation)))

instance : Std.LawfulEqOrd Handle where
  eq_of_compare {first second} h := by
    rw [compare_def, compareLex_eq_eq] at h
    obtain ⟨hIndex, hGeneration⟩ := h
    cases first
    cases second
    simp_all [compareOn]

/-- The short text of a handle, which shows only the index. -/
def display (handle : Handle) : String := "#" ++ Text.ofNat handle.index

/-- The full text of a handle. -/
def describe (handle : Handle) : String :=
  "NodeId \x7b index: " ++ Text.ofNat handle.index ++
    ", generation: " ++ Text.ofNat handle.generation ++ " \x7d"

/-- The wording for a stale handle that was used as if it were live. -/
def staleMessage (handle : Handle) : String :=
  "stale node handle " ++ handle.display ++
    " (generation " ++ Text.ofNat handle.generation ++ ")"

end Handle

end DerivativeParsing
