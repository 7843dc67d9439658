import Std.Data.TreeMap

namespace DerivativeParsing

/-!
# Memo tables

A memo table remembers the results of a function by its arguments.  Keys and
results may mention handles into an arena; the table does not keep what they
refer to alive.  Once handles have died, a sweep drops every entry that mentions
one of them, so a table never outlives the nodes it speaks of.

Look-ups that stand for a call are counted as hits and misses; a peek is not.
-/

/-- Values that mention handles of type `η`. -/
class Anchored (η α : Type) where
  /-- The handles a value mentions, in order. -/
  anchors : α → List η

export Anchored (anchors)

/-- Whether every handle a value mentions is live. -/
def isAnchored {η α : Type} [Anchored η α] (live : η → Bool) (value : α) : Bool :=
  (anchors value : List η).all live

/-- A truth value mentions no handle. -/
instance (η : Type) : Anchored η Bool := ⟨fun _ => []⟩

/-- How often a table was asked, and how many entries were dropped from it. -/
structure MemoStats where
  hits : Nat := 0
  misses : Nat := 0
  evicted : Nat := 0
deriving DecidableEq

/-- Remembered results by key. -/
structure Memo (κ ν : Type) [Ord κ] where
  entries : Std.TreeMap κ ν := ∅
  stats : MemoStats := {}

namespace Memo

variable {κ ν : Type} [Ord κ]

instance : Inhabited (Memo κ ν) := ⟨{}⟩

/-- The number of remembered results. -/
def size (memo : Memo κ ν) : Nat := memo.entries.size

/-- The remembered result of a key; the look-up is not counted. -/
def peek? (memo : Memo κ ν) (key : κ) : Option ν := memo.entries[key]?

/-- Whether a key has a remembered result. -/
def contains (memo : Memo κ ν) (key : κ) : Bool := memo.entries.contains key

/-- Count a look-up that found a result. -/
def countHit (memo : Memo κ ν) : Memo κ ν :=
  { memo with stats := { memo.stats with hits := memo.stats.hits + 1 } }

/-- Count a look-up that found no result. -/
def countMiss (memo : Memo κ ν) : Memo κ ν :=
  { memo with stats := { memo.stats with misses := memo.stats.misses + 1 } }

/-- The remembered result of a key, and the table with the look-up counted. -/
def lookup (memo : Memo κ ν) (key : κ) : Option ν × Memo κ ν :=
  match memo.peek? key with
  | some value => (some value, memo.countHit)
  | none => (none, memo.countMiss)

/-- Remember a result, in place of an earlier one for the same key. -/
def insert (memo : Memo κ ν) (key : κ) (value : ν) : Memo κ ν :=
  { memo with entries := memo.entries.insert key value }

/-- Remember several results, a later one in place of an earlier one. -/
def extend (memo : Memo κ ν) (results : List (κ × ν)) : Memo κ ν :=
  results.foldl (fun memo result => memo.insert result.1 result.2) memo

/-- Whether an entry mentions live handles only. -/
def survives {η : Type} [Anchored η κ] [Anchored η ν] (live : η → Bool)
    (key : κ) (value : ν) : Bool :=
  isAnchored live key && isAnchored live value

/-- Drop every entry that mentions a dead handle, and count the dropped ones.  Their
number comes with the table. -/
def sweep {η : Type} [Anchored η κ] [Anchored η ν] (memo : Memo κ ν)
    (live : η → Bool) : Nat × Memo κ ν :=
  let kept := memo.entries.filter (survives live)
  let evicted := memo.size - kept.size
  (evicted,
    { entries := kept
      stats := { memo.stats with evicted := memo.stats.evicted + evicted } })

/-- A look-up finds what a peek finds. -/
theorem lookup_fst (memo : Memo κ ν) (key : κ) :
    (memo.lookup key).1 = memo.peek? key := by
  unfold lookup
  cases memo.peek? key <;> rfl

/-- A look-up changes the counts only. -/
theorem peek?_lookup (memo : Memo κ ν) (key other : κ) :
    (memo.lookup key).2.peek? other = memo.peek? other := by
  unfold lookup
  cases memo.peek? key <;> rfl

section Ordered

variable [Std.TransOrd κ] [Std.LawfulEqOrd κ]

theorem peek?_insert [DecidableEq κ] (memo : Memo κ ν) (key : κ) (value : ν)
    (other : κ) :
    (memo.insert key value).peek? other =
      if other = key then some value else memo.peek? other := by
  rw [peek?, insert, Std.TreeMap.getElem?_insert]
  by_cases hOther : other = key
  · simp [hOther]
  · have hCompare : compare key other ≠ .eq := fun h =>
      hOther (Std.LawfulEqOrd.eq_of_compare h).symm
    rw [if_neg hCompare, if_neg hOther, peek?]

/-- What a table holds after it was extended is new or was there before. -/
theorem peek?_extend_eq_some [DecidableEq κ] {memo : Memo κ ν} {results : List (κ × ν)}
    {key : κ} {value : ν} (h : (memo.extend results).peek? key = some value) :
    (key, value) ∈ results ∨ memo.peek? key = some value := by
  unfold extend at h
  induction results generalizing memo with
  | nil => exact Or.inr h
  | cons result rest ih =>
      rcases ih h with hRest | hMemo
      · exact Or.inl (List.mem_cons_of_mem _ hRest)
      · rw [peek?_insert] at hMemo
        split at hMemo
        · next hKey =>
            rw [hKey, ← Option.some.inj hMemo]
            exact Or.inl List.mem_cons_self
        · exact Or.inr hMemo

/-- A sweep keeps exactly the entries that mention live handles only. -/
theorem peek?_sweep {η : Type} [Anchored η κ] [Anchored η ν] (memo : Memo κ ν)
    (live : η → Bool) (key : κ) :
    (memo.sweep live).2.peek? key = (memo.peek? key).filter (survives live key) := by
  rw [peek?, sweep, peek?]
  exact Std.TreeMap.getElem?_filter'

end Ordered

end Memo

end DerivativeParsing
