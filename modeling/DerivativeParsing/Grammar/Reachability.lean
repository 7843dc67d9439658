import Std.Data.TreeSet
import DerivativeParsing.Grammar.Basic

namespace DerivativeParsing

/-!
# Reachability and validation

One walk visits everything that can be reached from a list of roots along the
children of live nodes.  The walk is depth first, takes the last root and the
last child first, and visits every handle once.  Stale handles are visited too,
but nothing lies behind them.

* `reachable` keeps the live handles of the walk;
* `validate` reports the first handle of the walk that is stale or belongs to a
  delegate without a target.

The walk ends because every step either takes a handle off the stack or visits a
live node for the first time, which puts at most two handles on it.
-/

namespace Grammar

variable {Λ : Lexicon}

/-- The handles behind a handle: the children of its node, none if it is stale. -/
def successors (grammar : Grammar Λ) (handle : Handle) : List Handle :=
  match grammar.get? handle with
  | some node => node.children
  | none => []

/-- The number of live nodes that a walk has not seen. -/
def unseen (grammar : Grammar Λ) (seen : Std.TreeSet Handle) : Nat :=
  grammar.handles.countP fun handle => !seen.contains handle

/-- A live handle is one of the handles of the grammar. -/
theorem mem_handles_of_get? {grammar : Grammar Λ} {handle : Handle} {node : Node Λ}
    (h : grammar.get? handle = some node) : handle ∈ grammar.handles := by
  obtain ⟨slot, hSlot, -⟩ := Option.map_eq_some_iff.mp h
  obtain ⟨hGet, hGeneration⟩ := Option.filter_eq_some_iff.mp hSlot
  rw [handles, List.mem_filterMap]
  refine ⟨handle.index, ?_, ?_⟩
  · rw [Slotted.mem_occupied, hGet]
    rfl
  · rw [hGet]
    simp only [Option.map_some, Option.some.injEq]
    rw [beq_iff_eq] at hGeneration
    cases handle
    simp_all

/-- Seeing more leaves at most as many nodes unseen. -/
theorem countP_unseen_insert_le (seen : Std.TreeSet Handle) (handle : Handle)
    (all : List Handle) :
    all.countP (fun other => !(seen.insert handle).contains other) ≤
      all.countP (fun other => !seen.contains other) := by
  apply List.countP_mono_left
  intro other _ hOther
  simp only [Std.TreeSet.contains_insert, Bool.not_or, Bool.and_eq_true] at hOther
  exact hOther.2

/-- Seeing a live node for the first time leaves fewer nodes unseen. -/
theorem unseen_insert_lt {grammar : Grammar Λ} {seen : Std.TreeSet Handle}
    {handle : Handle} {node : Node Λ} (hLive : grammar.get? handle = some node)
    (hNew : seen.contains handle = false) :
    grammar.unseen (seen.insert handle) < grammar.unseen seen := by
  have hMem := mem_handles_of_get? hLive
  unfold unseen
  generalize grammar.handles = all at hMem
  induction all with
  | nil => cases hMem
  | cons head tail ih =>
      rw [List.countP_cons, List.countP_cons]
      by_cases hHead : head = handle
      · subst hHead
        have hTail := countP_unseen_insert_le seen head tail
        rw [Std.TreeSet.contains_insert_self, hNew]
        simp only [Bool.not_true, Bool.not_false, if_true, Bool.false_eq_true, if_false]
        omega
      · have hTail := ih (by
          rcases List.mem_cons.mp hMem with h | h
          · exact absurd h.symm hHead
          · exact h)
        have hSame : (seen.insert handle).contains head = seen.contains head := by
          rw [Std.TreeSet.contains_insert]
          have hNe : compare handle head ≠ .eq := fun hEq =>
            hHead (Std.LawfulEqOrd.eq_of_compare hEq).symm
          cases hCompare : compare handle head with
          | eq => exact absurd hCompare hNe
          | lt => simp
          | gt => simp
        rw [hSame]
        omega

/-- Visit the handles on a stack and everything behind them, skipping what was
seen, and add the newly visited handles to the visit in reverse order. -/
def walk (grammar : Grammar Λ) (stack : List Handle) (seen : Std.TreeSet Handle)
    (visited : List Handle) : List Handle :=
  match stack with
  | [] => visited
  | handle :: rest =>
      if seen.contains handle then grammar.walk rest seen visited
      else
        grammar.walk ((grammar.successors handle).reverse ++ rest)
          (seen.insert handle) (handle :: visited)
termination_by stack.length + 2 * grammar.unseen seen
decreasing_by
  · simp
  · rename_i hSeen
    have hNew : seen.contains handle = false :=
      Bool.not_eq_true _ ▸ hSeen
    have hMono : grammar.unseen (seen.insert handle) ≤ grammar.unseen seen :=
      countP_unseen_insert_le seen handle grammar.handles
    simp only [List.length_append, List.length_reverse, List.length_cons]
    cases hLive : grammar.get? handle with
    | none =>
        simp only [successors, hLive, List.length_nil]
        omega
    | some node =>
        have hFewer := unseen_insert_lt hLive hNew
        have hChildren := node.length_children_le
        simp only [successors, hLive]
        omega

/-- Every handle that can be reached from the roots through live nodes, the roots
included, in the order of the walk. -/
def visits (grammar : Grammar Λ) (roots : List Handle) : List Handle :=
  (grammar.walk roots.reverse ∅ []).reverse

/-- The live nodes that can be reached from the roots, the roots included. -/
def reachable (grammar : Grammar Λ) (roots : List Handle) : Std.TreeSet Handle :=
  Std.TreeSet.ofList ((grammar.visits roots).filter grammar.contains)

/-- What is wrong with a handle in a grammar that is to be parsed with. -/
def fault? (grammar : Grammar Λ) (handle : Handle) : Option GrammarError :=
  match grammar.get? handle with
  | none => some (.staleHandle handle)
  | some (.delegate none) => some (.unresolvedDelegate handle)
  | some _ => none

/-- Check that everything reachable from the root is live and that every
reachable delegate has a target. -/
def validate (grammar : Grammar Λ) (root : Handle) : Except GrammarError Unit :=
  match (grammar.visits [root]).findSome? grammar.fault? with
  | some error => .error error
  | none => .ok ()

end Grammar

end DerivativeParsing
