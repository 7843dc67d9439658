import Mathlib.Logic.Function.Iterate
import DerivativeParsing.Proofs.Grammar.History

namespace DerivativeParsing
namespace Grammar

/-!
# Validation inspects all there is

Validation is defined as a judgement on a whole walk: the first fault among the handles that
were visited.  It can be had step by step as well.  An inspection keeps a stack of handles
and the handles seen before, looks at one handle after another and stops at the first fault.

No step changes what an inspection comes to (`outcome_inspectNext`), and every step gets it
closer to its end (`outstanding_inspectNext_lt`), so it ends with the verdict of the walk after
as many steps as are outstanding at most (`exists_iterate_inspectNext`).

A verdict is exact: a root passes if all it reaches is live and none of it is a delegate
without a target, and the handle in an error is reached and is at fault (`validation_exact`).
-/

variable {Λ : Lexicon} {grammar : Grammar Λ} {root handle : Handle} {rest stack : List Handle}
  {seen : Std.TreeSet Handle} {error : GrammarError}

/-- How far an inspection has got: it has still to look at the handles of a stack, except at
those seen before, or it is over. -/
inductive Inspection where
  | underway (stack : List Handle) (seen : Std.TreeSet Handle)
  | concluded (verdict : Except GrammarError Unit)

/-- Look at the handle on top of the stack, unless it was seen before, and put its children
on the stack if nothing is wrong with it. -/
def inspectNext (grammar : Grammar Λ) : Inspection → Inspection
  | .underway [] _ => .concluded (.ok ())
  | .underway (handle :: rest) seen =>
      if seen.contains handle then .underway rest seen
      else
        match grammar.fault? handle with
        | some error => .concluded (.error error)
        | none =>
            .underway ((grammar.successors handle).reverse ++ rest) (seen.insert handle)
  | .concluded verdict => .concluded verdict

/-- The judgement on handles: the first fault among them, if there is one. -/
def judge (grammar : Grammar Λ) (handles : List Handle) : Except GrammarError Unit :=
  match handles.findSome? grammar.fault? with
  | some error => .error error
  | none => .ok ()

/-- What an inspection comes to. -/
def outcome (grammar : Grammar Λ) : Inspection → Except GrammarError Unit
  | .underway stack seen => grammar.judge (grammar.walk stack seen []).reverse
  | .concluded verdict => verdict

/-- A bound on the steps until an inspection is over. -/
def outstanding (grammar : Grammar Λ) : Inspection → Nat
  | .underway stack seen => stack.length + 2 * grammar.unseen seen + 1
  | .concluded _ => 0

section Walk

theorem walk_of_seen (visited : List Handle) (hSeen : seen.contains handle = true) :
    grammar.walk (handle :: rest) seen visited = grammar.walk rest seen visited := by
  rw [walk, if_pos hSeen]

theorem walk_of_new (visited : List Handle) (hNew : seen.contains handle = false) :
    grammar.walk (handle :: rest) seen visited =
      grammar.walk ((grammar.successors handle).reverse ++ rest) (seen.insert handle)
        (handle :: visited) := by
  rw [walk, if_neg (hNew ▸ Bool.false_ne_true)]

/-- A walk adds to what was visited and does not depend on it. -/
theorem walk_eq_append (grammar : Grammar Λ) (stack : List Handle)
    (seen : Std.TreeSet Handle) (visited : List Handle) :
    grammar.walk stack seen visited = grammar.walk stack seen [] ++ visited := by
  refine walk.induct grammar
    (fun stack seen _ => ∀ visited,
      grammar.walk stack seen visited = grammar.walk stack seen [] ++ visited)
    ?_ ?_ ?_ stack seen [] visited
  · intro seen _ visited
    rw [walk, walk, List.nil_append]
  · intro seen _ handle rest hSeen ih visited
    rw [walk_of_seen visited hSeen, walk_of_seen [] hSeen, ih]
  · intro seen _ handle rest hSeen ih visited
    have hNew : seen.contains handle = false := Bool.not_eq_true _ ▸ hSeen
    rw [walk_of_new visited hNew, walk_of_new [] hNew, ih (handle :: visited), ih [handle],
      List.append_assoc, List.singleton_append]

/-- A handle that is new to a walk is the next one that it visits. -/
theorem reverse_walk_of_new (hNew : seen.contains handle = false) :
    (grammar.walk (handle :: rest) seen []).reverse =
      handle :: (grammar.walk ((grammar.successors handle).reverse ++ rest)
        (seen.insert handle) []).reverse := by
  rw [walk_of_new [] hNew, walk_eq_append, List.reverse_append, List.reverse_singleton,
    List.singleton_append]

end Walk

section Steps

/-- What is wrong with a handle: it is stale, or it belongs to a delegate without a
target. -/
theorem fault?_eq_some_iff :
    grammar.fault? handle = some error ↔
      error = .staleHandle handle ∧ grammar.contains handle = false ∨
        error = .unresolvedDelegate handle ∧ grammar.get? handle = some (.delegate none) := by
  have hStale : grammar.contains handle = false ↔ grammar.get? handle = none := by
    rw [contains_eq_false_iff, get?, Option.map_eq_none_iff]
  rw [hStale, fault?]
  split
  · next hNode => simp [hNode, eq_comm]
  · next hNode => simp [hNode, eq_comm]
  · next node hSet hNode =>
      have hNot : node ≠ .delegate none := fun hNone => hSet (hNone ▸ rfl)
      simp [hNode, hNot]

/-- No step changes what an inspection comes to. -/
theorem outcome_inspectNext (grammar : Grammar Λ) (inspection : Inspection) :
    grammar.outcome (grammar.inspectNext inspection) = grammar.outcome inspection := by
  cases inspection with
  | concluded verdict => rfl
  | underway stack seen =>
      cases stack with
      | nil =>
          rw [outcome, walk]
          rfl
      | cons handle rest =>
          cases hSeen : seen.contains handle with
          | true =>
              rw [inspectNext, if_pos hSeen, outcome, outcome, walk_of_seen [] hSeen]
          | false =>
              rw [inspectNext, if_neg (hSeen ▸ Bool.false_ne_true), outcome,
                reverse_walk_of_new hSeen, judge, List.findSome?_cons]
              cases grammar.fault? handle with
              | some error => rfl
              | none => rfl

/-- A handle without a fault is live, so that having seen it pays for its children. -/
theorem outstanding_inspectNext_lt (grammar : Grammar Λ) (stack : List Handle)
    (seen : Std.TreeSet Handle) :
    grammar.outstanding (grammar.inspectNext (.underway stack seen)) <
      grammar.outstanding (.underway stack seen) := by
  cases stack with
  | nil => exact Nat.succ_pos _
  | cons handle rest =>
      cases hSeen : seen.contains handle with
      | true =>
          rw [inspectNext, if_pos hSeen]
          simp [outstanding]
      | false =>
          rw [inspectNext, if_neg (hSeen ▸ Bool.false_ne_true)]
          cases hFault : grammar.fault? handle with
          | some error => exact Nat.succ_pos _
          | none =>
              obtain ⟨node, hNode, -⟩ := fault?_eq_none_iff.mp hFault
              have hFewer := unseen_insert_lt hNode hSeen
              have hChildren := node.length_children_le
              simp only [outstanding, successors, hNode, List.length_append,
                List.length_reverse, List.length_cons]
              omega

/-- An inspection ends, with what it comes to, when no steps are outstanding. -/
theorem exists_iterate_inspectNext (grammar : Grammar Λ) (inspection : Inspection) :
    ∃ steps ≤ grammar.outstanding inspection,
      grammar.inspectNext^[steps] inspection = .concluded (grammar.outcome inspection) := by
  induction hCount : grammar.outstanding inspection using Nat.strongRecOn
    generalizing inspection with
  | ind count ih =>
      subst hCount
      cases inspection with
      | concluded verdict => exact ⟨0, Nat.le_refl _, rfl⟩
      | underway stack seen =>
          have hLess := grammar.outstanding_inspectNext_lt stack seen
          obtain ⟨steps, hSteps, hEnd⟩ := ih _ hLess _ rfl
          refine ⟨steps + 1, Nat.lt_of_le_of_lt hSteps hLess, ?_⟩
          rw [Function.iterate_succ_apply, hEnd, outcome_inspectNext]

end Steps

section Verdicts

theorem valid_iff :
    grammar.Valid root ↔
      (∀ handle, grammar.Reaches root handle → grammar.contains handle = true) ∧
        ∀ handle, grammar.Reaches root handle →
          grammar.get? handle ≠ some (.delegate none) := by
  constructor
  · intro hValid
    refine ⟨fun handle hReaches => ?_, fun handle hReaches hUnset => ?_⟩
    · obtain ⟨node, hNode, -⟩ := hValid handle hReaches
      exact contains_eq_true_iff.mpr ⟨node, hNode⟩
    · obtain ⟨node, hNode, hSet⟩ := hValid handle hReaches
      exact hSet (Option.some.inj (hNode.symm.trans hUnset))
  · rintro ⟨hLive, hSet⟩ handle hReaches
    obtain ⟨node, hNode⟩ := contains_eq_true_iff.mp (hLive handle hReaches)
    exact ⟨node, hNode, fun hUnset => hSet handle hReaches (hUnset ▸ hNode)⟩

/-- An error is about a handle that the root reaches. -/
theorem exists_fault?_of_validate (hError : grammar.validate root = .error error) :
    ∃ handle, grammar.Reaches root handle ∧ grammar.fault? handle = some error := by
  rw [validate] at hError
  split at hError
  · next other hFound =>
      obtain rfl := Except.error.inj hError
      obtain ⟨handle, hVisited, hFault⟩ := List.exists_of_findSome?_eq_some hFound
      obtain ⟨start, hStart, hReaches⟩ := mem_visits.mp hVisited
      rw [List.mem_singleton.mp hStart] at hReaches
      exact ⟨handle, hReaches, hFault⟩
  · cases hError

end Verdicts

/-- The inspection of a root ends after two steps for every node and two more at most, and it
comes to what validation answers.  Validation accepts a root exactly if all that it reaches
is live and no delegate among it is without a target.  The handle in an error is reached
from the root, and it is stale or belongs to a delegate without a target, as the error
says. -/
theorem validation_exact (grammar : Grammar Λ) (root : Handle) :
    (∃ steps ≤ 2 * grammar.size + 2,
      grammar.inspectNext^[steps] (.underway [root] ∅) = .concluded (grammar.validate root)) ∧
    (grammar.validate root = .ok () ↔
      (∀ handle, grammar.Reaches root handle → grammar.contains handle = true) ∧
        ∀ handle, grammar.Reaches root handle →
          grammar.get? handle ≠ some (.delegate none)) ∧
    ∀ error, grammar.validate root = .error error →
      ∃ handle, grammar.Reaches root handle ∧
        (error = .staleHandle handle ∧ grammar.contains handle = false ∨
          error = .unresolvedDelegate handle ∧
            grammar.get? handle = some (.delegate none)) := by
  refine ⟨?_, validate_eq_ok_iff.trans valid_iff, fun error hError => ?_⟩
  · obtain ⟨steps, hSteps, hEnd⟩ := grammar.exists_iterate_inspectNext (.underway [root] ∅)
    have hUnseen : grammar.unseen ∅ ≤ grammar.size :=
      grammar.length_handles ▸ List.countP_le_length
    have hBound : grammar.outstanding (.underway [root] ∅) = 2 * grammar.unseen ∅ + 2 := by
      rw [outstanding, List.length_singleton]
      omega
    exact ⟨steps, by omega, hEnd⟩
  · obtain ⟨handle, hReaches, hFault⟩ := exists_fault?_of_validate hError
    exact ⟨handle, hReaches, fault?_eq_some_iff.mp hFault⟩

/-- A rule that refers to itself and to a delegate without a target, and a repetition of a
stale handle. -/
def frayed : Grammar Lexicon.characters :=
  (initial.history [.literal 'a', .delegate, .delegate, .union ⟨3, 0⟩ ⟨2, 0⟩,
    .sequence ⟨5, 0⟩ ⟨4, 0⟩, .setTarget ⟨3, 0⟩ ⟨6, 0⟩, .repetition ⟨9, 7⟩]).2

theorem validation_exact_frayed :
    (∃ steps ≤ 18, frayed.inspectNext^[steps] (.underway [⟨3, 0⟩] ∅) =
      .concluded (.error (.unresolvedDelegate ⟨4, 0⟩))) ∧
    frayed.Reaches ⟨3, 0⟩ ⟨4, 0⟩ ∧
    frayed.validate ⟨7, 0⟩ = .error (.staleHandle ⟨9, 7⟩) := by
  have hUnset : frayed.validate ⟨3, 0⟩ = .error (.unresolvedDelegate ⟨4, 0⟩) := by
    decide +kernel
  have hSize : frayed.size = 8 := by decide +kernel
  obtain ⟨hEnds, -, hErrors⟩ := validation_exact frayed ⟨3, 0⟩
  rw [hUnset, hSize] at hEnds
  obtain ⟨handle, hReaches, ⟨hOther, -⟩ | ⟨hSame, -⟩⟩ := hErrors _ hUnset
  · cases hOther
  · cases hSame
    exact ⟨hEnds, hReaches, by decide +kernel⟩

end Grammar

end DerivativeParsing
