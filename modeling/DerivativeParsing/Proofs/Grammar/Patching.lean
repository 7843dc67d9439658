import Mathlib.Data.List.Infix
import DerivativeParsing.Proofs.Grammar.History

namespace DerivativeParsing
namespace Grammar

/-!
# Nodes change by patches only

A placeholder belongs to whoever opened it and is given up when it is filled, so it is
filled once at most.  `pending` follows the placeholders that wait to be filled through a
history, and a history is `owned` if it fills only those.

What an operation does to a live handle is said once (`slot?_perform`): nothing, or it
points a delegate without a target, or a placeholder that waits, at a target.  So a node
that is neither stays as it is for as long as it is live, and the origin of a node stays in
any case (`Preserves.history`).  A placeholder that waits is a delegate, as long as no
handle is given out a second time (`Awaits.history`).

Filling does not look at what it overwrites.  A placeholder that was given a target by
`setTarget` still waits, and when it is filled the target moves
(`placeholder_patched_twice`).
-/

variable {Λ : Lexicon} {grammar grammar' : Grammar Λ} {operation : Operation Λ}
  {operations : List (Operation Λ)} {handle : Handle} {given waiting : List Handle}
  {slot : Slot Λ} {node : Node Λ}

/-- An operation fills no other placeholder than one that waits. -/
def Operation.isOwned (waiting : List Handle) : Operation Λ → Bool
  | fill opened _ => waiting.contains opened.handle
  | _ => true

/-- The placeholders that wait to be filled once an operation was carried out. -/
def Operation.pending (grammar : Grammar Λ) (waiting : List Handle) :
    Operation Λ → List Handle
  | placeholder => grammar.nextHandle :: waiting
  | fill opened _ => waiting.erase opened.handle
  | _ => waiting

/-- Operations fill no other placeholders than those that wait. -/
def owned (grammar : Grammar Λ) (waiting : List Handle) : List (Operation Λ) → Bool
  | [] => true
  | operation :: operations =>
      operation.isOwned waiting &&
        (grammar.perform operation).2.owned (operation.pending grammar waiting) operations

/-- The placeholders that wait to be filled once operations were carried out. -/
def pending (grammar : Grammar Λ) (waiting : List Handle) :
    List (Operation Λ) → List Handle
  | [] => waiting
  | operation :: operations =>
      (grammar.perform operation).2.pending (operation.pending grammar waiting) operations

theorem owned_append (grammar : Grammar Λ) (waiting : List Handle)
    (first second : List (Operation Λ)) :
    grammar.owned waiting (first ++ second) =
      (grammar.owned waiting first &&
        (grammar.history first).2.owned (grammar.pending waiting first) second) := by
  induction first generalizing grammar waiting with
  | nil => rfl
  | cons operation first ih =>
      rw [List.cons_append, owned, owned, ih, Bool.and_assoc]
      rfl

/-- Only a new placeholder is added to those that wait. -/
theorem mem_pending (hPending : handle ∈ operation.pending grammar waiting) :
    operation = .placeholder ∧ handle = grammar.nextHandle ∨ handle ∈ waiting := by
  cases operation with
  | placeholder =>
      rcases List.mem_cons.mp hPending with hNew | hOld
      · exact Or.inl ⟨rfl, hNew⟩
      · exact Or.inr hOld
  | fill placeholder target => exact Or.inr (List.mem_of_mem_erase hPending)
  | _ => exact Or.inr hPending

section Step

/-- What an operation does to a handle that stays live: nothing, or it points a delegate
without a target, or a placeholder that waits, at a target. -/
theorem slot?_perform (hOwned : operation.isOwned waiting = true)
    (hSlot : grammar.slot? handle = some slot)
    (hLive : (grammar.perform operation).2.contains handle = true) :
    (grammar.perform operation).2.slot? handle = some slot ∨
      (slot.node = .delegate none ∨ handle ∈ waiting) ∧
        ∃ target, (grammar.perform operation).2.slot? handle =
          some { slot with node := .delegate (some target) } := by
  cases operation with
  | setTarget delegate target =>
      cases hSet : grammar.setTarget delegate target with
      | error error =>
          simp only [perform, hSet]
          exact Or.inl hSlot
      | ok patched =>
          obtain ⟨hUnset, rfl⟩ := setTarget_eq_ok hSet
          obtain ⟨unset, hUnset, hNone⟩ := get?_eq_some_iff.mp hUnset
          simp only [perform, hSet]
          rw [slot?_patch hUnset]
          by_cases hSame : handle = delegate
          · rw [if_pos hSame]
            subst hSame
            obtain rfl := Option.some.inj (hSlot.symm.trans hUnset)
            exact Or.inr ⟨Or.inl hNone, target, rfl⟩
          · rw [if_neg hSame]
            exact Or.inl hSlot
  | fill placeholder target =>
      by_cases hSame : handle = placeholder.handle
      · subst hSame
        have hPatched := slot?_patch hSlot (.delegate (some target)) placeholder.handle
        rw [if_pos rfl] at hPatched
        exact Or.inr ⟨Or.inr (List.contains_iff_mem.mp hOwned), target, hPatched⟩
      · refine Or.inl ?_
        change (grammar.patch placeholder.handle _).slot? handle = some slot
        cases hOther : grammar.slot? placeholder.handle with
        | none =>
            rw [patch, hOther]
            exact hSlot
        | some other =>
            rw [slot?_patch hOther, if_neg hSame]
            exact hSlot
  | collect roots =>
      obtain ⟨kept, hKept⟩ := contains_iff_slot?.mp hLive
      obtain ⟨hBefore, -⟩ := slot?_collect.mp hKept
      obtain rfl := Option.some.inj (hSlot.symm.trans hBefore)
      exact Or.inl hKept
  | _ => exact Or.inl (keeps_alloc grammar _ _ handle slot hSlot)

/-- A live handle keeps its origin and, unless it is a delegate without a target or a
placeholder that waits, its node. -/
structure Preserves (grammar grammar' : Grammar Λ) (waiting : List Handle)
    (handle : Handle) : Prop where
  origin : grammar'.origin? handle = grammar.origin? handle
  node : ∀ node, grammar.get? handle = some node → node ≠ .delegate none →
    handle ∉ waiting → grammar'.get? handle = some node

theorem Preserves.perform (hOwned : operation.isOwned waiting = true)
    (hBefore : grammar.contains handle = true)
    (hAfter : (grammar.perform operation).2.contains handle = true) :
    grammar.Preserves (grammar.perform operation).2 waiting handle := by
  obtain ⟨slot, hSlot⟩ := contains_iff_slot?.mp hBefore
  rcases slot?_perform hOwned hSlot hAfter with hSame | ⟨hPatched, target, hSlot'⟩
  · refine ⟨by rw [origin?, origin?, hSame, hSlot], fun node hNode _ _ => ?_⟩
    rw [get?, hSlot] at hNode
    rw [get?, hSame, hNode]
  · refine ⟨by rw [origin?, origin?, hSlot', hSlot]; rfl, fun node hNode hSet hWaiting => ?_⟩
    rw [get?, hSlot] at hNode
    rcases hPatched with hNone | hWaits
    · exact absurd ((Option.some.inj hNode).symm.trans hNone) hSet
    · exact absurd hWaits hWaiting

end Step

section Runs

/-- What every operation preserves of a handle, a history preserves for as long as the
handle is live. -/
theorem Preserves.history (hOwned : grammar.owned waiting operations = true)
    (hLive : ∀ between, between <+: operations →
      (grammar.history between).2.contains handle = true) :
    grammar.Preserves (grammar.history operations).2 waiting handle := by
  induction operations generalizing grammar waiting with
  | nil => exact ⟨rfl, fun _ hNode _ _ => hNode⟩
  | cons operation operations ih =>
      rw [owned, Bool.and_eq_true] at hOwned
      have hNow : grammar.contains handle = true := hLive [] List.nil_prefix
      have hNext (between : List (Operation Λ)) (hBetween : between <+: operations) :
          ((grammar.perform operation).2.history between).2.contains handle = true :=
        hLive (operation :: between) (List.cons_prefix_cons.mpr ⟨rfl, hBetween⟩)
      have hFirst := Preserves.perform hOwned.1 hNow (hNext [] List.nil_prefix)
      have hRest := ih hOwned.2 hNext
      refine ⟨hRest.origin.trans hFirst.origin, fun node hNode hSet hWaiting => ?_⟩
      refine hRest.node node (hFirst.node node hNode hSet hWaiting) hSet fun hPending => ?_
      -- A live handle is not the one of a placeholder that was opened just now.
      rcases mem_pending hPending with ⟨-, rfl⟩ | hWaits
      · rw [contains_nextHandle] at hNow
        cases hNow
      · exact hWaiting hWaits

/-- The placeholders that wait were given out, and are delegates as long as they are
live. -/
structure Awaits (grammar : Grammar Λ) (given waiting : List Handle) : Prop where
  given : ∀ handle ∈ waiting, handle ∈ given
  delegate : ∀ handle ∈ waiting, ∀ node, grammar.get? handle = some node →
    node.isDelegate = true

/-- A handle that was given out does not come to life. -/
theorem Accounts.contains_of_perform (hAccounts : grammar.Accounts given)
    (hGiven : handle ∈ given)
    (hLive : (grammar.perform operation).2.contains handle = true) :
    grammar.contains handle = true := by
  rcases grammar.perform_cases operation with
    ⟨-, ⟨node, origin, hBuilt⟩ | ⟨root, node, hPatched⟩ | hSame⟩ | ⟨roots, rfl⟩
  · rw [hBuilt] at hLive
    rcases contains_alloc.mp hLive with rfl | hBefore
    · exact hAccounts.current _ hGiven rfl
    · exact hBefore
  · rw [hPatched, contains_patch] at hLive
    exact hLive
  · rw [hSame] at hLive
    exact hLive
  · exact contains_of_collect hLive

theorem Awaits.perform (hAwaits : grammar.Awaits given waiting)
    (hAccounts : grammar.Accounts given) (hOwned : operation.isOwned waiting = true) :
    (grammar.perform operation).2.Awaits (given ++ (grammar.perform operation).1.toList)
      (operation.pending grammar waiting) := by
  refine ⟨fun handle hHandle => ?_, fun handle hHandle node hNode => ?_⟩
  · rcases mem_pending hHandle with ⟨rfl, rfl⟩ | hWaits
    · exact List.mem_append_right _ (List.mem_singleton_self _)
    · exact List.mem_append_left _ (hAwaits.given handle hWaits)
  · rcases mem_pending hHandle with ⟨rfl, rfl⟩ | hWaits
    · change (grammar.alloc (.delegate none) .derived).2.get? grammar.nextHandle = _ at hNode
      rw [get?_alloc, if_pos rfl] at hNode
      rw [← Option.some.inj hNode]
      rfl
    · have hLive := contains_eq_true_iff.mpr ⟨node, hNode⟩
      obtain ⟨slot, hSlot⟩ := contains_iff_slot?.mp
        (hAccounts.contains_of_perform (hAwaits.given handle hWaits) hLive)
      have hDelegate := hAwaits.delegate handle hWaits slot.node (by rw [get?, hSlot]; rfl)
      rcases slot?_perform hOwned hSlot hLive with hSame | ⟨-, target, hPatched⟩
      · rw [get?, hSame] at hNode
        rw [← Option.some.inj hNode]
        exact hDelegate
      · rw [get?, hPatched] at hNode
        rw [← Option.some.inj hNode]
        rfl

/-- What every operation keeps of the placeholders that wait, a history keeps while the
epochs last. -/
theorem Awaits.history (hAwaits : grammar.Awaits given waiting)
    (hAccounts : grammar.Accounts given)
    (hOwned : grammar.owned waiting operations = true)
    (hCount : grammar.epoch + collections operations < epochs) :
    (grammar.history operations).2.Awaits (given ++ (grammar.history operations).1)
      (grammar.pending waiting operations) := by
  induction operations generalizing grammar given waiting with
  | nil =>
      rw [Grammar.history, List.append_nil]
      exact hAwaits
  | cons operation operations ih =>
      rw [collections_cons] at hCount
      rw [owned, Bool.and_eq_true] at hOwned
      have hEpoch (hCollection : operation.isCollection = true) :
          grammar.epoch + 1 < epochs := by
        rw [if_pos hCollection] at hCount
        omega
      have hLater : (grammar.perform operation).2.epoch + collections operations < epochs := by
        rw [epoch_perform operation hEpoch]
        omega
      have hRest := ih (hAwaits.perform hAccounts hOwned.1) (hAccounts.perform operation hEpoch)
        hOwned.2 hLater
      rw [List.append_assoc] at hRest
      exact hRest

end Runs

/-- In a history that fills no other placeholders than those that wait, a handle that stays
live keeps its origin.  It keeps its node if that is no delegate, as long as the epochs have
not started again, and it keeps its target unless it is a placeholder that waits.  A target
that is refused changes nothing. -/
theorem nodes_change_by_patches (operations : List (Operation Λ))
    (hOwned : initial.owned [] operations = true) :
    (∀ before after handle, operations = before ++ after →
      (∀ between, between <+: after →
        (initial.history (before ++ between)).2.contains handle = true) →
      (initial.history operations).2.origin? handle =
          (initial.history before).2.origin? handle ∧
        (∀ node, (initial.history before).2.get? handle = some node →
          node.isDelegate = false → collections before < epochs →
          (initial.history operations).2.get? handle = some node) ∧
        ∀ target, (initial.history before).2.get? handle = some (.delegate (some target)) →
          handle ∉ initial.pending [] before →
          (initial.history operations).2.get? handle = some (.delegate (some target))) ∧
    ∀ delegate target error,
      (initial.history operations).2.setTarget delegate target = .error error →
      ((initial.history operations).2.perform (.setTarget delegate target)).2 =
        (initial.history operations).2 := by
  refine ⟨?_, fun delegate target error hRefused => by simp only [perform, hRefused]⟩
  rintro before after handle rfl hLive
  rw [owned_append, Bool.and_eq_true] at hOwned
  simp only [history_append] at hLive ⊢
  have hPreserves := Preserves.history hOwned.2 hLive
  refine ⟨hPreserves.origin, fun node hNode hOther hCount => ?_, fun target hTarget => ?_⟩
  · -- A placeholder that waits would be a delegate.
    have hEpochs : (initial : Grammar Λ).epoch + collections before < epochs := by
      rw [show (initial : Grammar Λ).epoch = 0 from rfl]
      omega
    have hStart : (initial : Grammar Λ).Awaits [Handle.empty, Handle.eps] [] :=
      ⟨List.forall_mem_nil _, List.forall_mem_nil _⟩
    have hAwaits := hStart.history accounts_initial hOwned.1 hEpochs
    refine hPreserves.node node hNode ?_ fun hWaits => ?_
    · rintro rfl
      cases hOther
    · rw [hAwaits.delegate handle hWaits node hNode] at hOther
      cases hOther
  · exact hPreserves.node _ hTarget (by simp)

/-- A letter, a placeholder that was pointed at it, and a rule that was pointed at the
placeholder. -/
def knotted : List (Operation Lexicon.characters) :=
  [.literal 'a', .placeholder, .fill ⟨⟨3, 0⟩⟩ ⟨2, 0⟩, .delegate, .setTarget ⟨4, 0⟩ ⟨3, 0⟩]

/-- Another placeholder is freed before it is filled and its slot is used again, and the
rule's target is refused a second time. -/
def unravelled : List (Operation Lexicon.characters) :=
  [.placeholder, .collect [], .literal 'b', .fill ⟨⟨5, 0⟩⟩ ⟨2, 0⟩,
    .setTarget ⟨4, 0⟩ ⟨2, 0⟩]

theorem nodes_change_by_patches_unravelled :
    initial.owned [] (knotted ++ unravelled) = true ∧ collections knotted < epochs ∧
      (∀ between, between <+: unravelled → ∀ handle ∈ [⟨2, 0⟩, ⟨3, 0⟩],
        (initial.history (knotted ++ between)).2.contains handle = true) ∧
      (initial.history knotted).2.get? ⟨2, 0⟩ = some (.token (.literal 'a')) ∧
      (initial.history knotted).2.get? ⟨3, 0⟩ = some (.delegate (some ⟨2, 0⟩)) ∧
      ⟨3, 0⟩ ∉ initial.pending [] knotted ∧
      (initial.history (knotted ++ unravelled)).2.get? ⟨2, 0⟩ =
        some (.token (.literal 'a')) ∧
      (initial.history (knotted ++ unravelled)).2.get? ⟨3, 0⟩ =
        some (.delegate (some ⟨2, 0⟩)) ∧
      (initial.history (knotted ++ unravelled)).2.origin? ⟨3, 0⟩ = some .derived := by
  have hOwned : initial.owned [] (knotted ++ unravelled) = true := by decide +kernel
  have hCount : collections knotted < epochs := by decide
  have hPrefixes : ∀ between ∈ unravelled.inits, ∀ handle ∈ [⟨2, 0⟩, ⟨3, 0⟩],
      (initial.history (knotted ++ between)).2.contains handle = true := by decide +kernel
  have hLive (between : List (Operation Lexicon.characters)) (hBetween : between <+: unravelled) :=
    hPrefixes between ((List.mem_inits between unravelled).mpr hBetween)
  have hLetter : (initial.history knotted).2.get? ⟨2, 0⟩ = some (.token (.literal 'a')) := by
    decide +kernel
  have hTarget : (initial.history knotted).2.get? ⟨3, 0⟩ = some (.delegate (some ⟨2, 0⟩)) := by
    decide +kernel
  have hPending : ⟨3, 0⟩ ∉ initial.pending [] knotted := by decide +kernel
  obtain ⟨hKept, -⟩ := nodes_change_by_patches (knotted ++ unravelled) hOwned
  obtain ⟨-, hNode, -⟩ := hKept knotted unravelled ⟨2, 0⟩ rfl fun between hBetween =>
    hLive between hBetween _ (by decide)
  obtain ⟨hOrigin, -, hStays⟩ := hKept knotted unravelled ⟨3, 0⟩ rfl fun between hBetween =>
    hLive between hBetween _ (by decide)
  refine ⟨hOwned, hCount, hLive, hLetter, hTarget, hPending, hNode _ hLetter rfl hCount,
    hStays _ hTarget hPending, hOrigin.trans ?_⟩
  decide +kernel

/-- A placeholder that gets its target before it is filled. -/
def hasty : List (Operation Lexicon.characters) :=
  [.placeholder, .setTarget ⟨2, 0⟩ Handle.eps]

/-- The target of a placeholder moves when the placeholder is filled although it has one. -/
theorem placeholder_patched_twice :
    initial.owned [] (hasty ++ [.fill ⟨⟨2, 0⟩⟩ Handle.empty]) = true ∧
      (initial.history hasty).2.get? ⟨2, 0⟩ = some (.delegate (some Handle.eps)) ∧
      (initial.history (hasty ++ [.fill ⟨⟨2, 0⟩⟩ Handle.empty])).2.get? ⟨2, 0⟩ =
        some (.delegate (some Handle.empty)) := by
  decide +kernel

end Grammar

end DerivativeParsing
