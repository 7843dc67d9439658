import Mathlib.Data.Set.Card
import DerivativeParsing.Proofs.Grammar.History

namespace DerivativeParsing
namespace Grammar

/-!
# A collection frees the garbage

The garbage of a grammar is what neither the roots of a collection nor the nodes of the
grammar's author reach.  A collection frees exactly that (`contains_collect_iff`), and what
it keeps stays as it was (`slot?_collect_of_contains`).  What a kept node points at is kept
with it, so no edge comes to dangle that did not dangle before (`contains_child_collect`).

The nodes freed are counted twice, as the slots whose content is rejected and as the
handles that are not live any more, and both counts agree (`ncard_freed`).
-/

variable {Λ : Lexicon} {grammar : Grammar Λ} {roots : List Handle} {handle child : Handle}
  {node : Node Λ}

section Survivors

/-- A collection keeps what the roots reach, and what the author's nodes reach. -/
theorem kept_iff :
    grammar.Kept roots handle ↔
      ∃ root, (root ∈ roots ∨ grammar.origin? root = some .grammar) ∧
        grammar.Reaches root handle := by
  have hPinned (root : Handle) :
      root ∈ grammar.pinned ↔ grammar.origin? root = some .grammar := by
    rw [mem_pinned, origin?, Option.map_eq_some_iff]
  simp only [Kept, List.mem_append, hPinned]

theorem contains_collect_iff :
    (grammar.collect roots).2.contains handle = true ↔
      grammar.contains handle = true ∧ grammar.Kept roots handle := by
  simp only [contains_iff_slot?, slot?_collect, exists_and_right]

theorem slot?_collect_of_contains
    (hLive : (grammar.collect roots).2.contains handle = true) :
    (grammar.collect roots).2.slot? handle = grammar.slot? handle := by
  obtain ⟨slot, hSlot⟩ := contains_iff_slot?.mp hLive
  rw [hSlot, (slot?_collect.mp hSlot).1]

theorem contains_child_collect
    (hNode : (grammar.collect roots).2.get? handle = some node)
    (hChild : child ∈ node.children) (hLive : grammar.contains child = true) :
    (grammar.collect roots).2.contains child = true := by
  obtain ⟨hBefore, root, hRoot, hReaches⟩ := get?_collect.mp hNode
  exact contains_collect_iff.mpr
    ⟨hLive, root, hRoot, hReaches.trans (reaches_child hBefore hChild)⟩

end Survivors

section Count

/-- The slots that a collection empties are as many as the nodes that it frees. -/
theorem size_collect_add (grammar : Grammar Λ) (roots : List Handle) :
    (grammar.collect roots).2.size + (grammar.collect roots).1 = grammar.size :=
  Slotted.size_sweep_add_length_rejected grammar.arena _

theorem perm_handles_collect (grammar : Grammar Λ) (roots : List Handle) :
    (grammar.collect roots).2.handles.Perm
      (grammar.handles.filter (grammar.collect roots).2.contains) := by
  refine (List.perm_ext_iff_of_nodup (nodup_handles _) ((nodup_handles _).filter _)).mpr ?_
  intro handle
  rw [List.mem_filter, mem_handles_iff, mem_handles_iff]
  exact ⟨fun hLive => ⟨contains_of_collect hLive, hLive⟩, And.right⟩

/-- The number that a collection returns is the number of handles that it makes stale. -/
theorem ncard_freed (grammar : Grammar Λ) (roots : List Handle) :
    {handle | grammar.contains handle = true ∧
      (grammar.collect roots).2.contains handle = false}.ncard =
        (grammar.collect roots).1 := by
  have hFreed : {handle | grammar.contains handle = true ∧
      (grammar.collect roots).2.contains handle = false} =
        ((grammar.handles.filter fun handle =>
          !(grammar.collect roots).2.contains handle).toFinset : Set Handle) := by
    ext handle
    simp [mem_handles_iff]
  have hKept : grammar.handles.countP (grammar.collect roots).2.contains =
      (grammar.collect roots).2.size := by
    rw [← length_handles, (perm_handles_collect grammar roots).length_eq,
      List.countP_eq_length_filter]
  have hAll : grammar.handles.length =
      grammar.handles.countP (grammar.collect roots).2.contains +
        grammar.handles.countP fun handle => !(grammar.collect roots).2.contains handle := by
    simpa using List.length_eq_countP_add_countP (grammar.collect roots).2.contains
  have hSize := size_collect_add grammar roots
  rw [length_handles, hKept] at hAll
  rw [hFreed, Set.ncard_coe_finset, List.toFinset_card_of_nodup ((nodup_handles _).filter _),
    ← List.countP_eq_length_filter]
  omega

end Count

/-- After a collection a handle is live if it was live and is that of a node of the author,
or one that the roots or the nodes of the author reach.  What is still live is in its slot as
it was, and so is what it points at, unless that was stale before.  The number returned is
that of the nodes freed, by which the grammar has become smaller. -/
theorem collection_frees_garbage (grammar : Grammar Λ) (roots : List Handle) :
    (∀ handle, (grammar.collect roots).2.contains handle = true ↔
      grammar.contains handle = true ∧
        (grammar.origin? handle = some .grammar ∨
          ∃ root, (root ∈ roots ∨ grammar.origin? root = some .grammar) ∧
            grammar.Reaches root handle)) ∧
    (∀ handle, (grammar.collect roots).2.contains handle = true →
      (grammar.collect roots).2.slot? handle = grammar.slot? handle) ∧
    (∀ handle node child, (grammar.collect roots).2.get? handle = some node →
      child ∈ node.children → grammar.contains child = true →
      (grammar.collect roots).2.contains child = true) ∧
    (grammar.collect roots).1 =
      {handle | grammar.contains handle = true ∧
        (grammar.collect roots).2.contains handle = false}.ncard ∧
    (grammar.collect roots).2.size + (grammar.collect roots).1 = grammar.size := by
  refine ⟨fun handle => ?_, fun _ => slot?_collect_of_contains,
    fun _ _ _ => contains_child_collect, (ncard_freed grammar roots).symm,
    size_collect_add grammar roots⟩
  rw [contains_collect_iff, kept_iff]
  -- A node of the author reaches itself, so it needs no case of its own.
  refine and_congr_right fun _ => ⟨Or.inr, fun hKept => ?_⟩
  rcases hKept with hAuthor | hReached
  · exact ⟨handle, Or.inr hAuthor, Reaches.refl handle⟩
  · exact hReached

/-- A rule of the author that was pointed at a derived node, and three more derived nodes: a
repetition, a union that points at it and at a stale handle, and a node that nothing refers
to. -/
def littered : Grammar Lexicon.characters :=
  (initial.history [.literal 'a', .delegate, .alloc (.repetition ⟨2, 0⟩) .derived,
    .setTarget ⟨3, 0⟩ ⟨4, 0⟩, .alloc (.repetition ⟨4, 0⟩) .derived,
    .alloc (.union ⟨5, 0⟩ ⟨9, 7⟩) .derived, .alloc (.sequence ⟨4, 0⟩ ⟨6, 0⟩) .derived]).2

theorem collection_frees_garbage_littered :
    (littered.collect [⟨6, 0⟩, ⟨9, 7⟩]).1 = 1 ∧
      {handle | littered.contains handle = true ∧
        (littered.collect [⟨6, 0⟩, ⟨9, 7⟩]).2.contains handle = false}.ncard = 1 ∧
      (littered.collect [⟨6, 0⟩, ⟨9, 7⟩]).2.contains ⟨7, 0⟩ = false ∧
      (littered.collect [⟨6, 0⟩, ⟨9, 7⟩]).2.contains ⟨4, 0⟩ = true ∧
      (littered.collect [⟨6, 0⟩, ⟨9, 7⟩]).2.contains ⟨5, 0⟩ = true ∧
      (littered.collect [⟨6, 0⟩, ⟨9, 7⟩]).2.get? ⟨6, 0⟩ = some (.union ⟨5, 0⟩ ⟨9, 7⟩) ∧
      (littered.collect [⟨6, 0⟩, ⟨9, 7⟩]).2.size = 7 := by
  have hFreed : (littered.collect [⟨6, 0⟩, ⟨9, 7⟩]).1 = 1 := by decide +kernel
  have hUnion : (littered.collect [⟨6, 0⟩, ⟨9, 7⟩]).2.get? ⟨6, 0⟩ =
      some (.union ⟨5, 0⟩ ⟨9, 7⟩) := by decide +kernel
  obtain ⟨hLive, -, hChild, hCount, hSize⟩ :=
    collection_frees_garbage littered [⟨6, 0⟩, ⟨9, 7⟩]
  have hTarget : littered.Reaches ⟨3, 0⟩ ⟨4, 0⟩ :=
    reaches_child (show littered.get? ⟨3, 0⟩ = some (.delegate (some ⟨4, 0⟩)) by decide +kernel)
      (List.mem_singleton_self _)
  refine ⟨hFreed, hCount.symm.trans hFreed, by decide +kernel,
    (hLive _).mpr ⟨by decide +kernel, Or.inr ⟨⟨3, 0⟩, Or.inr (by decide +kernel), hTarget⟩⟩,
    hChild _ _ ⟨5, 0⟩ hUnion List.mem_cons_self (by decide +kernel), hUnion, ?_⟩
  rw [hFreed, show littered.size = 8 by decide +kernel] at hSize
  exact Nat.succ_injective hSize

end Grammar

end DerivativeParsing
