import DerivativeParsing.Grammar.Collection
import DerivativeParsing.Proofs.Grammar.Meaning

namespace DerivativeParsing
namespace Grammar

/-!
# How a grammar changes

Four things happen to a grammar: a node is built, a delegate gets a target, a knot is
closed, and derived nodes are collected.  Each of them is described by what it does to
slots (`slot?_alloc`, `slot?_patch`, `slot?_collect`).

What a node means depends on what it reaches and on nothing else: two grammars that
agree on everything a node reaches give it the same matches (`Agrees.meaning_eq`).  A
grammar that grows agrees with itself about its valid nodes (`Valid.agrees`), and so
does a collection about the nodes it keeps (`Valid.agrees_collect`).

The two nodes that every grammar holds are founded: they are there from the start, and
no change touches them.
-/

variable {Λ : Lexicon} {grammar grammar' : Grammar Λ} {handle root : Handle}
  {slot : Slot Λ} {node : Node Λ} {origin : Origin}

theorem slot?_eq_some_iff :
    grammar.slot? handle = some slot ↔
      Slotted.get? grammar.arena handle.index = some slot ∧
        slot.generation = handle.generation := by
  rw [slot?, Option.filter_eq_some_iff, beq_iff_eq]

theorem get?_eq_some_iff :
    grammar.get? handle = some node ↔
      ∃ slot, grammar.slot? handle = some slot ∧ slot.node = node :=
  Option.map_eq_some_iff

theorem contains_eq_true_iff :
    grammar.contains handle = true ↔ ∃ node, grammar.get? handle = some node := by
  rw [contains, get?, Option.isSome_iff_exists]
  constructor
  · rintro ⟨slot, hSlot⟩
    exact ⟨slot.node, by rw [hSlot]; rfl⟩
  · rintro ⟨node, hNode⟩
    obtain ⟨slot, hSlot, -⟩ := Option.map_eq_some_iff.mp hNode
    exact ⟨slot, hSlot⟩

theorem mem_handles_iff : handle ∈ grammar.handles ↔ grammar.contains handle = true := by
  rw [contains_eq_true_iff]
  constructor
  · intro hMem
    obtain ⟨index, -, hSlot⟩ := List.mem_filterMap.mp hMem
    obtain ⟨slot, hGet, rfl⟩ := Option.map_eq_some_iff.mp hSlot
    exact ⟨slot.node, get?_eq_some_iff.mpr ⟨slot, slot?_eq_some_iff.mpr ⟨hGet, rfl⟩, rfl⟩⟩
  · rintro ⟨node, hNode⟩
    exact mem_handles_of_get? hNode

section Changes

/-- Building a node fills the next handle and changes no other. -/
theorem slot?_alloc (grammar : Grammar Λ) (node : Node Λ) (origin : Origin)
    (handle : Handle) :
    (grammar.alloc node origin).2.slot? handle =
      if handle = grammar.nextHandle then some ⟨node, origin, grammar.epoch⟩
      else grammar.slot? handle := by
  obtain ⟨index, generation⟩ := handle
  simp only [alloc, slot?, Slotted.get?_insert, nextHandle, Handle.mk.injEq]
  by_cases hIndex : index = Slotted.next grammar.arena
  · rw [if_pos hIndex, hIndex, Slotted.get?_next]
    by_cases hGeneration : generation = grammar.epoch
    · rw [if_pos ⟨rfl, hGeneration⟩, hGeneration]
      simp
    · rw [if_neg (fun h => hGeneration h.2)]
      simp [Ne.symm hGeneration]
  · rw [if_neg hIndex, if_neg (fun h => hIndex h.1)]

theorem slot?_nextHandle (grammar : Grammar Λ) :
    grammar.slot? grammar.nextHandle = none := by
  rw [slot?, nextHandle, Slotted.get?_next]
  rfl

theorem get?_alloc (grammar : Grammar Λ) (node : Node Λ) (origin : Origin)
    (handle : Handle) :
    (grammar.alloc node origin).2.get? handle =
      if handle = grammar.nextHandle then some node else grammar.get? handle := by
  rw [get?, slot?_alloc]
  split <;> rfl

/-- A patch changes the node of a live handle, and nothing else. -/
theorem slot?_patch (hSlot : grammar.slot? root = some slot) (node : Node Λ)
    (handle : Handle) :
    (grammar.patch root node).slot? handle =
      if handle = root then some { slot with node := node }
      else grammar.slot? handle := by
  obtain ⟨hGet, hGeneration⟩ := slot?_eq_some_iff.mp hSlot
  obtain ⟨index, generation⟩ := handle
  obtain ⟨index', generation'⟩ := root
  rw [patch, hSlot]
  simp only [slot?, Slotted.get?_replace, Handle.mk.injEq]
  by_cases hIndex : index = index'
  · subst hIndex
    rw [if_pos rfl, hGet]
    by_cases hSame : generation = generation'
    · rw [if_pos ⟨rfl, hSame⟩, hSame]
      simp [hGeneration]
    · rw [if_neg (fun h => hSame h.2)]
      have hOther : slot.generation ≠ generation := fun h => hSame (h ▸ hGeneration)
      simp [Option.filter, hOther]
  · rw [if_neg hIndex, if_neg (fun h => hIndex h.1)]

theorem get?_patch {old : Node Λ} (hOld : grammar.get? root = some old)
    (node : Node Λ) (handle : Handle) :
    (grammar.patch root node).get? handle =
      if handle = root then some node else grammar.get? handle := by
  obtain ⟨slot, hSlot, -⟩ := get?_eq_some_iff.mp hOld
  rw [get?, slot?_patch hSlot]
  split <;> rfl

/-- The nodes that a collection keeps: what the roots and the author's nodes reach. -/
def Kept (grammar : Grammar Λ) (roots : List Handle) (handle : Handle) : Prop :=
  ∃ root ∈ roots ++ grammar.pinned, grammar.Reaches root handle

theorem mem_pinned :
    handle ∈ grammar.pinned ↔
      ∃ slot, grammar.slot? handle = some slot ∧ slot.origin = .grammar := by
  rw [pinned, List.mem_filter, beq_iff_eq, origin?, Option.map_eq_some_iff]
  constructor
  · exact And.right
  · rintro ⟨slot, hSlot, hOrigin⟩
    have hNode : grammar.get? handle = some slot.node := by
      rw [get?, hSlot]
      rfl
    exact ⟨mem_handles_of_get? hNode, slot, hSlot, hOrigin⟩

/-- A collection keeps the slots of what it reaches and empties every other. -/
theorem slot?_collect {roots : List Handle} :
    (grammar.collect roots).2.slot? handle = some slot ↔
      grammar.slot? handle = some slot ∧ grammar.Kept roots handle := by
  rw [slot?_eq_some_iff, slot?_eq_some_iff]
  simp only [collect, Slotted.get?_sweep, Option.filter_eq_some_iff]
  rw [and_right_comm, and_congr_right_iff]
  rintro ⟨hGet, hGeneration⟩
  have hSlot : grammar.slot? handle = some slot :=
    slot?_eq_some_iff.mpr ⟨hGet, hGeneration⟩
  have hHandle : (⟨handle.index, slot.generation⟩ : Handle) = handle := by
    rw [hGeneration]
  rw [survives, Bool.or_eq_true, beq_iff_eq, hHandle, Std.TreeSet.contains_iff_mem,
    mem_reachable]
  constructor
  · rintro (hOrigin | ⟨-, hKept⟩)
    · exact ⟨handle, List.mem_append_right _ (mem_pinned.mpr ⟨slot, hSlot, hOrigin⟩),
        Reaches.refl handle⟩
    · exact hKept
  · intro hKept
    refine Or.inr ⟨?_, hKept⟩
    rw [contains, hSlot]
    rfl

theorem get?_collect {roots : List Handle} :
    (grammar.collect roots).2.get? handle = some node ↔
      grammar.get? handle = some node ∧ grammar.Kept roots handle := by
  simp only [get?_eq_some_iff, slot?_collect]
  constructor
  · rintro ⟨slot, ⟨hSlot, hKept⟩, hNode⟩
    exact ⟨⟨slot, hSlot, hNode⟩, hKept⟩
  · rintro ⟨⟨slot, hSlot, hNode⟩, hKept⟩
    exact ⟨slot, ⟨hSlot, hKept⟩, hNode⟩

end Changes

section Agreement

/-- Another grammar holds the same nodes at everything that a root reaches. -/
def Agrees (grammar grammar' : Grammar Λ) (root : Handle) : Prop :=
  ∀ handle, grammar.Reaches root handle → grammar'.get? handle = grammar.get? handle

theorem Agrees.mono (hAgrees : grammar.Agrees grammar' root)
    (hReaches : grammar.Reaches root handle) : grammar.Agrees grammar' handle :=
  fun _ hOther => hAgrees _ (hReaches.trans hOther)

/-- In a grammar that agrees nothing else is reached. -/
theorem Agrees.reaches_of_reaches (hAgrees : grammar.Agrees grammar' root)
    (hReaches : grammar'.Reaches root handle) : grammar.Reaches root handle := by
  induction hReaches with
  | refl => exact Reaches.refl root
  | @tail parent child _ hChild ih =>
      refine ih.tail ?_
      rw [successors, hAgrees parent ih] at hChild
      exact hChild

theorem Agrees.symm (hAgrees : grammar.Agrees grammar' root) :
    grammar'.Agrees grammar root := fun handle hReaches =>
  (hAgrees handle (hAgrees.reaches_of_reaches hReaches)).symm

theorem Agrees.valid (hAgrees : grammar.Agrees grammar' root)
    (hValid : grammar.Valid root) : grammar'.Valid root := by
  intro handle hReaches
  have hReaches := hAgrees.reaches_of_reaches hReaches
  obtain ⟨node, hNode, hSet⟩ := hValid handle hReaches
  exact ⟨node, (hAgrees handle hReaches).trans hNode, hSet⟩

theorem Agrees.fruitful (hAgrees : grammar.Agrees grammar' root)
    (hFruitful : grammar.Fruitful root) : grammar'.Fruitful root := by
  intro handle node hReaches hNode
  have hReaches := hAgrees.reaches_of_reaches hReaches
  exact hFruitful handle node hReaches ((hAgrees handle hReaches).symm.trans hNode)

theorem Agrees.plain (hAgrees : grammar.Agrees grammar' root)
    (hPlain : Relation.TransGen grammar'.Plain root handle) :
    Relation.TransGen grammar.Plain root handle := by
  have hStep {parent child : Handle} (hReaches : grammar.Reaches root parent)
      (hPlain : grammar'.Plain parent child) : grammar.Plain parent child := by
    obtain ⟨node, hNode, hOther⟩ := hPlain
    exact ⟨node, (hAgrees parent hReaches).symm.trans hNode, hOther⟩
  -- The agreement covers what the root reaches, so reaching goes along in the induction.
  suffices hBoth : Relation.TransGen grammar.Plain root handle ∧
      grammar.Reaches root handle from hBoth.1
  induction hPlain with
  | single hPlain =>
      have hPlain := hStep (Reaches.refl root) hPlain
      exact ⟨.single hPlain, Relation.ReflTransGen.single hPlain.mem_successors⟩
  | tail _ hPlain ih =>
      have hPlain := hStep ih.2 hPlain
      exact ⟨ih.1.tail hPlain, ih.2.tail hPlain.mem_successors⟩

theorem Agrees.guarded (hAgrees : grammar.Agrees grammar' root)
    (hGuarded : grammar.Guarded root) : grammar'.Guarded root := by
  intro handle hReaches hCycle
  have hReaches := hAgrees.reaches_of_reaches hReaches
  exact hGuarded handle hReaches ((hAgrees.mono hReaches).plain hCycle)

theorem Agrees.within_eq {view : View} (hAgrees : grammar.Agrees grammar' root)
    (depth : Nat) : grammar'.within view depth root = grammar.within view depth root := by
  induction depth generalizing root with
  | zero => rfl
  | succ depth ih =>
      have hRoot := hAgrees root (Reaches.refl root)
      cases hNode : grammar.get? root with
      | none =>
          funext string result
          rw [hNode] at hRoot
          apply propext
          constructor <;>
          · rintro ⟨node, hSome, -⟩
            simp_all
      | some node =>
          have hChild (child : Handle) (hMem : child ∈ node.children) :
              grammar'.within view depth child = grammar.within view depth child :=
            ih (hAgrees.mono (reaches_child hNode hMem))
          rw [within_succ hNode, within_succ (hRoot.trans hNode)]
          apply le_antisymm
          · exact Node.meaning_mono fun child hMem => (hChild child hMem).le
          · exact Node.meaning_mono fun child hMem => (hChild child hMem).ge

theorem Agrees.meaning_eq {view : View} (hAgrees : grammar.Agrees grammar' root) :
    grammar'.meaning view root = grammar.meaning view root := by
  funext string result
  simp only [meaning, hAgrees.within_eq]

end Agreement

section Growth

/-- A grammar grows: every node stays as it is, except that a delegate without a target
may have got one. -/
def Grows (grammar grammar' : Grammar Λ) : Prop :=
  ∀ handle node, grammar.get? handle = some node → node ≠ .delegate none →
    grammar'.get? handle = some node

/-- Every slot stays as it is. -/
def Keeps (grammar grammar' : Grammar Λ) : Prop :=
  ∀ handle slot, grammar.slot? handle = some slot → grammar'.slot? handle = some slot

theorem Keeps.refl (grammar : Grammar Λ) : grammar.Keeps grammar := fun _ _ h => h

theorem Keeps.trans {later : Grammar Λ} (hFirst : grammar.Keeps grammar')
    (hSecond : grammar'.Keeps later) : grammar.Keeps later :=
  fun handle slot hSlot => hSecond handle slot (hFirst handle slot hSlot)

theorem Keeps.get? (hKeeps : grammar.Keeps grammar')
    (hNode : grammar.get? handle = some node) : grammar'.get? handle = some node := by
  obtain ⟨slot, hSlot, hNode⟩ := get?_eq_some_iff.mp hNode
  exact get?_eq_some_iff.mpr ⟨slot, hKeeps handle slot hSlot, hNode⟩

theorem Keeps.grows (hKeeps : grammar.Keeps grammar') : grammar.Grows grammar' :=
  fun _ _ hNode _ => hKeeps.get? hNode

/-- About its valid nodes a grammar that grows agrees with itself. -/
theorem Valid.agrees (hValid : grammar.Valid root) (hGrows : grammar.Grows grammar') :
    grammar.Agrees grammar' root := by
  intro handle hReaches
  obtain ⟨node, hNode, hSet⟩ := hValid handle hReaches
  rw [hNode]
  exact hGrows handle node hNode hSet

theorem keeps_alloc (grammar : Grammar Λ) (node : Node Λ) (origin : Origin) :
    grammar.Keeps (grammar.alloc node origin).2 := by
  intro handle slot hSlot
  have hNe : handle ≠ grammar.nextHandle := by
    rintro rfl
    rw [slot?_nextHandle] at hSlot
    cases hSlot
  rw [slot?_alloc, if_neg hNe]
  exact hSlot

theorem grows_patch (hUnset : grammar.get? root = some (.delegate none))
    (node : Node Λ) : grammar.Grows (grammar.patch root node) := by
  intro handle other hOther hSet
  have hNe : handle ≠ root := by
    rintro rfl
    rw [hUnset] at hOther
    cases hOther
    exact hSet rfl
  rw [get?_patch hUnset, if_neg hNe]
  exact hOther

/-- A delegate that was built without a target has none as long as only other nodes are
built. -/
theorem Keeps.get?_opened
    (hKeeps : (grammar.alloc (.delegate none) .derived).2.Keeps grammar') :
    grammar'.get? grammar.nextHandle = some (.delegate none) :=
  hKeeps.get? (by rw [get?_alloc, if_pos rfl])

/-- Such a delegate was not there before, so giving it a target leaves alone what was. -/
theorem Keeps.patch_opened
    (hKeeps : (grammar.alloc (.delegate none) .derived).2.Keeps grammar') (target : Handle) :
    grammar.Keeps (grammar'.patch grammar.nextHandle (.delegate (some target))) := by
  intro handle slot hSlot
  obtain ⟨unset, hUnset, -⟩ := get?_eq_some_iff.mp hKeeps.get?_opened
  rw [slot?_patch hUnset, if_neg]
  · exact hKeeps handle slot (keeps_alloc _ _ _ handle slot hSlot)
  · rintro rfl
    rw [slot?_nextHandle] at hSlot
    cases hSlot

/-- About the valid nodes that it keeps a collection agrees with what was before. -/
theorem Valid.agrees_collect {roots : List Handle} (hValid : grammar.Valid root)
    (hKept : grammar.Kept roots root) :
    grammar.Agrees (grammar.collect roots).2 root := by
  intro handle hReaches
  obtain ⟨node, hNode, -⟩ := hValid handle hReaches
  obtain ⟨first, hFirst, hRoot⟩ := hKept
  rw [hNode]
  exact get?_collect.mpr ⟨hNode, first, hFirst, hRoot.trans hReaches⟩

theorem kept_of_collect_get? {roots : List Handle}
    (hNode : (grammar.collect roots).2.get? handle = some node) :
    grammar.Kept roots handle := (get?_collect.mp hNode).2

end Growth

section Foundation

/-- The two nodes that every grammar holds are there, as nodes of its author. -/
structure Founded (grammar : Grammar Λ) : Prop where
  empty : grammar.slot? Handle.empty = some ⟨.empty, .grammar, 0⟩
  eps : grammar.slot? Handle.eps =
    some ⟨.eps (Forest.singleton .nil), .grammar, 0⟩

theorem Founded.get?_empty (hFounded : grammar.Founded) :
    grammar.get? Handle.empty = some .empty := by
  rw [Grammar.get?, hFounded.empty]
  rfl

theorem Founded.get?_eps (hFounded : grammar.Founded) :
    grammar.get? Handle.eps = some (.eps (Forest.singleton .nil)) := by
  rw [Grammar.get?, hFounded.eps]
  rfl

/-- The first node of a grammar is the node without strings. -/
theorem nextHandle_bare :
    nextHandle ({ arena := Slotted.empty, epoch := 0 } : Grammar Λ) = Handle.empty := by
  rw [nextHandle, Slotted.next_empty, Handle.empty]

/-- The second one is the node of a plain empty match. -/
theorem nextHandle_single (node : Node Λ) (origin : Origin) :
    nextHandle (({ arena := Slotted.empty, epoch := 0 } : Grammar Λ).alloc node origin).2 =
      Handle.eps := by
  simp only [alloc, nextHandle, Slotted.next_insert_empty, Handle.eps]

theorem founded_initial : (initial : Grammar Λ).Founded := by
  constructor
  · simp only [initial, slot?_alloc, nextHandle_bare, nextHandle_single]
    rfl
  · simp only [initial, slot?_alloc, nextHandle_single]
    rfl

theorem Founded.keeps (hFounded : grammar.Founded) (hKeeps : grammar.Keeps grammar') :
    grammar'.Founded :=
  ⟨hKeeps _ _ hFounded.empty, hKeeps _ _ hFounded.eps⟩

theorem Founded.patch {target : Option Handle} (hFounded : grammar.Founded)
    (hDelegate : grammar.get? root = some (.delegate target)) (node : Node Λ) :
    (grammar.patch root node).Founded := by
  obtain ⟨slot, hSlot, hTarget⟩ := get?_eq_some_iff.mp hDelegate
  constructor
  · rw [slot?_patch hSlot, if_neg]
    · exact hFounded.empty
    · rintro rfl
      rw [hFounded.get?_empty] at hDelegate
      cases hDelegate
  · rw [slot?_patch hSlot, if_neg]
    · exact hFounded.eps
    · rintro rfl
      rw [hFounded.get?_eps] at hDelegate
      cases hDelegate

theorem Founded.collect (hFounded : grammar.Founded) (roots : List Handle) :
    (grammar.collect roots).2.Founded := by
  have hKept {handle : Handle} {node : Node Λ}
      (hSlot : grammar.slot? handle = some ⟨node, .grammar, 0⟩) :
      grammar.Kept roots handle :=
    ⟨handle, List.mem_append_right _ (mem_pinned.mpr ⟨_, hSlot, rfl⟩),
      Reaches.refl handle⟩
  exact ⟨slot?_collect.mpr ⟨hFounded.empty, hKept hFounded.empty⟩,
    slot?_collect.mpr ⟨hFounded.eps, hKept hFounded.eps⟩⟩

/-- A grammar that was built from the initial one. -/
inductive Built : Grammar Λ → Prop
  | initial : Built Grammar.initial
  | alloc {grammar : Grammar Λ} (node : Node Λ) (origin : Origin) :
      Built grammar → Built (grammar.alloc node origin).2
  | setTarget {grammar grammar' : Grammar Λ} {delegate target : Handle} :
      Built grammar → grammar.setTarget delegate target = .ok grammar' → Built grammar'
  | fill {grammar : Grammar Λ} {placeholder : Placeholder} {current : Option Handle}
      (target : Handle) :
      Built grammar → grammar.get? placeholder.handle = some (.delegate current) →
      Built (grammar.fill placeholder target)
  | collect {grammar : Grammar Λ} (roots : List Handle) :
      Built grammar → Built (grammar.collect roots).2

/-- A target is set only for a delegate that has none. -/
theorem setTarget_eq_ok {delegate target : Handle}
    (hSet : grammar.setTarget delegate target = .ok grammar') :
    grammar.get? delegate = some (.delegate none) ∧
      grammar' = grammar.patch delegate (.delegate (some target)) := by
  unfold setTarget at hSet
  split at hSet
  · split at hSet
    · cases hSet
    · next hUnset =>
        cases hSet
        exact ⟨hUnset, rfl⟩
    · cases hSet
    · cases hSet
  · cases hSet

theorem Built.founded (hBuilt : Built grammar) : grammar.Founded := by
  induction hBuilt with
  | initial => exact founded_initial
  | alloc node origin _ ih => exact ih.keeps (keeps_alloc _ node origin)
  | setTarget _ hSet ih =>
      obtain ⟨hUnset, rfl⟩ := setTarget_eq_ok hSet
      exact ih.patch hUnset _
  | fill target _ hDelegate ih => exact ih.patch hDelegate _
  | collect roots _ ih => exact ih.collect roots

end Foundation

end Grammar

end DerivativeParsing
