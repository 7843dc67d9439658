import Mathlib.Data.List.Nodup
import Mathlib.Logic.Relation
import DerivativeParsing.Grammar.Reachability
import DerivativeParsing.Proofs.Counting

namespace DerivativeParsing
namespace Grammar

/-!
# Reachability, validity and guarded cycles

`Reaches` is reachability along the children of live nodes, stated without the walk
that computes it.  The walk visits exactly what its roots reach (`mem_visits`), so
validation decides validity (`validate_eq_ok_iff`): everything that the root reaches is
live, and none of it is a delegate without a target.

A cycle is harmless for a descent that stops at delegates it has met before, as long as
it passes through a delegate.  A root is guarded if every cycle within its reach does.
Below a guarded root the steps that leave a node other than a delegate lower a rank
(`rank_lt`), and no rank is higher than the number of slots.
-/

variable {Λ : Lexicon} {grammar : Grammar Λ} {root handle : Handle}

/-- A handle can be reached from another one through live nodes. -/
def Reaches (grammar : Grammar Λ) : Handle → Handle → Prop :=
  Relation.ReflTransGen fun parent child => child ∈ grammar.successors parent

/-- Everything that a root reaches is live, and every delegate among it has a
target. -/
def Valid (grammar : Grammar Λ) (root : Handle) : Prop :=
  ∀ handle, grammar.Reaches root handle →
    ∃ node, grammar.get? handle = some node ∧ node ≠ .delegate none

theorem Reaches.refl (handle : Handle) : grammar.Reaches handle handle :=
  Relation.ReflTransGen.refl

theorem mem_successors {child : Handle} {node : Node Λ} (hNode : grammar.get? handle = some node) :
    child ∈ grammar.successors handle ↔ child ∈ node.children := by
  rw [successors, hNode]

/-- A child is reached from its parent. -/
theorem reaches_child {child : Handle} {node : Node Λ}
    (hNode : grammar.get? handle = some node)
    (hChild : child ∈ node.children) : grammar.Reaches handle child :=
  Relation.ReflTransGen.single ((mem_successors hNode).mpr hChild)

theorem Valid.mono (hValid : grammar.Valid root) (hReaches : grammar.Reaches root handle) :
    grammar.Valid handle := fun _ hOther => hValid _ (hReaches.trans hOther)

theorem Valid.get? (hValid : grammar.Valid root) :
    ∃ node, grammar.get? root = some node ∧ node ≠ .delegate none :=
  hValid root (Reaches.refl root)

theorem Valid.child {child : Handle} {node : Node Λ} (hValid : grammar.Valid handle)
    (hNode : grammar.get? handle = some node) (hChild : child ∈ node.children) :
    grammar.Valid child := hValid.mono (reaches_child hNode hChild)

theorem Valid.mem_handles (hValid : grammar.Valid handle) : handle ∈ grammar.handles := by
  obtain ⟨node, hNode, -⟩ := hValid.get?
  exact mem_handles_of_get? hNode

section Walk

variable {stack visited : List Handle} {seen : Std.TreeSet Handle}

/-- A property that children inherit holds of everything a walk visits. -/
theorem forall_mem_walk (holds : Handle → Prop)
    (hChild : ∀ parent, holds parent → ∀ child ∈ grammar.successors parent, holds child)
    (hStack : ∀ handle ∈ stack, holds handle)
    (hVisited : ∀ handle ∈ visited, holds handle) :
    ∀ handle ∈ grammar.walk stack seen visited, holds handle := by
  fun_induction walk grammar stack seen visited with
  | case1 seen visited => exact hVisited
  | case2 seen visited handle rest hSeen ih =>
      exact ih (fun other hOther => hStack other (List.mem_cons_of_mem _ hOther)) hVisited
  | case3 seen visited handle rest hSeen ih =>
      have hHandle := hStack handle List.mem_cons_self
      apply ih
      · intro other hOther
        rcases List.mem_append.mp hOther with h | h
        · exact hChild handle hHandle other (List.mem_reverse.mp h)
        · exact hStack other (List.mem_cons_of_mem _ h)
      · intro other hOther
        rcases List.mem_cons.mp hOther with rfl | h
        · exact hHandle
        · exact hVisited other h

/-- What a walk visits contains what was visited and what was on the stack, and is
closed under children. -/
theorem walk_closed (hSeen : ∀ handle, handle ∈ seen ↔ handle ∈ visited)
    (hClosed : ∀ parent ∈ visited, ∀ child ∈ grammar.successors parent,
      child ∈ visited ∨ child ∈ stack) :
    (∀ handle ∈ visited, handle ∈ grammar.walk stack seen visited) ∧
      (∀ handle ∈ stack, handle ∈ grammar.walk stack seen visited) ∧
      ∀ parent ∈ grammar.walk stack seen visited,
        ∀ child ∈ grammar.successors parent,
          child ∈ grammar.walk stack seen visited := by
  fun_induction walk grammar stack seen visited with
  | case1 seen visited =>
      refine ⟨fun _ h => h, fun _ h => absurd h List.not_mem_nil, ?_⟩
      intro parent hParent child hChild
      exact (hClosed parent hParent child hChild).resolve_right List.not_mem_nil
  | case2 seen visited handle rest hContains ih =>
      -- A handle that was visited before only leaves the stack.
      have hHandle : handle ∈ visited :=
        (hSeen handle).mp (Std.TreeSet.contains_iff_mem.mp hContains)
      obtain ⟨hKept, hRest, hResult⟩ := ih hSeen (by
        intro parent hParent child hChild
        rcases hClosed parent hParent child hChild with h | h
        · exact Or.inl h
        · rcases List.mem_cons.mp h with rfl | h
          · exact Or.inl hHandle
          · exact Or.inr h)
      refine ⟨hKept, ?_, hResult⟩
      intro other hOther
      rcases List.mem_cons.mp hOther with rfl | h
      · exact hKept other hHandle
      · exact hRest other h
  | case3 seen visited handle rest hContains ih =>
      -- The children of a new handle go on the stack, which keeps the account closed.
      obtain ⟨hKept, hRest, hResult⟩ := ih
        (by
          intro other
          rw [Std.TreeSet.mem_insert, Std.LawfulEqOrd.compare_eq_iff_eq, List.mem_cons,
            hSeen other, eq_comm])
        (by
          intro parent hParent child hChild
          rcases List.mem_cons.mp hParent with rfl | hParent
          · exact Or.inr (List.mem_append_left _ (List.mem_reverse.mpr hChild))
          · rcases hClosed parent hParent child hChild with h | h
            · exact Or.inl (List.mem_cons_of_mem _ h)
            · rcases List.mem_cons.mp h with rfl | h
              · exact Or.inl List.mem_cons_self
              · exact Or.inr (List.mem_append_right _ h))
      refine ⟨fun other h => hKept other (List.mem_cons_of_mem _ h), ?_, hResult⟩
      intro other hOther
      rcases List.mem_cons.mp hOther with rfl | h
      · exact hKept other List.mem_cons_self
      · exact hRest other (List.mem_append_right _ h)

/-- A walk visits exactly what its roots reach. -/
theorem mem_visits {roots : List Handle} :
    handle ∈ grammar.visits roots ↔ ∃ root ∈ roots, grammar.Reaches root handle := by
  rw [visits, List.mem_reverse]
  constructor
  · refine forall_mem_walk
      (fun handle => ∃ root ∈ roots, grammar.Reaches root handle) ?_ ?_ ?_ handle
    · rintro parent ⟨root, hRoot, hReaches⟩ child hChild
      exact ⟨root, hRoot, hReaches.tail hChild⟩
    · intro root hRoot
      exact ⟨root, List.mem_reverse.mp hRoot, Reaches.refl root⟩
    · intro root hRoot
      exact absurd hRoot List.not_mem_nil
  · rintro ⟨root, hRoot, hReaches⟩
    obtain ⟨-, hStack, hClosed⟩ :=
      @walk_closed Λ grammar roots.reverse [] ∅
        (fun other => ⟨fun h => absurd h Std.TreeSet.not_mem_emptyc,
          fun h => absurd h List.not_mem_nil⟩)
        (fun parent h => absurd h List.not_mem_nil)
    induction hReaches with
    | refl => exact hStack root (List.mem_reverse.mpr hRoot)
    | tail _ hChild ih => exact hClosed _ ih _ hChild

end Walk

theorem mem_reachable {roots : List Handle} :
    handle ∈ grammar.reachable roots ↔
      grammar.contains handle = true ∧ ∃ root ∈ roots, grammar.Reaches root handle := by
  rw [reachable, Std.TreeSet.mem_ofList, List.contains_eq_mem, decide_eq_true_eq,
    List.mem_filter, mem_visits, and_comm]

theorem fault?_eq_none_iff :
    grammar.fault? handle = none ↔
      ∃ node, grammar.get? handle = some node ∧ node ≠ .delegate none := by
  unfold fault?
  split
  · next hNode => simp [hNode]
  · next hNode => simp [hNode]
  · next node hOther hNode =>
      simp only [hNode, Option.some.injEq, exists_eq_left', true_iff]
      rintro rfl
      exact hOther rfl

/-- Validation accepts exactly the valid roots. -/
theorem validate_eq_ok_iff : grammar.validate root = .ok () ↔ grammar.Valid root := by
  have hFault : (grammar.visits [root]).findSome? grammar.fault? = none ↔
      grammar.Valid root := by
    rw [List.findSome?_eq_none_iff]
    constructor
    · intro hNone handle hReaches
      exact fault?_eq_none_iff.mp
        (hNone handle (mem_visits.mpr ⟨root, List.mem_singleton_self root, hReaches⟩))
    · intro hValid handle hVisited
      obtain ⟨other, hOther, hReaches⟩ := mem_visits.mp hVisited
      rw [List.mem_singleton] at hOther
      subst hOther
      exact fault?_eq_none_iff.mpr (hValid handle hReaches)
  rw [← hFault, validate]
  cases (grammar.visits [root]).findSome? grammar.fault? with
  | none => simp
  | some error => simp

/-- No node is listed twice. -/
theorem nodup_handles (grammar : Grammar Λ) : grammar.handles.Nodup := by
  refine List.Nodup.filterMap ?_ (Slotted.ascending_occupied grammar.arena).nodup
  intro index index' handle hFirst hSecond
  obtain ⟨slot, -, rfl⟩ := Option.map_eq_some_iff.mp hFirst
  obtain ⟨slot', -, hSame⟩ := Option.map_eq_some_iff.mp hSecond
  exact (congrArg Handle.index hSame).symm

/-- All nodes are listed. -/
theorem length_handles (grammar : Grammar Λ) : grammar.handles.length = grammar.size := by
  rw [handles, List.length_filterMap_eq_countP, size, ← Slotted.length_occupied,
    List.countP_eq_length]
  intro index hIndex
  rw [Option.isSome_map]
  exact Slotted.mem_occupied.mp hIndex

/-- There are at most as many nodes as slots. -/
theorem length_handles_le (grammar : Grammar Λ) :
    grammar.handles.length ≤ grammar.capacity := by
  rw [length_handles]
  exact Slotted.size_le_capacity grammar.arena

section Guarded

/-- A step from a node other than a delegate to one of its children. -/
def Plain (grammar : Grammar Λ) (parent child : Handle) : Prop :=
  ∃ node, grammar.get? parent = some node ∧ node.isDelegate = false ∧
    child ∈ node.children

/-- No plain steps from a handle run into a cycle. -/
def Tame (grammar : Grammar Λ) (handle : Handle) : Prop :=
  ∀ other, Relation.ReflTransGen grammar.Plain handle other →
    ¬ Relation.TransGen grammar.Plain other other

/-- Every cycle that a root reaches passes through a delegate. -/
def Guarded (grammar : Grammar Λ) (root : Handle) : Prop :=
  ∀ handle, grammar.Reaches root handle → ¬ Relation.TransGen grammar.Plain handle handle

theorem Plain.mem_successors {child : Handle} (hPlain : grammar.Plain handle child) :
    child ∈ grammar.successors handle := by
  obtain ⟨node, hNode, -, hChild⟩ := hPlain
  exact (Grammar.mem_successors hNode).mpr hChild

theorem Guarded.mono (hGuarded : grammar.Guarded root)
    (hReaches : grammar.Reaches root handle) : grammar.Guarded handle :=
  fun _ hOther => hGuarded _ (hReaches.trans hOther)

theorem Guarded.child {child : Handle} {node : Node Λ} (hGuarded : grammar.Guarded handle)
    (hNode : grammar.get? handle = some node) (hChild : child ∈ node.children) :
    grammar.Guarded child := hGuarded.mono (reaches_child hNode hChild)

theorem Guarded.tame (hGuarded : grammar.Guarded root) : grammar.Tame root := by
  intro other hOther
  exact hGuarded other (Relation.ReflTransGen.mono
    (fun _ _ (h : grammar.Plain _ _) => h.mem_successors) root other hOther)

theorem Tame.child {child : Handle} (hTame : grammar.Tame handle)
    (hPlain : grammar.Plain handle child) : grammar.Tame child :=
  fun other hOther => hTame other (hOther.head hPlain)

/-- A handle is tame if all the plain steps from it lead to tame ones: a cycle through
it would be a cycle through one of them. -/
theorem tame_of_plain (hTame : ∀ child, grammar.Plain handle child → grammar.Tame child) :
    grammar.Tame handle := by
  intro other hOther hCycle
  rcases Relation.ReflTransGen.cases_head hOther with rfl | ⟨child, hPlain, hOther⟩
  · obtain ⟨child, hPlain, hBack⟩ := Relation.TransGen.head'_iff.mp hCycle
    exact hTame child hPlain child Relation.ReflTransGen.refl
      (Relation.TransGen.tail' hBack hPlain)
  · exact hTame child hPlain other hOther hCycle

open Classical in
/-- The number of nodes behind a handle before the next delegates. -/
noncomputable def rank (grammar : Grammar Λ) (handle : Handle) : Nat :=
  grammar.handles.countP fun other => Relation.TransGen grammar.Plain handle other

theorem rank_le (grammar : Grammar Λ) (handle : Handle) :
    grammar.rank handle ≤ grammar.capacity :=
  Nat.le_trans List.countP_le_length grammar.length_handles_le

/-- A plain step between live nodes lowers the rank, unless it lies on a cycle. -/
theorem rank_lt {child : Handle} (hPlain : grammar.Plain handle child)
    (hLive : child ∈ grammar.handles)
    (hTame : ¬ Relation.TransGen grammar.Plain child child) :
    grammar.rank child < grammar.rank handle := by
  classical
  unfold rank
  refine countP_lt_countP ?_ hLive (decide_eq_false hTame)
    (decide_eq_true (Relation.TransGen.single hPlain))
  intro other _ hOther
  rw [decide_eq_true_eq] at hOther ⊢
  exact hOther.head hPlain

end Guarded

section Layers

variable {closed : List Handle}

/-- The node of a handle points into a list of handles, and unless it is a delegate with
a target, at lower indices only. -/
def layered (grammar : Grammar Λ) (closed : List Handle) (handle : Handle) : Bool :=
  match grammar.get? handle with
  | none => false
  | some (.delegate none) => false
  | some (.delegate (some target)) => closed.contains target
  | some node => node.children.all fun child =>
      closed.contains child && child.index < handle.index

theorem get?_of_layered (hLayered : grammar.layered closed handle = true) :
    ∃ node, grammar.get? handle = some node ∧ node ≠ .delegate none ∧
      ∀ child ∈ node.children, child ∈ closed ∧
        (node.isDelegate = false → child.index < handle.index) := by
  unfold layered at hLayered
  split at hLayered
  · cases hLayered
  · cases hLayered
  · next target hNode =>
      refine ⟨_, hNode, by simp, fun child hChild => ⟨?_, nofun⟩⟩
      obtain rfl := List.mem_singleton.mp hChild
      exact List.contains_iff_mem.mp hLayered
  · next node hUnset hSet hNode =>
      refine ⟨node, hNode, hUnset, fun child hChild => ?_⟩
      have hChild := List.all_eq_true.mp hLayered child hChild
      rw [Bool.and_eq_true, decide_eq_true_eq] at hChild
      exact ⟨List.contains_iff_mem.mp hChild.1, fun _ => hChild.2⟩

/-- What a layered list holds reaches nothing else. -/
theorem mem_of_layered (hLayered : ∀ handle ∈ closed, grammar.layered closed handle = true)
    (hRoot : root ∈ closed) (hReaches : grammar.Reaches root handle) : handle ∈ closed := by
  induction hReaches with
  | refl => exact hRoot
  | tail _ hChild ih =>
      obtain ⟨node, hNode, -, hChildren⟩ := get?_of_layered (hLayered _ ih)
      exact (hChildren _ ((mem_successors hNode).mp hChild)).1

theorem valid_of_layered (hLayered : ∀ handle ∈ closed, grammar.layered closed handle = true)
    (hRoot : root ∈ closed) : grammar.Valid root := by
  intro handle hReaches
  obtain ⟨node, hNode, hSet, -⟩ :=
    get?_of_layered (hLayered handle (mem_of_layered hLayered hRoot hReaches))
  exact ⟨node, hNode, hSet⟩

/-- A plain step within layers goes down. -/
theorem Plain.of_layered {child : Handle} (hPlain : grammar.Plain handle child)
    (hLayered : grammar.layered closed handle = true) :
    child ∈ closed ∧ child.index < handle.index := by
  obtain ⟨node, hNode, hDelegate, hChild⟩ := hPlain
  obtain ⟨other, hOther, -, hChildren⟩ := get?_of_layered hLayered
  obtain rfl := Option.some.inj (hNode.symm.trans hOther)
  exact ⟨(hChildren _ hChild).1, (hChildren _ hChild).2 hDelegate⟩

/-- Plain steps within layers do not run into a cycle. -/
theorem guarded_of_layered
    (hLayered : ∀ handle ∈ closed, grammar.layered closed handle = true)
    (hRoot : root ∈ closed) : grammar.Guarded root := by
  have hDown {parent child : Handle} (hParent : parent ∈ closed)
      (hPlain : Relation.TransGen grammar.Plain parent child) :
      child ∈ closed ∧ child.index < parent.index := by
    induction hPlain with
    | single hStep => exact hStep.of_layered (hLayered _ hParent)
    | tail _ hStep ih =>
        obtain ⟨hChild, hLower⟩ := hStep.of_layered (hLayered _ ih.1)
        exact ⟨hChild, Nat.lt_trans hLower ih.2⟩
  intro handle hReaches hCycle
  exact Nat.lt_irrefl _ (hDown (mem_of_layered hLayered hRoot hReaches) hCycle).2

end Layers

end Grammar

end DerivativeParsing
