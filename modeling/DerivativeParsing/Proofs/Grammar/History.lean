import DerivativeParsing.Lexicon.Standard
import DerivativeParsing.Proofs.Grammar.Growth

namespace DerivativeParsing
namespace Grammar

/-!
# The history of a grammar

A history is a list of operations, carried out one after another on a new grammar.  An
operation builds a node, changes the node of a live handle, frees nodes or does nothing
(`perform_cases`).

Handles carry the epoch in which they were given out, and every collection begins another
epoch.  So within an epoch nothing is freed, and no slot is filled twice; that is the
account which every operation keeps (`Accounts.perform`).  A node that was freed belongs
to an earlier epoch, and only handles of the current one come to life
(`stale_perform`).

Both facts need that the epochs have not started again, which takes as many collections
as there are epochs.
-/

variable {Λ : Lexicon}

/-- What can be done to a grammar. -/
inductive Operation (Λ : Lexicon) where
  | literal (token : Λ.Token)
  | matching (name : Λ.Predicate)
  | union (left right : Handle)
  | sequence (first second : Handle)
  | repetition (inner : Handle)
  | reduction (inner : Handle) (reducer : Reducer Λ)
  | delegate
  | epsWith (forest : Forest Λ.Token) (origin : Origin)
  | alloc (node : Node Λ) (origin : Origin)
  | placeholder
  | fill (placeholder : Placeholder) (target : Handle)
  | setTarget (delegate target : Handle)
  | collect (roots : List Handle)

/-- Whether an operation collects derived nodes. -/
def Operation.isCollection : Operation Λ → Bool
  | collect _ => true
  | _ => false

/-- The number of collections among operations. -/
def collections (operations : List (Operation Λ)) : Nat :=
  operations.countP Operation.isCollection

/-- Carry out an operation.  The handle of the node that it builds, if it builds one,
comes with the grammar; an operation that is refused leaves the grammar as it is. -/
def perform (grammar : Grammar Λ) : Operation Λ → Option Handle × Grammar Λ
  | .literal token => (grammar.literal token).map some id
  | .matching name => (grammar.matching name).map some id
  | .union left right => (grammar.union left right).map some id
  | .sequence first second => (grammar.sequence first second).map some id
  | .repetition inner => (grammar.repetition inner).map some id
  | .reduction inner reducer => (grammar.reduction inner reducer).map some id
  | .delegate => grammar.delegate.map some id
  | .epsWith forest origin => (grammar.epsWith forest origin).map some id
  | .alloc node origin => (grammar.alloc node origin).map some id
  | .placeholder => grammar.placeholder.map (fun placeholder => some placeholder.handle) id
  | .fill placeholder target => (none, grammar.fill placeholder target)
  | .setTarget delegate target =>
      match grammar.setTarget delegate target with
      | .ok grammar => (none, grammar)
      | .error _ => (none, grammar)
  | .collect roots => (none, (grammar.collect roots).2)

/-- Carry out operations one after another.  The handles of the nodes that they build, in
order, come with the grammar. -/
def history (grammar : Grammar Λ) : List (Operation Λ) → List Handle × Grammar Λ
  | [] => ([], grammar)
  | operation :: operations =>
      let (built, grammar) := grammar.perform operation
      let (rest, grammar) := grammar.history operations
      (built.toList ++ rest, grammar)

variable {grammar : Grammar Λ} {operation : Operation Λ} {operations : List (Operation Λ)}
  {handle root : Handle} {given : List Handle} {node : Node Λ} {origin : Origin}

theorem history_append (grammar : Grammar Λ) (first second : List (Operation Λ)) :
    grammar.history (first ++ second) =
      ((grammar.history first).1 ++ ((grammar.history first).2.history second).1,
        ((grammar.history first).2.history second).2) := by
  induction first generalizing grammar with
  | nil => rfl
  | cons operation first ih =>
      simp only [List.cons_append, history, ih, List.append_assoc]

/-- An operation builds a node, changes the node of a live handle, does nothing or
collects derived nodes. -/
theorem perform_cases (grammar : Grammar Λ) (operation : Operation Λ) :
    (operation.isCollection = false ∧
      ((∃ node origin, grammar.perform operation =
          (some grammar.nextHandle, (grammar.alloc node origin).2)) ∨
        (∃ handle node, grammar.perform operation = (none, grammar.patch handle node)) ∨
        grammar.perform operation = (none, grammar))) ∨
      ∃ roots, operation = .collect roots := by
  cases operation with
  | setTarget delegate target =>
      refine Or.inl ⟨rfl, Or.inr ?_⟩
      cases hSet : grammar.setTarget delegate target with
      | error error => exact Or.inr (by simp only [perform, hSet])
      | ok grammar' =>
          obtain ⟨-, rfl⟩ := setTarget_eq_ok hSet
          exact Or.inl ⟨delegate, .delegate (some target), by simp only [perform, hSet]⟩
  | fill placeholder target => exact Or.inl ⟨rfl, Or.inr (Or.inl ⟨_, _, rfl⟩)⟩
  | collect roots => exact Or.inr ⟨roots, rfl⟩
  | _ => exact Or.inl ⟨rfl, Or.inl ⟨_, _, rfl⟩⟩

section Liveness

theorem contains_iff_slot? :
    grammar.contains handle = true ↔ ∃ slot, grammar.slot? handle = some slot :=
  Option.isSome_iff_exists

theorem contains_eq_false_iff :
    grammar.contains handle = false ↔ grammar.slot? handle = none := by
  rw [contains, Option.isSome_eq_false_iff, Option.isNone_iff_eq_none]

/-- Building a node brings its handle to life, and no other. -/
theorem contains_alloc :
    (grammar.alloc node origin).2.contains handle = true ↔
      handle = grammar.nextHandle ∨ grammar.contains handle = true := by
  rw [contains, slot?_alloc]
  by_cases hNext : handle = grammar.nextHandle
  · rw [if_pos hNext]
    exact ⟨fun _ => Or.inl hNext, fun _ => rfl⟩
  · rw [if_neg hNext]
    exact ⟨Or.inr, fun h => h.resolve_left hNext⟩

/-- The handle that the next node gets is not live. -/
theorem contains_nextHandle (grammar : Grammar Λ) :
    grammar.contains grammar.nextHandle = false :=
  contains_eq_false_iff.mpr grammar.slot?_nextHandle

/-- A patch brings no handle to life and lets none die. -/
theorem contains_patch (grammar : Grammar Λ) (root : Handle) (node : Node Λ)
    (handle : Handle) :
    (grammar.patch root node).contains handle = grammar.contains handle := by
  cases hSlot : grammar.slot? root with
  | none => rw [patch, hSlot]
  | some slot =>
      rw [contains, slot?_patch hSlot]
      by_cases hHandle : handle = root
      · rw [if_pos hHandle, hHandle, contains, hSlot]
        rfl
      · rw [if_neg hHandle]
        rfl

theorem epoch_patch (grammar : Grammar Λ) (root : Handle) (node : Node Λ) :
    (grammar.patch root node).epoch = grammar.epoch := by
  unfold patch
  split <;> rfl

/-- A collection brings no handle to life. -/
theorem contains_of_collect {roots : List Handle}
    (hLive : (grammar.collect roots).2.contains handle = true) :
    grammar.contains handle = true := by
  obtain ⟨slot, hSlot⟩ := contains_iff_slot?.mp hLive
  exact contains_iff_slot?.mpr ⟨slot, (slot?_collect.mp hSlot).1⟩

/-- A collection begins the next epoch, as long as there is another one. -/
theorem epoch_collect {roots : List Handle} (hEpoch : grammar.epoch + 1 < epochs) :
    (grammar.collect roots).2.epoch = grammar.epoch + 1 :=
  Nat.mod_eq_of_lt hEpoch

end Liveness

section Accounts

/-- The account of the handles that a grammar has given out: none was given out twice,
none comes from a later epoch, those of the current epoch are all live, and no other
handle is. -/
structure Accounts (grammar : Grammar Λ) (given : List Handle) : Prop where
  nodup : given.Nodup
  past : ∀ handle ∈ given, handle.generation ≤ grammar.epoch
  current : ∀ handle ∈ given, handle.generation = grammar.epoch →
    grammar.contains handle = true
  live : ∀ handle, grammar.contains handle = true → handle ∈ given

/-- A new node gets a handle that was not given out before. -/
theorem Accounts.alloc (hAccounts : grammar.Accounts given) :
    (grammar.alloc node origin).2.Accounts (given ++ [grammar.nextHandle]) := by
  have hFresh : grammar.nextHandle ∉ given := by
    intro hGiven
    have hLive := hAccounts.current _ hGiven rfl
    rw [contains_nextHandle] at hLive
    cases hLive
  refine ⟨?_, ?_, ?_, ?_⟩
  · rw [List.nodup_append]
    refine ⟨hAccounts.nodup, by simp, ?_⟩
    rintro handle hHandle other hOther rfl
    rw [List.mem_singleton] at hOther
    exact hFresh (hOther ▸ hHandle)
  · intro handle hHandle
    rcases List.mem_append.mp hHandle with hOld | hNew
    · exact hAccounts.past handle hOld
    · rw [List.mem_singleton.mp hNew]
      exact Nat.le_refl _
  · intro handle hHandle hGeneration
    rw [contains_alloc]
    rcases List.mem_append.mp hHandle with hOld | hNew
    · exact Or.inr (hAccounts.current handle hOld hGeneration)
    · exact Or.inl (List.mem_singleton.mp hNew)
  · intro handle hLive
    rcases contains_alloc.mp hLive with rfl | hOld
    · exact List.mem_append_right _ (List.mem_singleton_self _)
    · exact List.mem_append_left _ (hAccounts.live handle hOld)

theorem Accounts.patch (hAccounts : grammar.Accounts given) (root : Handle)
    (node : Node Λ) : (grammar.patch root node).Accounts given where
  nodup := hAccounts.nodup
  past handle hHandle := by
    rw [epoch_patch]
    exact hAccounts.past handle hHandle
  current handle hHandle hGeneration := by
    rw [epoch_patch] at hGeneration
    rw [contains_patch]
    exact hAccounts.current handle hHandle hGeneration
  live handle hLive := by
    rw [contains_patch] at hLive
    exact hAccounts.live handle hLive

/-- In a new epoch no handle is current. -/
theorem Accounts.collect (hAccounts : grammar.Accounts given) (roots : List Handle)
    (hEpoch : grammar.epoch + 1 < epochs) : (grammar.collect roots).2.Accounts given where
  nodup := hAccounts.nodup
  past handle hHandle := by
    have hPast := hAccounts.past handle hHandle
    rw [epoch_collect hEpoch]
    omega
  current handle hHandle hGeneration := by
    have hPast := hAccounts.past handle hHandle
    rw [epoch_collect hEpoch] at hGeneration
    omega
  live handle hLive := hAccounts.live handle (contains_of_collect hLive)

/-- Every operation keeps the account. -/
theorem Accounts.perform (hAccounts : grammar.Accounts given) (operation : Operation Λ)
    (hEpoch : operation.isCollection = true → grammar.epoch + 1 < epochs) :
    (grammar.perform operation).2.Accounts
      (given ++ (grammar.perform operation).1.toList) := by
  rcases grammar.perform_cases operation with
    ⟨-, ⟨node, origin, hBuilt⟩ | ⟨root, node, hPatched⟩ | hSame⟩ | ⟨roots, rfl⟩
  · rw [hBuilt]
    exact hAccounts.alloc
  · rw [hPatched, Option.toList_none, List.append_nil]
    exact hAccounts.patch root node
  · rw [hSame, Option.toList_none, List.append_nil]
    exact hAccounts
  · change (grammar.collect roots).2.Accounts (given ++ [])
    rw [List.append_nil]
    exact hAccounts.collect roots (hEpoch rfl)

/-- An operation advances the epoch exactly if it is a collection. -/
theorem epoch_perform (operation : Operation Λ)
    (hEpoch : operation.isCollection = true → grammar.epoch + 1 < epochs) :
    (grammar.perform operation).2.epoch =
      grammar.epoch + if operation.isCollection then 1 else 0 := by
  rcases grammar.perform_cases operation with
    ⟨hNot, ⟨node, origin, hBuilt⟩ | ⟨root, node, hPatched⟩ | hSame⟩ | ⟨roots, rfl⟩
  · rw [hBuilt, hNot]
    rfl
  · rw [hPatched, hNot]
    exact grammar.epoch_patch root node
  · rw [hSame, hNot]
    rfl
  · exact epoch_collect (hEpoch rfl)

theorem collections_cons (operation : Operation Λ) (operations : List (Operation Λ)) :
    collections (operation :: operations) =
      collections operations + if operation.isCollection then 1 else 0 :=
  List.countP_cons

/-- What every operation keeps while the epochs last, a history keeps. -/
theorem history_induction (Inv : List Handle → Grammar Λ → Prop) (given : List Handle)
    (hStep : ∀ given (grammar : Grammar Λ) operation,
      (operation.isCollection = true → grammar.epoch + 1 < epochs) → Inv given grammar →
      Inv (given ++ (grammar.perform operation).1.toList) (grammar.perform operation).2)
    (hCount : grammar.epoch + collections operations < epochs) (hInv : Inv given grammar) :
    Inv (given ++ (grammar.history operations).1) (grammar.history operations).2 ∧
      (grammar.history operations).2.epoch = grammar.epoch + collections operations := by
  induction operations generalizing grammar given with
  | nil =>
      rw [history, List.append_nil]
      exact ⟨hInv, rfl⟩
  | cons operation operations ih =>
      rw [collections_cons] at hCount
      have hEpoch (hCollection : operation.isCollection = true) :
          grammar.epoch + 1 < epochs := by
        rw [if_pos hCollection] at hCount
        omega
      have hNext := epoch_perform operation hEpoch
      obtain ⟨hLater, hLast⟩ :=
        ih _ (by rw [hNext]; omega) (hStep given grammar operation hEpoch hInv)
      rw [List.append_assoc] at hLater
      refine ⟨hLater, ?_⟩
      rw [collections_cons]
      change ((grammar.perform operation).2.history operations).2.epoch = _
      rw [hLast, hNext]
      omega

theorem accounts_initial : (initial : Grammar Λ).Accounts [Handle.empty, Handle.eps] := by
  have hNone (handle : Handle) :
      contains ({ arena := Slotted.empty, epoch := 0 } : Grammar Λ) handle = false := by
    rw [contains, slot?, Slotted.get?_empty]
    rfl
  have hBare : Accounts ({ arena := Slotted.empty, epoch := 0 } : Grammar Λ) [] := by
    refine ⟨List.nodup_nil, by simp, by simp, fun handle hLive => ?_⟩
    rw [hNone] at hLive
    cases hLive
  have hBoth : (initial : Grammar Λ).Accounts ([] ++ [nextHandle _] ++ [nextHandle _]) :=
    hBare.alloc.alloc
  rwa [nextHandle_single, nextHandle_bare] at hBoth

end Accounts

section Stale

/-- A handle of an earlier epoch that is not live stays so, whatever is done. -/
theorem stale_perform (operation : Operation Λ)
    (hEpoch : operation.isCollection = true → grammar.epoch + 1 < epochs)
    (hPast : handle.generation < grammar.epoch)
    (hStale : grammar.contains handle = false) :
    handle.generation < (grammar.perform operation).2.epoch ∧
      (grammar.perform operation).2.contains handle = false := by
  rw [epoch_perform operation hEpoch]
  refine ⟨by omega, ?_⟩
  rw [← Bool.not_eq_true] at hStale ⊢
  intro hLive
  apply hStale
  rcases grammar.perform_cases operation with
    ⟨-, ⟨node, origin, hBuilt⟩ | ⟨root, node, hPatched⟩ | hSame⟩ | ⟨roots, rfl⟩
  · rw [hBuilt] at hLive
    -- The new handle belongs to the current epoch.
    refine (contains_alloc.mp hLive).resolve_left ?_
    rintro rfl
    exact Nat.lt_irrefl _ hPast
  · rw [hPatched, contains_patch] at hLive
    exact hLive
  · rw [hSame] at hLive
    exact hLive
  · exact contains_of_collect hLive

/-- A stale handle refers to nothing, and no target can be set with it. -/
theorem refused_of_stale (hStale : grammar.contains handle = false) :
    grammar.get? handle = none ∧ grammar.origin? handle = none ∧
      (∀ target, grammar.setTarget handle target =
        .error (.staleHandle (if grammar.contains target then handle else target))) ∧
      ∀ delegate, grammar.setTarget delegate handle = .error (.staleHandle handle) := by
  have hSlot := contains_eq_false_iff.mp hStale
  have hNode : grammar.get? handle = none := by rw [Grammar.get?, hSlot]; rfl
  refine ⟨hNode, by rw [origin?, hSlot]; rfl, fun target => ?_, fun delegate => ?_⟩
  · rw [setTarget, hNode]
    split <;> rfl
  · rw [setTarget, hStale]
    rfl

/-- A handle of an earlier epoch that is not live stays so through a history. -/
theorem stale_history (hCount : grammar.epoch + collections operations < epochs)
    (hPast : handle.generation < grammar.epoch)
    (hStale : grammar.contains handle = false) :
    (grammar.history operations).2.contains handle = false := by
  obtain ⟨⟨-, hLater⟩, -⟩ :=
    history_induction
      (fun _ grammar => handle.generation < grammar.epoch ∧ grammar.contains handle = false) []
      (fun _ _ operation hEpoch hInv => stale_perform operation hEpoch hInv.1 hInv.2)
      hCount ⟨hPast, hStale⟩
  exact hLater

end Stale

/-- A history that starts with a new grammar keeps account of all handles, and its epoch
is the number of collections. -/
theorem accounts_history (operations : List (Operation Λ))
    (hCount : collections operations < epochs) :
    (initial.history operations).2.Accounts
        ([Handle.empty, Handle.eps] ++ (initial.history operations).1) ∧
      (initial.history operations).2.epoch = collections operations := by
  have hStart : (initial : Grammar Λ).epoch = 0 := rfl
  have hEpochs : (initial : Grammar Λ).epoch + collections operations < epochs := by omega
  obtain ⟨hAccounts, hEpoch⟩ :=
    history_induction (fun given grammar => grammar.Accounts given) _
      (fun _ _ operation hEpoch hAccounts => hAccounts.perform operation hEpoch)
      hEpochs accounts_initial
  exact ⟨hAccounts, by rw [hEpoch, hStart, Nat.zero_add]⟩

/-- Handles are never confused: in a history with fewer collections than there are
epochs no handle is given out twice, and a handle whose node was freed by a collection is
never live again. -/
theorem handles_never_confused (operations : List (Operation Λ))
    (hCount : collections operations < epochs) :
    ([Handle.empty, Handle.eps] ++ (initial.history operations).1).Nodup ∧
      ∀ before roots after handle, operations = before ++ .collect roots :: after →
        (initial.history before).2.contains handle = true →
        (initial.history (before ++ [.collect roots])).2.contains handle = false →
        (initial.history operations).2.contains handle = false ∧
          (initial.history operations).2.get? handle = none ∧
          (initial.history operations).2.origin? handle = none ∧
          (∀ target, (initial.history operations).2.setTarget handle target =
            .error (.staleHandle
              (if (initial.history operations).2.contains target then handle else target))) ∧
          ∀ delegate, (initial.history operations).2.setTarget delegate handle =
            .error (.staleHandle handle) := by
  refine ⟨(accounts_history operations hCount).1.nodup, ?_⟩
  rintro before roots after handle rfl hLive hFreed
  have hSplit : collections (before ++ .collect roots :: after) =
      collections (before ++ [.collect roots]) + collections after := by
    rw [List.append_cons]
    exact List.countP_append
  have hBefore : collections (before ++ [.collect roots]) = collections before + 1 := by
    rw [collections, List.countP_append]
    rfl
  obtain ⟨hAccounts, hEpoch⟩ := accounts_history before (by omega)
  obtain ⟨-, hNext⟩ := accounts_history (before ++ [.collect roots]) (by omega)
  -- A live handle was given out, so the collection leaves its epoch behind.
  have hPast := hAccounts.past handle (hAccounts.live handle hLive)
  have hStale : (initial.history (before ++ .collect roots :: after)).2.contains handle =
      false := by
    rw [List.append_cons, history_append]
    exact stale_history (by omega) (by omega) hFreed
  exact ⟨hStale, refused_of_stale hStale⟩

/-- A letter, and a repetition of it that is not the author's. -/
def shortLived : List (Operation Lexicon.characters) :=
  [.literal 'a', .alloc (.repetition ⟨2, 0⟩) .derived]

/-- The repetition is freed, and another one takes its slot. -/
def recycling : List (Operation Lexicon.characters) :=
  shortLived ++ .collect [] :: [.alloc (.repetition ⟨2, 0⟩) .derived]

theorem handles_never_confused_recycling :
    collections recycling < epochs ∧
      (initial.history shortLived).2.contains ⟨3, 0⟩ = true ∧
      (initial.history (shortLived ++ [.collect []])).2.contains ⟨3, 0⟩ = false ∧
      (initial.history recycling).1 = [⟨2, 0⟩, ⟨3, 0⟩, ⟨3, 1⟩] ∧
      ([Handle.empty, Handle.eps] ++ (initial.history recycling).1).Nodup ∧
      (initial.history recycling).2.contains ⟨3, 0⟩ = false ∧
      (initial.history recycling).2.setTarget ⟨3, 0⟩ ⟨2, 0⟩ = .error (.staleHandle ⟨3, 0⟩) := by
  have hCount : collections recycling < epochs := by decide
  have hLive : (initial.history shortLived).2.contains ⟨3, 0⟩ = true := rfl
  have hFreed :
      (initial.history (shortLived ++ [.collect []])).2.contains ⟨3, 0⟩ = false := by
    decide +kernel
  have hTarget : (initial.history recycling).2.contains ⟨2, 0⟩ = true := by decide +kernel
  obtain ⟨hNodup, hNever⟩ := handles_never_confused recycling hCount
  obtain ⟨hStale, -, -, hSet, -⟩ := hNever shortLived [] _ ⟨3, 0⟩ rfl hLive hFreed
  refine ⟨hCount, hLive, hFreed, by decide +kernel, hNodup, hStale, ?_⟩
  rw [hSet, if_pos hTarget]

end Grammar

end DerivativeParsing
