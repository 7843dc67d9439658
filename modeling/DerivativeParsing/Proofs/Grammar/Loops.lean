import Mathlib.Data.List.Perm.Subperm
import DerivativeParsing.Proofs.Grammar.Equality
import DerivativeParsing.Proofs.Grammar.Reach

namespace DerivativeParsing
namespace Grammar

/-!
# Following delegates and reductions

Two loops look through nodes: one follows the targets of delegates, the other collects the
reducers of nested reductions.  Both keep a list of what they have passed and stop when they
come back to it, in cycles made of delegates or reductions alone.

`Resolves` and `Chains` are the loops without a bound on their work.  Every step passes
another live handle, so the bound of the two functions is never met
(`resolves_resolve`, `chains_reductionChain`).
-/

variable {Λ : Lexicon} {grammar : Grammar Λ} {handle target other result : Handle}
  {reducers : List (Reducer Λ)} {passed passed' : List Handle}

section Definitions

/-- A delegate has a target. -/
def Forwards (grammar : Grammar Λ) (handle target : Handle) : Prop :=
  grammar.get? handle = some (.delegate (some target))

/-- A delegate or a reduction stands around another node. -/
inductive Peels (grammar : Grammar Λ) (handle : Handle) : Handle → Prop
  | delegate {target : Handle} : grammar.get? handle = some (.delegate (some target)) →
      Peels grammar handle target
  | reduction {inner : Handle} {reducer : Reducer Λ} :
      grammar.get? handle = some (.reduction inner reducer) → Peels grammar handle inner

/-- Delegates are followed from a handle, after those that were passed, and the loop ends. -/
inductive Resolves (grammar : Grammar Λ) : List Handle → Handle → Handle → Prop
  | stop {passed : List Handle} {handle : Handle} :
      (∀ target, ¬ grammar.Forwards handle target) → Resolves grammar passed handle handle
  | back {passed : List Handle} {handle target : Handle} : grammar.Forwards handle target →
      target ∈ passed → Resolves grammar passed handle handle
  | step {passed : List Handle} {handle target result : Handle} :
      grammar.Forwards handle target → target ∉ passed →
      Resolves grammar (handle :: passed) target result → Resolves grammar passed handle result

/-- The reducers below a handle are collected, after the reductions that were passed, and the
loop ends. -/
inductive Chains (grammar : Grammar Λ) :
    List Handle → Handle → List (Reducer Λ) → Handle → Prop
  | stop {passed : List Handle} {handle : Handle} :
      (∀ inner reducer, grammar.get? handle ≠ some (.reduction inner reducer)) →
      Chains grammar passed handle [] handle
  | back {passed : List Handle} {handle inner : Handle} {reducer : Reducer Λ} :
      grammar.get? handle = some (.reduction inner reducer) → handle ∈ passed →
      Chains grammar passed handle [] handle
  | step {passed : List Handle} {handle inner next body : Handle} {reducer : Reducer Λ}
      {reducers : List (Reducer Λ)} :
      grammar.get? handle = some (.reduction inner reducer) → handle ∉ passed →
      Resolves grammar [] inner next →
      Chains grammar (handle :: passed) next reducers body →
      Chains grammar passed handle (reducer.flatten ++ reducers) body

end Definitions

section Steps

theorem Forwards.unique (hFirst : grammar.Forwards handle target)
    (hSecond : grammar.Forwards handle other) : target = other := by
  cases Option.some.inj (hFirst.symm.trans hSecond)
  rfl

theorem Peels.get? (hPeels : grammar.Peels handle other) :
    ∃ node, grammar.get? handle = some node := by
  cases hPeels with
  | delegate hNode => exact ⟨_, hNode⟩
  | reduction hNode => exact ⟨_, hNode⟩

theorem Peels.unique (hFirst : grammar.Peels handle target)
    (hSecond : grammar.Peels handle other) : target = other := by
  cases hFirst with
  | delegate hNode =>
      cases hSecond with
      | delegate hOther =>
          cases Option.some.inj (hNode.symm.trans hOther)
          rfl
      | reduction hOther => cases Option.some.inj (hNode.symm.trans hOther)
  | reduction hNode =>
      cases hSecond with
      | delegate hOther => cases Option.some.inj (hNode.symm.trans hOther)
      | reduction hOther =>
          cases Option.some.inj (hNode.symm.trans hOther)
          rfl

/-- A handle that lies on a cycle of delegates is led back to by all that it leads to. -/
theorem leads_back (hCycle : Relation.TransGen grammar.Forwards handle handle)
    (hLeads : Relation.ReflTransGen grammar.Forwards handle other) :
    Relation.TransGen grammar.Forwards other handle := by
  induction hLeads with
  | refl => exact hCycle
  | tail _ hForwards ih =>
      -- Where the way goes on is where the way back goes first.
      obtain ⟨next, hNext, hBack⟩ := Relation.TransGen.head'_iff.mp ih
      obtain rfl := hForwards.unique hNext
      exact Relation.TransGen.trans_right hBack hCycle

/-- Different live handles are no more than there are slots. -/
theorem length_le_capacity (hNodup : passed.Nodup)
    (hLive : ∀ other ∈ passed, ∃ node, grammar.get? other = some node) :
    passed.length ≤ grammar.capacity := by
  have hSubset : passed ⊆ grammar.handles := by
    intro other hOther
    obtain ⟨node, hNode⟩ := hLive other hOther
    exact mem_handles_of_get? hNode
  calc passed.length
      ≤ grammar.handles.length := (List.subperm_of_subset hNodup hSubset).length_le
    _ ≤ grammar.capacity := grammar.length_handles_le

end Steps

section Resolving

theorem Resolves.unique (hFirst : grammar.Resolves passed handle result)
    (hSecond : grammar.Resolves passed handle other) : result = other := by
  induction hFirst with
  | stop hStuck =>
      cases hSecond with
      | stop _ => rfl
      | back _ _ => rfl
      | step hForwards _ _ => exact absurd hForwards (hStuck _)
  | back hForwards hMem =>
      cases hSecond with
      | stop _ => rfl
      | back _ _ => rfl
      | step hOther hNew _ =>
          obtain rfl := hForwards.unique hOther
          exact absurd hMem hNew
  | step hForwards hNew _ ih =>
      cases hSecond with
      | stop hStuck => exact absurd hForwards (hStuck _)
      | back hOther hMem =>
          obtain rfl := hForwards.unique hOther
          exact absurd hMem hNew
      | step hOther _ hRest =>
          obtain rfl := hForwards.unique hOther
          exact ih hRest

/-- The loop only asks whether handles were passed that it comes to. -/
theorem Resolves.congr (hResolves : grammar.Resolves passed handle result)
    (hSame : ∀ other, Relation.TransGen grammar.Forwards handle other →
      (other ∈ passed ↔ other ∈ passed')) : grammar.Resolves passed' handle result := by
  induction hResolves generalizing passed' with
  | stop hStuck => exact .stop hStuck
  | back hForwards hMem => exact .back hForwards ((hSame _ (.single hForwards)).mp hMem)
  | @step passed handle target result hForwards hNew _ ih =>
      refine .step hForwards (fun hMem => hNew ((hSame _ (.single hForwards)).mpr hMem))
        (ih fun other hOther => ?_)
      simp only [List.mem_cons]
      exact or_congr_right (hSame other (Relation.TransGen.head hForwards hOther))

theorem Resolves.leads (hResolves : grammar.Resolves passed handle result) :
    Relation.ReflTransGen grammar.Forwards handle result := by
  induction hResolves with
  | stop _ => exact Relation.ReflTransGen.refl
  | back _ _ => exact Relation.ReflTransGen.refl
  | step hForwards _ _ ih => exact ih.head hForwards

/-- With a bound for what was not passed yet, the loop ends before it meets the bound. -/
theorem resolves_resolveFrom {fuel : Nat} (hNodup : passed.Nodup)
    (hLive : ∀ other ∈ passed, ∃ node, grammar.get? other = some node)
    (hAgain : handle ∈ passed → grammar.Forwards handle handle)
    (hFuel : grammar.capacity < passed.length + fuel) :
    grammar.Resolves passed handle (grammar.resolveFrom fuel passed handle) := by
  induction fuel generalizing handle passed with
  | zero =>
      have hLength := length_le_capacity hNodup hLive
      omega
  | succ fuel ih =>
      rw [resolveFrom]
      split
      · next target hForwards =>
          by_cases hMem : target ∈ passed
          · rw [if_pos hMem]
            exact .back hForwards hMem
          · rw [if_neg hMem]
            -- A delegate is only passed twice if it is its own target.
            have hHandle : handle ∉ passed := fun h =>
              hMem (Forwards.unique hForwards (hAgain h) ▸ h)
            refine .step hForwards hMem (ih ?_ ?_ ?_ ?_)
            · exact List.nodup_cons.mpr ⟨hHandle, hNodup⟩
            · exact List.forall_mem_cons.mpr ⟨⟨_, hForwards⟩, hLive⟩
            · intro hTarget
              obtain rfl := (List.mem_cons.mp hTarget).resolve_right hMem
              exact hForwards
            · rw [List.length_cons]
              omega
      · next hOther => exact .stop hOther

/-- Resolving a handle ends. -/
theorem resolves_resolve (grammar : Grammar Λ) (handle : Handle) :
    grammar.Resolves [] handle (grammar.resolve handle) :=
  resolves_resolveFrom List.nodup_nil nofun nofun (by simp)

/-- A delegate is resolved as its target is, unless the target leads back to it. -/
theorem Forwards.resolve_eq (hForwards : grammar.Forwards handle target)
    (hAway : ¬ Relation.ReflTransGen grammar.Forwards target handle) :
    grammar.resolve handle = grammar.resolve target := by
  have hResolves := grammar.resolves_resolve handle
  generalize grammar.resolve handle = result at hResolves ⊢
  cases hResolves with
  | stop hStuck => exact absurd hForwards (hStuck target)
  | back _ hMem => cases hMem
  | step hOther _ hRest =>
      obtain rfl := hForwards.unique hOther
      refine (hRest.congr fun other hReached => ?_).unique (grammar.resolves_resolve target)
      have hNe : other ≠ handle := by
        rintro rfl
        exact hAway hReached.to_reflTransGen
      simp [hNe]

end Resolving

section Chaining

/-- With a bound for what was not passed yet, the loop ends before it meets the bound. -/
theorem chains_reductionChainFrom {fuel : Nat} (hNodup : passed.Nodup)
    (hLive : ∀ other ∈ passed, ∃ node, grammar.get? other = some node)
    (hFuel : grammar.capacity < passed.length + fuel) :
    grammar.Chains passed handle (grammar.reductionChainFrom fuel passed handle).1
      (grammar.reductionChainFrom fuel passed handle).2 := by
  induction fuel generalizing handle passed with
  | zero =>
      have hLength := length_le_capacity hNodup hLive
      omega
  | succ fuel ih =>
      rw [reductionChainFrom]
      split
      · next inner reducer hNode =>
          by_cases hMem : handle ∈ passed
          · rw [if_pos hMem]
            exact .back hNode hMem
          · rw [if_neg hMem]
            refine .step hNode hMem (grammar.resolves_resolve inner) (ih ?_ ?_ ?_)
            · exact List.nodup_cons.mpr ⟨hMem, hNodup⟩
            · exact List.forall_mem_cons.mpr ⟨⟨_, hNode⟩, hLive⟩
            · rw [List.length_cons]
              omega
      · next hOther => exact .stop hOther

/-- Collecting the reducers below a handle ends. -/
theorem chains_reductionChain (grammar : Grammar Λ) (handle : Handle) :
    grammar.Chains [] (grammar.resolve handle) (grammar.reductionChain handle).1
      (grammar.reductionChain handle).2 :=
  chains_reductionChainFrom List.nodup_nil nofun (by simp)

end Chaining

end Grammar

end DerivativeParsing
