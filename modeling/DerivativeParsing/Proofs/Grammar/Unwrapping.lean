import DerivativeParsing.Proofs.Grammar.Loops

namespace DerivativeParsing
namespace Grammar

/-!
# Delegates and reductions around a node

A comparison looks through delegates, and takes nested reductions for one chain of reducers
over a body.  Where the delegates and reductions around a handle end (`Strips`), they do so
without passing any of them twice (`Strips.acyclic`), so the two loops that look through them
come to the same end: resolving a handle passes the delegates (`Strips.resolve`), and the
chain of a handle consists of the reducers on the way to what is left (`Strips.reductionChain`).
If no cycle is made of delegates and reductions alone, they end everywhere
(`exists_strips`).

`Unwraps` says the same of nodes.
-/

variable {Λ : Lexicon} {grammar : Grammar Λ} {handle other core inner result : Handle}
  {node body : Node Λ} {reducer : Reducer Λ} {reducers : List (Reducer Λ)}
  {passed : List Handle}

section Definitions

/-- The delegates and reductions around a handle end at a core, with their reducers outermost
first. -/
inductive Strips (grammar : Grammar Λ) : Handle → List (Reducer Λ) → Handle → Prop
  | bare {handle : Handle} : (∀ other, ¬ grammar.Peels handle other) →
      Strips grammar handle [] handle
  | delegate {handle target core : Handle} {reducers : List (Reducer Λ)} :
      grammar.Forwards handle target → Strips grammar target reducers core →
      Strips grammar handle reducers core
  | reduction {handle inner core : Handle} {reducer : Reducer Λ}
      {reducers : List (Reducer Λ)} : grammar.get? handle = some (.reduction inner reducer) →
      Strips grammar inner reducers core →
      Strips grammar handle (reducer.flatten ++ reducers) core

/-- The delegates and reductions around a body, with their reducers outermost first. -/
inductive Unwraps (grammar : Grammar Λ) : Node Λ → List (Reducer Λ) → Node Λ → Prop
  | bare {node : Node Λ} : node.isDelegate = false →
      (∀ inner reducer, node ≠ .reduction inner reducer) → Unwraps grammar node [] node
  | delegate {target : Handle} {node body : Node Λ} {reducers : List (Reducer Λ)} :
      grammar.get? target = some node → Unwraps grammar node reducers body →
      Unwraps grammar (.delegate (some target)) reducers body
  | reduction {inner : Handle} {node body : Node Λ} {reducer : Reducer Λ}
      {reducers : List (Reducer Λ)} :
      grammar.get? inner = some node → Unwraps grammar node reducers body →
      Unwraps grammar (.reduction inner reducer) (reducer.flatten ++ reducers) body

end Definitions

section Stripping

theorem Strips.of_forwards (hStrips : grammar.Strips handle reducers core)
    (hForwards : grammar.Forwards handle other) : grammar.Strips other reducers core := by
  cases hStrips with
  | bare hStuck => exact absurd (.delegate hForwards) (hStuck other)
  | delegate hTarget hRest =>
      obtain rfl := hForwards.unique hTarget
      exact hRest
  | reduction hNode _ => cases Option.some.inj (hForwards.symm.trans hNode)

theorem Strips.of_reduction (hStrips : grammar.Strips handle reducers core)
    (hNode : grammar.get? handle = some (.reduction inner reducer)) :
    ∃ rest, reducers = reducer.flatten ++ rest ∧ grammar.Strips inner rest core := by
  cases hStrips with
  | bare hStuck => exact absurd (.reduction hNode) (hStuck inner)
  | delegate hTarget _ => cases Option.some.inj (hNode.symm.trans hTarget)
  | @reduction _ _ _ _ rest hOther hRest =>
      cases Option.some.inj (hNode.symm.trans hOther)
      exact ⟨rest, rfl, hRest⟩

/-- What is left has nothing around it. -/
theorem Strips.bare_core (hStrips : grammar.Strips handle reducers core) :
    grammar.Strips core [] core := by
  induction hStrips with
  | bare hStuck => exact .bare hStuck
  | delegate _ _ ih => exact ih
  | reduction _ _ ih => exact ih

/-- What stands around a core that is found does not stand around itself. -/
theorem Strips.acyclic (hStrips : grammar.Strips handle reducers core) :
    ¬ Relation.TransGen grammar.Peels handle handle := by
  -- A cycle through a node is one through the only node below it.
  have hBelow {handle next : Handle} (hPeels : grammar.Peels handle next)
      (hCycle : Relation.TransGen grammar.Peels handle handle) :
      Relation.TransGen grammar.Peels next next := by
    obtain ⟨below, hOther, hBack⟩ := Relation.TransGen.head'_iff.mp hCycle
    obtain rfl := hPeels.unique hOther
    exact Relation.TransGen.tail' hBack hPeels
  induction hStrips with
  | bare hStuck =>
      intro hCycle
      obtain ⟨below, hPeels, -⟩ := Relation.TransGen.head'_iff.mp hCycle
      exact hStuck below hPeels
  | delegate hForwards _ ih => exact fun hCycle => ih (hBelow (.delegate hForwards) hCycle)
  | reduction hNode _ ih => exact fun hCycle => ih (hBelow (.reduction hNode) hCycle)

theorem flatten_ne_nil (reducer : Reducer Λ) : reducer.flatten ≠ [] := by
  induction reducer with
  | compose outer inner ihOuter _ => simp [Reducer.flatten, ihOuter]
  | _ => simp [Reducer.flatten]

/-- A handle that is no delegate with a target is what is left, or a reduction around it. -/
theorem Strips.cases_of_stuck (hStrips : grammar.Strips handle reducers core)
    (hStuck : ∀ target, ¬ grammar.Forwards handle target) :
    (reducers = [] ∧ core = handle) ∨
      (reducers ≠ [] ∧ ∃ inner reducer, grammar.get? handle = some (.reduction inner reducer)) := by
  cases hStrips with
  | bare _ => exact Or.inl ⟨rfl, rfl⟩
  | delegate hForwards _ => exact absurd hForwards (hStuck _)
  | @reduction _ inner _ reducer _ hNode _ =>
      refine Or.inr ⟨?_, inner, reducer, hNode⟩
      simp [flatten_ne_nil]

/-- Following delegates strips nothing else, and passes all of them. -/
theorem Resolves.strips (hResolves : grammar.Resolves passed handle result)
    (hPassed : ∀ other ∈ passed, Relation.TransGen grammar.Peels other handle)
    (hStrips : grammar.Strips handle reducers core) :
    grammar.Strips result reducers core ∧ ∀ target, ¬ grammar.Forwards result target := by
  induction hResolves with
  | stop hStuck => exact ⟨hStrips, hStuck⟩
  | back hForwards hMem =>
      exact absurd ((hPassed _ hMem).head (.delegate hForwards)) hStrips.acyclic
  | @step _ handle _ _ hForwards _ _ ih =>
      refine ih (fun other hOther => ?_) (hStrips.of_forwards hForwards)
      rcases List.mem_cons.mp hOther with rfl | hOther
      · exact .single (.delegate hForwards)
      · exact (hPassed other hOther).tail (.delegate hForwards)

theorem Strips.resolve (hStrips : grammar.Strips handle reducers core) :
    grammar.Strips (grammar.resolve handle) reducers core ∧
      ∀ target, ¬ grammar.Forwards (grammar.resolve handle) target :=
  (grammar.resolves_resolve handle).strips nofun hStrips

theorem Resolves.peels (hResolves : grammar.Resolves passed handle result) :
    Relation.ReflTransGen grammar.Peels handle result :=
  Relation.ReflTransGen.mono (fun _ _ hForwards => .delegate hForwards) handle result
    hResolves.leads

theorem Chains.strips {found : List (Reducer Λ)} (hChains : grammar.Chains passed handle found result)
    (hPassed : ∀ other ∈ passed, Relation.TransGen grammar.Peels other handle)
    (hStrips : grammar.Strips handle reducers core)
    (hStuck : ∀ target, ¬ grammar.Forwards handle target) :
    found = reducers ∧ result = core := by
  induction hChains generalizing reducers with
  | stop hOther =>
      rcases hStrips.cases_of_stuck hStuck with ⟨rfl, rfl⟩ | ⟨-, inner, reducer, hNode⟩
      · exact ⟨rfl, rfl⟩
      · exact absurd hNode (hOther inner reducer)
  | back _ hMem => exact absurd (hPassed _ hMem) hStrips.acyclic
  | step hNode _ hResolves _ ih =>
      obtain ⟨rest, rfl, hInner⟩ := hStrips.of_reduction hNode
      obtain ⟨hNext, hNextStuck⟩ := hResolves.strips nofun hInner
      have hPeels := Relation.TransGen.head' (.reduction hNode) hResolves.peels
      obtain ⟨rfl, rfl⟩ := ih (fun other hOther => by
        rcases List.mem_cons.mp hOther with rfl | hOther
        · exact hPeels
        · exact (hPassed other hOther).trans hPeels) hNext hNextStuck
      exact ⟨rfl, rfl⟩

/-- The chain of a handle consists of the reducers around what is left. -/
theorem Strips.reductionChain (hStrips : grammar.Strips handle reducers core) :
    grammar.reductionChain handle = (reducers, core) := by
  obtain ⟨hResolved, hStuck⟩ := hStrips.resolve
  obtain ⟨hReducers, hCore⟩ :=
    (grammar.chains_reductionChain handle).strips nofun hResolved hStuck
  exact Prod.ext hReducers hCore

/-- Where no cycle is made of delegates and reductions alone, they come to an end. -/
theorem exists_strips
    (hAcyclic : ∀ other, Relation.ReflTransGen grammar.Peels handle other →
      ¬ Relation.TransGen grammar.Peels other other) :
    ∃ reducers core, grammar.Strips handle reducers core := by
  -- What was peeled off is live and different, so it is used up before the slots are.
  have hBound (fuel : Nat) (passed : List Handle) (handle : Handle) (hNodup : passed.Nodup)
      (hLive : ∀ other ∈ passed, ∃ node, grammar.get? other = some node)
      (hPassed : ∀ other ∈ passed, Relation.TransGen grammar.Peels other handle)
      (hAcyclic : ∀ other, Relation.ReflTransGen grammar.Peels handle other →
        ¬ Relation.TransGen grammar.Peels other other)
      (hFuel : grammar.capacity < passed.length + fuel) :
      ∃ reducers core, grammar.Strips handle reducers core := by
    induction fuel generalizing passed handle with
    | zero =>
        have hLength := length_le_capacity hNodup hLive
        omega
    | succ fuel ih =>
        by_cases hPeels : ∃ next, grammar.Peels handle next
        · obtain ⟨next, hPeels⟩ := hPeels
          have hNew : handle ∉ passed := fun hMem => hAcyclic handle .refl (hPassed handle hMem)
          obtain ⟨reducers, core, hStrips⟩ := ih (handle :: passed) next
            (List.nodup_cons.mpr ⟨hNew, hNodup⟩)
            (List.forall_mem_cons.mpr ⟨hPeels.get?, hLive⟩)
            (List.forall_mem_cons.mpr ⟨.single hPeels, fun other hOther =>
              (hPassed other hOther).tail hPeels⟩)
            (fun other hOther => hAcyclic other (hOther.head hPeels))
            (by rw [List.length_cons]; omega)
          cases hPeels with
          | delegate hNode => exact ⟨reducers, core, .delegate hNode hStrips⟩
          | reduction hNode => exact ⟨_, core, .reduction hNode hStrips⟩
        · exact ⟨[], handle, .bare (not_exists.mp hPeels)⟩
  exact hBound (grammar.capacity + 1) [] handle List.nodup_nil nofun nofun hAcyclic (by simp)

end Stripping

theorem strips_of_bare (hNode : grammar.get? handle = some node)
    (hDelegate : node.isDelegate = false)
    (hReduction : ∀ inner reducer, node ≠ .reduction inner reducer) :
    grammar.Strips handle [] handle := by
  refine .bare fun other hPeels => ?_
  cases hPeels with
  | delegate hOther =>
      cases Option.some.inj (hNode.symm.trans hOther)
      cases hDelegate
  | reduction hOther => exact hReduction _ _ (Option.some.inj (hNode.symm.trans hOther))

/-- What stands around a body stands around its handle. -/
theorem Unwraps.strips (hUnwraps : grammar.Unwraps node reducers body)
    (hNode : grammar.get? handle = some node) :
    ∃ core, grammar.Strips handle reducers core ∧ grammar.get? core = some body := by
  induction hUnwraps generalizing handle with
  | bare hDelegate hReduction => exact ⟨handle, strips_of_bare hNode hDelegate hReduction, hNode⟩
  | delegate hTarget _ ih =>
      obtain ⟨core, hStrips, hCore⟩ := ih hTarget
      exact ⟨core, .delegate hNode hStrips, hCore⟩
  | reduction hInner _ ih =>
      obtain ⟨core, hStrips, hCore⟩ := ih hInner
      exact ⟨core, .reduction hNode hStrips, hCore⟩

end Grammar

end DerivativeParsing
