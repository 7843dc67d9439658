import DerivativeParsing.Proofs.Fixpoint.Tracking

namespace DerivativeParsing
namespace Fixpoint

/-!
# How many passes a query needs

The operator that a system tracks can be applied in rounds, from what is known
(`Found`).  A pass does at least what a round does: every key that the root demands is
evaluated once, under values that are not behind those from before the pass
(`Filled.pass`).

So the passes are never behind the rounds.  If some number of rounds finds all there is to
find, the pass after as many passes changes nothing, and a query that is allowed this pass
is not stopped (`Paced.converged`, `Paced.exists_solve`).
-/

namespace System

variable {κ ν ι : Type}

/-- The keys that a query from a root has to evaluate or finds known. -/
inductive Demanded (system : System κ ν) (root : κ) : κ → Prop
  | root : Demanded system root root
  | asked {key other : κ} {seen : κ → ν} :
      Demanded system root key → system.known key = none →
      (system.equation key).Asks seen other → Demanded system root other

/-- The items that an operator finds in so many rounds, from the items of known values. -/
def Found (system : System κ ν) (has : ν → ι → Prop)
    (step : (κ → ι → Prop) →o (κ → ι → Prop)) : Nat → κ → ι → Prop
  | 0, key, item => ∃ value, system.known key = some value ∧ has value item
  | rounds + 1, key, item =>
      (∃ value, system.known key = some value ∧ has value item) ∨
        system.known key = none ∧ step (system.Found has step rounds) key item

/-- A query from a root can be measured by the rounds of an operator.  Values with the same
items are the same, and what the demanded keys ask for does not depend on the values that
they get. -/
structure Paced (system : System κ ν) (inside : κ → Prop) (has : ν → ι → Prop)
    (step : (κ → ι → Prop) →o (κ → ι → Prop)) (root : κ) : Prop where
  tracks : system.Tracks inside id has step
  rooted : inside root
  known : ∀ key value item, system.known key = some value →
    (has value item ↔ step.lfp key item)
  ext : ∀ value value', (∀ item, has value item ↔ has value' item) → value = value'
  stays : ∀ key, system.Demanded root key → system.known key = none →
    (system.equation key).Stays (system.Demanded root)
  asks : ∀ key seen seen' other, system.Demanded root key → system.known key = none →
    (system.equation key).Asks seen other → (system.equation key).Asks seen' other

variable {system : System κ ν} {inside : κ → Prop} {has : ν → ι → Prop}
  {step : (κ → ι → Prop) →o (κ → ι → Prop)} {root key : κ} {item : ι} {rounds rounds' : Nat}

theorem found_of_known {value : ν} (hKnown : system.known key = some value) :
    system.Found has step rounds key item ↔ has value item := by
  cases rounds <;> simp [Found, hKnown]

theorem found_succ (hKnown : system.known key = none) :
    system.Found has step (rounds + 1) key item ↔
      step (system.Found has step rounds) key item := by
  simp [Found, hKnown]

theorem found_succ_mono :
    system.Found has step rounds ≤ system.Found has step (rounds + 1) := by
  induction rounds with
  | zero => exact fun key item hFound => Or.inl hFound
  | succ rounds ih => exact fun key item => Or.imp_right (And.imp_right (step.mono ih key item))

theorem found_mono (hLe : rounds ≤ rounds') :
    system.Found has step rounds ≤ system.Found has step rounds' := by
  induction hLe with
  | refl => exact le_refl _
  | step _ ih => exact le_trans ih found_succ_mono

/-- The rounds find nothing outside the least fixed point. -/
theorem Paced.lfp_of_found (hPaced : system.Paced inside has step root)
    (hFound : system.Found has step rounds key item) : step.lfp key item := by
  induction rounds generalizing key item with
  | zero =>
      obtain ⟨value, hKey, hItem⟩ := hFound
      exact (hPaced.known key value item hKey).mp hItem
  | succ rounds ih =>
      rcases hFound with ⟨value, hKey, hItem⟩ | ⟨-, hStep⟩
      · exact (hPaced.known key value item hKey).mp hItem
      · exact lfp_iff_step.mpr (step.mono (fun _ _ => ih) key item hStep)

theorem Paced.inside_of_demanded (hPaced : system.Paced inside has step root)
    (hDemanded : system.Demanded root key) : inside key := by
  induction hDemanded with
  | root => exact hPaced.rooted
  | asked _ _ hAsks ih => exact (hPaced.tracks.safe _ ih).inside hAsks

/-- An equation that sees what so many rounds find has what one round more finds. -/
theorem Paced.has_of_found {seen : κ → ν} {value : ν}
    (hPaced : system.Paced inside has step root) (hKey : system.Demanded root key)
    (hKnown : system.known key = none)
    (hSeen : ∀ other, system.Demanded root other →
      ∀ item, system.Found has step rounds other item → has (seen other) item)
    (hEval : (system.equation key).eval seen = .ok value)
    (hFound : system.Found has step (rounds + 1) key item) : has value item :=
  hPaced.tracks.complete key seen value item (system.Found has step rounds)
    (hPaced.inside_of_demanded hKey) hEval
    (fun other hAsks => hSeen other (.asked hKey hKnown hAsks)) ((found_succ hKnown).mp hFound)

/-- The equations hand on that values are right and not behind so many rounds. -/
theorem Paced.respects (hPaced : system.Paced inside has step root) (rounds : Nat) :
    system.Respects (system.Demanded root) fun key value =>
      (∀ item, has value item → step.lfp key item) ∧
        (system.Demanded root key →
          ∀ item, system.Found has step rounds key item → has value item) where
  stays := hPaced.stays
  known key value hKey :=
    ⟨fun item => (hPaced.known key value item hKey).mp, fun _ _ => (found_of_known hKey).mp⟩
  equation key seen value hKey hUnknown hSeen hEval := by
    constructor
    · intro item hItem
      have hInside : inside key := hPaced.inside_of_demanded hKey
      have hStep := hPaced.tracks.sound key seen value item hInside hEval hItem
      exact lfp_iff_step.mpr (step.mono (fun other => (hSeen other).1) key item hStep)
    · intro _ item hFound
      have hMore : system.Found has step (rounds + 1) key item :=
        found_succ_mono key item hFound
      exact hPaced.has_of_found hKey hUnknown (fun other => (hSeen other).2) hEval hMore

section Passes

variable [Ord κ]

/-- The approximations are right and not behind so many rounds. -/
structure Filled (system : System κ ν) (has : ν → ι → Prop)
    (step : (κ → ι → Prop) →o (κ → ι → Prop)) (root : κ) (rounds : Nat)
    (progress : Progress κ ν) : Prop where
  recorded : ∀ key ∈ progress.approximations, system.Demanded root key
  sound : ∀ key item, has (system.answer progress key) item → step.lfp key item
  complete : ∀ key item, system.Demanded root key →
    system.Found has step rounds key item → has (system.answer progress key) item

variable {before after : Progress κ ν}

/-- A pass evaluates every demanded key that is not known. -/
theorem Paced.mem_visited {holds : κ → ν → Prop} {start : κ → ν}
    (hPaced : system.Paced inside has step root)
    (hMidway : system.Midway (system.Demanded root) holds start (fun _ => False) after)
    (hRoot : system.known root ≠ none ∨ root ∈ after.visited)
    (hKey : system.Demanded root key) (hKnown : system.known key = none) :
    key ∈ after.visited := by
  induction hKey with
  | root => exact hRoot.resolve_left (by simp [hKnown])
  | @asked key other seen hKey hUnknown hAsks ih =>
      obtain ⟨-, seen', -, -, -, hVisited⟩ := hMidway.settled key (ih hUnknown) id
      have hAsks' := hPaced.asks key seen seen' other hKey hUnknown hAsks
      exact (hVisited other hAsks').resolve_left (by simp [hKnown])

variable [Std.TransOrd κ]

theorem Paced.start (hPaced : system.Paced inside has step root) :
    system.Filled has step root 0 {} where
  recorded key hKey := absurd hKey Std.TreeMap.not_mem_emptyc
  sound key item hItem := by
    cases hKey : system.known key with
    | some value =>
        rw [answer_of_known hKey] at hItem
        exact (hPaced.known key value item hKey).mp hItem
    | none =>
        rw [answer_of_unknown hKey, current_empty] at hItem
        exact absurd hItem (hPaced.tracks.bottom item)
  complete key item _ hFound := by
    obtain ⟨value, hKey, hItem⟩ := hFound
    rw [answer_of_known hKey]
    exact hItem

variable [Std.LawfulEqOrd κ] [DecidableEq ν] {depth number : Nat} {value : ν}

/-- A pass is not behind one more round, and leaves an approximation for every demanded key
that is not known.  If it changes a value, the rounds before it had not found all. -/
theorem Filled.pass (hPaced : system.Paced inside has step root)
    (hFilled : system.Filled has step root rounds before)
    (hPass : (system.pass depth root number).run before = .ok value after) :
    system.Filled has step root (rounds + 1) after ∧
      (∀ key, system.Demanded root key → system.known key = none →
        key ∈ after.approximations) ∧
      (after.changed = true → ∃ key item, system.Demanded root key ∧
        step.lfp key item ∧ ¬ system.Found has step rounds key item) := by
  obtain ⟨hMidway, -, hRoot⟩ := Midway.pass (hPaced.respects rounds) Demanded.root
    hFilled.recorded
    (fun key => ⟨hFilled.sound key, fun hKey item => hFilled.complete key item hKey⟩) hPass
  have hVisited (key : κ) (hKey : system.Demanded root key)
      (hUnknown : system.known key = none) : key ∈ after.visited :=
    hPaced.mem_visited hMidway hRoot hKey hUnknown
  refine ⟨⟨hMidway.recorded, fun key => (hMidway.sound key).1, ?_⟩, ?_, ?_⟩
  · intro key item hKey hFound
    cases hUnknown : system.known key with
    | some value =>
        rw [answer_of_known hUnknown]
        exact (found_of_known hUnknown).mp hFound
    | none =>
        obtain ⟨-, seen, hEval, hSeenKnown, hSeen, -⟩ :=
          hMidway.settled key (hVisited key hKey hUnknown) id
        rw [answer_of_unknown hUnknown]
        refine hPaced.has_of_found hKey hUnknown ?_ hEval hFound
        -- What was seen dates from before the pass or from the pass itself.
        intro other hOther item hItem
        cases hOtherKnown : system.known other with
        | some value =>
            rw [hSeenKnown other value hOtherKnown]
            exact (found_of_known hOtherKnown).mp hItem
        | none =>
            rcases hSeen other hOtherKnown with hStart | ⟨-, -, hNow⟩
            · rw [hStart, ← answer_of_unknown hOtherKnown]
              exact hFilled.complete other item hOther hItem
            · rw [hNow, ← answer_of_unknown hOtherKnown]
              exact (hMidway.sound other).2 hOther item hItem
  · intro key hKey hUnknown
    have hRecorded := (hMidway.settled key (hVisited key hKey hUnknown) id).recorded
    exact Std.TreeMap.mem_iff_isSome_getElem?.mpr (by simp [hRecorded])
  · intro hChanged
    by_contra hNone
    obtain ⟨key, hMoved⟩ := hMidway.changed.mp hChanged
    have hKeyVisited : key ∈ after.visited := by
      by_contra hFresh
      exact hMoved (hMidway.fresh key hFresh)
    obtain ⟨hKey, hUnknown⟩ := hMidway.bounded key hKeyVisited
    have hAll (item : ι) (hLeast : step.lfp key item) :
        system.Found has step rounds key item := by
      by_contra hMissing
      exact hNone ⟨key, item, hKey, hLeast, hMissing⟩
    -- The value had all items before the pass, and has them after it.
    apply hMoved
    rw [← answer_of_unknown hUnknown, ← answer_of_unknown hUnknown]
    refine hPaced.ext _ _ fun item => ⟨fun hItem => ?_, fun hItem => ?_⟩
    · exact hFilled.complete key item hKey (hAll item ((hMidway.sound key).1 item hItem))
    · exact (hMidway.sound key).2 hKey item (hAll item (hFilled.sound key item hItem))

end Passes

section Queries

variable [Ord κ] [Std.TransOrd κ] [Std.LawfulEqOrd κ] [DecidableEq ν] {budget : Budget}
  {limit : PassLimit} {solution : Solution κ ν} {notes : List (Note κ)} {most : Nat}

/-- A query is not stopped if its limit allows for one pass more than the rounds that find
all there is to find. -/
theorem Paced.converged (hPaced : system.Paced inside has step root)
    (hMost : ∀ key item, system.Demanded root key → step.lfp key item →
      system.Found has step most key item)
    (hLimit : ∀ passes size,
      {key | system.Demanded root key ∧ system.known key = none}.ncard ≤ size →
      limit.isReached passes size = true → most < passes)
    (hSolve : system.solve budget limit root = (.ok solution, notes)) :
    solution.converged = true := by
  obtain ⟨after, hRun, -⟩ := exists_run_of_solve hSolve
  -- Before a pass the approximations are not behind as many rounds as there were passes.
  obtain ⟨last, start, reached, ⟨rounds, rfl, hFilled⟩, hPass, -, hConverged, hStopped⟩ :=
    exists_last_pass (fun number progress =>
        ∃ rounds, number = rounds + 1 ∧ system.Filled has step root rounds progress)
      (fun number before after value hBefore hPass _ _ => by
        obtain ⟨rounds, rfl, hFilled⟩ := hBefore
        exact ⟨rounds + 1, rfl, (hFilled.pass hPaced hPass).1⟩)
      budget.passes 1 ⟨0, rfl, hPaced.start⟩ hRun
  obtain ⟨-, hEvaluated, hChanged⟩ := hFilled.pass hPaced hPass
  rw [hConverged, Bool.not_eq_true', ← Bool.not_eq_true]
  intro hMoved
  obtain ⟨key, item, hKey, hLeast, hMissing⟩ := hChanged hMoved
  have hCount : {key | system.Demanded root key ∧ system.known key = none}.ncard ≤
      reached.approximations.size :=
    ncard_le_size fun key hKey => Std.TreeMap.mem_keys.mpr (hEvaluated key hKey.1 hKey.2)
  have hPasses : most < rounds + 1 := hLimit _ _ hCount (hStopped hMoved).1
  have hFound : system.Found has step rounds key item :=
    found_mono (by omega) key item (hMost key item hKey hLeast)
  exact hMissing hFound

/-- A query without a limit ends if its budget allows for one pass more than the rounds that
find all there is to find. -/
theorem Paced.exists_solve {keys : List κ} (hPaced : system.Paced inside has step root)
    (hMost : ∀ key item, system.Demanded root key → step.lfp key item →
      system.Found has step most key item)
    (hKeys : ∀ key, inside key → key ∈ keys) (hDepth : keys.length < budget.depth)
    (hPasses : most < budget.passes) :
    ∃ solution notes, system.solve budget .unbounded root = (.ok solution, notes) := by
  have hEnds : ∃ solution after,
      (system.passesFrom budget.depth .unbounded root budget.passes 1).run {} =
        .ok solution after := by
    refine exists_passesFrom_eq_ok
      (fun number progress => ∃ rounds, number = rounds + 1 ∧ rounds ≤ most ∧
        system.Filled has step root rounds progress)
      (most + 1)
      (fun _ _ _ => exists_pass_eq_ok (fun key hKey _ => hPaced.tracks.safe key hKey) hKeys
        hPaced.rooted hDepth)
      (fun number before after value hBefore hPass hMoved _ => ?_)
      (fun number before hBefore => ?_) budget.passes 1
      ⟨0, rfl, Nat.zero_le most, hPaced.start⟩ (by omega)
    · obtain ⟨rounds, rfl, -, hFilled⟩ := hBefore
      obtain ⟨hAfter, -, hChanged⟩ := hFilled.pass hPaced hPass
      -- A pass that changes something comes before the last of the rounds.
      obtain ⟨key, item, hKey, hLeast, hMissing⟩ := hChanged hMoved
      have hEarly : rounds < most := by
        by_contra hLate
        exact hMissing (found_mono (by omega) key item (hMost key item hKey hLeast))
      exact ⟨rounds + 1, rfl, hEarly, hAfter⟩
    · obtain ⟨rounds, rfl, hRounds, -⟩ := hBefore
      omega
  obtain ⟨solution, after, hRun⟩ := hEnds
  refine ⟨solution, after.notes, ?_⟩
  unfold System.solve
  rw [hRun]

end Queries

end System

end Fixpoint

end DerivativeParsing
