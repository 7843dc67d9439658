import Mathlib.Data.Set.Card
import DerivativeParsing.Proofs.Fixpoint.Pass

namespace DerivativeParsing
namespace Fixpoint

/-!
# When passes are enough

A run of passes ends with a last pass (`exists_last_pass`), and what is known about
the run is known about that pass.

* A pass in which no value moved leaves a solution behind, one in which no value
  moved as far as a view of the values shows leaves a solution up to that view
  (`Midway.solves`).
* For a view with two results under which the equations are monotone the results only
  ever turn from `false` to `true`.  Every pass that turns one of them marks another
  key, so there are never more such passes than keys (`Climbing`).

The second fact bounds the passes of a query with truth values.  It also says that a
query which is stopped by a limit that grows with the number of keys was stopped too
late to change the view of its answer.
-/

namespace System

variable {κ ν α : Type} [Ord κ]

/-- An assignment solves the equations of the covered keys, as far as a view of the
values shows.  The covered keys are closed under what their equations ask for. -/
structure Solves (system : System κ ν) (view : ν → α) (inside : κ → Prop) (root : κ)
    (assignment : κ → ν) (covered : κ → Prop) : Prop where
  root : system.known root ≠ none ∨ covered root
  known : ∀ key value, system.known key = some value → assignment key = value
  bounded : ∀ key, covered key → inside key ∧ system.known key = none
  equation : ∀ key, covered key → ∃ seen : κ → ν,
    (∀ other, view (seen other) = view (assignment other)) ∧
    (∃ value, (system.equation key).eval seen = .ok value ∧
      view value = view (assignment key)) ∧
    ∀ other, (system.equation key).Asks seen other →
      system.known other ≠ none ∨ covered other

variable {system : System κ ν} {inside : κ → Prop} {holds : κ → ν → Prop}
  {before after : Progress κ ν} {key root : κ}

/-- A pass that changes nothing in the view leaves a solution up to the view. -/
theorem Midway.solves {view : ν → α}
    (hMidway : system.Midway inside holds (system.current before) (fun _ => False)
      after)
    (hRoot : system.known root ≠ none ∨ root ∈ after.visited)
    (hView : ∀ key, view (system.current after key) =
      view (system.current before key)) :
    system.Solves view inside root (system.answer after)
      (fun key => key ∈ after.visited) where
  root := hRoot
  known key value hKnown := answer_of_known hKnown
  bounded := hMidway.bounded
  equation key hKey := by
    obtain ⟨-, seen, hEval, hSeenKnown, hSeen, hAsks⟩ :=
      hMidway.settled key hKey id
    refine ⟨seen, ?_, ⟨_, hEval, ?_⟩, hAsks⟩
    · intro other
      cases hKnown : system.known other with
      | some value => rw [hSeenKnown other value hKnown, answer_of_known hKnown]
      | none =>
          rw [answer_of_unknown hKnown]
          rcases hSeen other hKnown with h | ⟨-, -, h⟩
          · rw [h, hView other]
          · rw [h]
    · rw [answer_of_unknown (hMidway.bounded key hKey).2]

section Runs

variable [DecidableEq ν] {depth : Nat} {limit : PassLimit}

/-- What a run of passes does after its first pass. -/
theorem passesFrom_succ_run {fuel number : Nat} {value : ν} {reached : Progress κ ν}
    (hPass : (system.pass depth root number).run before = .ok value reached) :
    (system.passesFrom depth limit root (fuel + 1) number).run before =
      if reached.changed then
        if limit.isReached number reached.approximations.size then
          .ok ⟨value, harvest reached, number, false⟩
            { reached with notes := .abandoned root number :: reached.notes }
        else (system.passesFrom depth limit root fuel (number + 1)).run reached
      else .ok ⟨value, harvest reached, number, true⟩ reached := by
  rw [passesFrom, EStateM.run_bind, hPass]
  simp only [EStateM.run_bind, EStateM.run_get]
  split
  · split
    · rfl
    · rfl
  · rfl

/-- A run of passes that succeeds ends with a last pass.  An invariant that every
pass before it keeps holds when the last pass begins. -/
theorem exists_last_pass (Inv : Nat → Progress κ ν → Prop)
    (hStep : ∀ number (before after : Progress κ ν) value, Inv number before →
      (system.pass depth root number).run before = .ok value after →
      after.changed = true →
      limit.isReached number after.approximations.size = false →
      Inv (number + 1) after)
    (fuel number : Nat) {solution : Solution κ ν} (hInv : Inv number before)
    (hRun : (system.passesFrom depth limit root fuel number).run before =
      .ok solution after) :
    ∃ last start reached, Inv last start ∧
      (system.pass depth root last).run start = .ok solution.value reached ∧
      solution.values = harvest reached ∧
      solution.converged = !reached.changed ∧
      (reached.changed = true →
        limit.isReached last reached.approximations.size = true ∧
          .abandoned root last ∈ after.notes) := by
  induction fuel generalizing number before with
  | zero => cases hRun
  | succ fuel ih =>
      cases hPass : (system.pass depth root number).run before with
      | error fault reached =>
          rw [passesFrom, EStateM.run_bind, hPass] at hRun
          cases hRun
      | ok value reached =>
          rw [passesFrom_succ_run hPass] at hRun
          cases hChanged : reached.changed with
          | false =>
              rw [hChanged] at hRun
              cases hRun
              refine ⟨number, before, after, hInv, hPass, rfl, ?_, ?_⟩
              · rw [hChanged]
                rfl
              · intro h
                rw [hChanged] at h
                cases h
          | true =>
              rw [hChanged, if_pos rfl] at hRun
              cases hLimit : limit.isReached number reached.approximations.size with
              | true =>
                  rw [hLimit, if_pos rfl] at hRun
                  cases hRun
                  refine ⟨number, before, reached, hInv, hPass, rfl, ?_, ?_⟩
                  · rw [hChanged]
                    rfl
                  · intro _
                    exact ⟨hLimit, List.mem_cons_self⟩
              | false =>
                  rw [hLimit] at hRun
                  exact ih (number + 1)
                    (hStep number before reached value hInv hPass hChanged hLimit) hRun

/-- A run of passes succeeds if every pass does and an invariant of the passes bounds
their number by the fuel. -/
theorem exists_passesFrom_eq_ok (Inv : Nat → Progress κ ν → Prop) (most : Nat)
    (hPass : ∀ number (before : Progress κ ν), Inv number before →
      ∃ value after, (system.pass depth root number).run before = .ok value after)
    (hStep : ∀ number (before after : Progress κ ν) value, Inv number before →
      (system.pass depth root number).run before = .ok value after →
      after.changed = true →
      limit.isReached number after.approximations.size = false →
      Inv (number + 1) after)
    (hMost : ∀ number (before : Progress κ ν), Inv number before → number ≤ most)
    (fuel number : Nat) (hInv : Inv number before) (hFuel : most < number + fuel) :
    ∃ solution after,
      (system.passesFrom depth limit root fuel number).run before =
        .ok solution after := by
  induction fuel generalizing number before with
  | zero =>
      have hLe := hMost number before hInv
      omega
  | succ fuel ih =>
      obtain ⟨value, reached, hReached⟩ := hPass number before hInv
      rw [passesFrom_succ_run hReached]
      cases hChanged : reached.changed with
      | false => exact ⟨_, _, rfl⟩
      | true =>
          cases hLimit : limit.isReached number reached.approximations.size with
          | true => exact ⟨_, _, rfl⟩
          | false =>
              exact ih (number + 1)
                (hStep number before reached value hInv hReached hChanged hLimit)
                (by omega)

/-- A run of passes over safe equations gives up only if it runs out of passes or of
depth. -/
theorem passesFrom_error
    (hSafe : ∀ key, inside key → system.known key = none →
      (system.equation key).Safe inside)
    (fuel number : Nat) {fault : Fault κ} (hInside : inside root)
    (hRun : (system.passesFrom depth limit root fuel number).run before =
      .error fault after) : fault = .exhausted := by
  induction fuel generalizing number before with
  | zero =>
      cases hRun
      rfl
  | succ fuel ih =>
      cases hPass : (system.pass depth root number).run before with
      | error other reached =>
          rw [passesFrom, EStateM.run_bind, hPass] at hRun
          cases hRun
          exact pass_error hSafe hInside hPass
      | ok value reached =>
          rw [passesFrom_succ_run hPass] at hRun
          split at hRun
          · split at hRun
            · cases hRun
            · exact ih _ hRun
          · cases hRun

/-- A query over safe equations gives up only if it runs out of its budget. -/
theorem solve_error
    (hSafe : ∀ key, inside key → system.known key = none →
      (system.equation key).Safe inside)
    {budget : Budget} {fault : Fault κ} {notes : List (Note κ)} (hInside : inside root)
    (hSolve : system.solve budget limit root = (.error fault, notes)) :
    fault = .exhausted := by
  unfold solve at hSolve
  cases hRun : (system.passesFrom budget.depth limit root budget.passes 1).run {} with
  | ok found after =>
      rw [hRun] at hSolve
      cases hSolve
  | error other after =>
      rw [hRun] at hSolve
      cases hSolve
      exact passesFrom_error hSafe _ _ hInside hRun

/-- A solved query is a run of passes from scratch. -/
theorem exists_run_of_solve {budget : Budget} {solution : Solution κ ν}
    {notes : List (Note κ)}
    (hSolve : system.solve budget limit root = (.ok solution, notes)) :
    ∃ after, (system.passesFrom budget.depth limit root budget.passes 1).run {} =
      .ok solution after ∧ after.notes = notes := by
  unfold solve at hSolve
  cases hRun : (system.passesFrom budget.depth limit root budget.passes 1).run {} with
  | ok found after =>
      rw [hRun] at hSolve
      cases hSolve
      exact ⟨after, rfl, rfl⟩
  | error fault after =>
      rw [hRun] at hSolve
      cases hSolve

end Runs

section Climbing

/-- The view of every approximation is at most that of what its equation gives next.
-/
def Climbing (system : System κ ν) (inside : κ → Prop) (view : ν → Bool)
    (progress : Progress κ ν) : Prop :=
  ∀ key value, inside key → system.known key = none →
    (system.equation key).eval (system.answer progress) = .ok value →
    view (system.current progress key) = true → view value = true

/-- The equations are monotone as far as a view of the values shows. -/
structure Monotone (system : System κ ν) (inside : κ → Prop) (view : ν → Bool) :
    Prop where
  bottom : view system.bottom = false
  safe : ∀ key, inside key → system.known key = none →
    (system.equation key).Safe inside
  equation : ∀ key (seen later : κ → ν) value next, inside key →
    system.known key = none →
    (∀ other, view (seen other) = true → view (later other) = true) →
    (system.equation key).eval seen = .ok value →
    (system.equation key).eval later = .ok next →
    view value = true → view next = true

/-- The keys whose approximations are `true` in the view. -/
def marked (system : System κ ν) (view : ν → Bool) (progress : Progress κ ν) : Set κ :=
  {key | view (system.current progress key) = true}

variable {view : ν → Bool}

/-- While the approximations climb, a pass can only turn the view of a value from
`false` to `true`. -/
theorem Climbing.respects (hMonotone : system.Monotone inside view)
    (hClimbing : system.Climbing inside view before) :
    system.Respects inside fun key value =>
      view (system.answer before key) = true → view value = true where
  stays key hInside hKnown := (hMonotone.safe key hInside hKnown).stays
  known key value hKnown := by
    rw [answer_of_known hKnown]
    exact id
  equation key seen value hInside hKnown hSeen hEval hView := by
    obtain ⟨next, hNext⟩ :=
      (hMonotone.safe key hInside hKnown).eval_ok (system.answer before)
    rw [answer_of_unknown hKnown] at hView
    exact hMonotone.equation key _ _ next value hInside hKnown hSeen hNext hEval
      (hClimbing key next hInside hKnown hNext hView)

/-- The approximations still climb after a pass. -/
theorem Climbing.pass (hMonotone : system.Monotone inside view)
    (hClimbing : system.Climbing inside view before)
    (hMidway : system.Midway inside
      (fun key value => view (system.answer before key) = true → view value = true)
      (system.current before) (fun _ => False) after) :
    system.Climbing inside view after := by
  intro key next hInside hKnown hNext hView
  by_cases hVisited : key ∈ after.visited
  · obtain ⟨-, seen, hEval, hSeenKnown, hSeen, -⟩ := hMidway.settled key hVisited id
    refine hMonotone.equation key seen _ _ next hInside hKnown ?_ hEval hNext hView
    -- What the equation has seen was right at the start of the pass or is right now,
    -- and in between values only rise.
    intro other hOther
    cases hOtherKnown : system.known other with
    | some value =>
        rw [hSeenKnown other value hOtherKnown] at hOther
        rw [answer_of_known hOtherKnown]
        exact hOther
    | none =>
        rcases hSeen other hOtherKnown with h | ⟨-, -, h⟩
        · apply hMidway.sound other
          rw [answer_of_unknown hOtherKnown, ← h]
          exact hOther
        · rw [answer_of_unknown hOtherKnown, ← h]
          exact hOther
  · rw [hMidway.fresh key hVisited] at hView
    obtain ⟨value, hValue⟩ :=
      (hMonotone.safe key hInside hKnown).eval_ok (system.answer before)
    exact hMonotone.equation key _ _ value next hInside hKnown hMidway.sound hValue
      hNext (hClimbing key value hInside hKnown hValue hView)

variable [Std.TransOrd κ] [Std.LawfulEqOrd κ]

/-- Only keys that were evaluated are marked, so there are at most as many. -/
theorem marked_subset (hMonotone : system.Monotone inside view)
    (progress : Progress κ ν) :
    system.marked view progress ⊆ {key | key ∈ progress.approximations.keys} := by
  intro key hKey
  show key ∈ progress.approximations.keys
  rw [Std.TreeMap.mem_keys]
  by_contra hAbsent
  have hCurrent : system.current progress key = system.bottom := by
    unfold current
    rw [Std.TreeMap.getElem?_eq_none hAbsent]
    rfl
  have hView : view (system.current progress key) = true := hKey
  rw [hCurrent, hMonotone.bottom] at hView
  cases hView

theorem finite_marked (hMonotone : system.Monotone inside view)
    (progress : Progress κ ν) : (system.marked view progress).Finite :=
  (List.finite_toSet _).subset (marked_subset hMonotone progress)

/-- There are at most as many keys with an approximation as there are approximations. -/
theorem ncard_le_size {keys : Set κ} {progress : Progress κ ν}
    (hKeys : keys ⊆ {key | key ∈ progress.approximations.keys}) :
    keys.ncard ≤ progress.approximations.size := by
  classical
  calc keys.ncard
      ≤ {key | key ∈ progress.approximations.keys}.ncard :=
        Set.ncard_le_ncard hKeys (List.finite_toSet _)
    _ = progress.approximations.keys.toFinset.card := by
        rw [← Set.ncard_coe_finset]
        congr 1
        ext key
        simp
    _ ≤ progress.approximations.keys.length := List.toFinset_card_le _
    _ = progress.approximations.size := Std.TreeMap.length_keys

theorem ncard_marked_le (hMonotone : system.Monotone inside view)
    (progress : Progress κ ν) :
    (system.marked view progress).ncard ≤ progress.approximations.size :=
  ncard_le_size (marked_subset hMonotone progress)

/-- A pass that changes the view of a value marks another key. -/
theorem Climbing.ncard_marked_lt (hMonotone : system.Monotone inside view)
    (hMidway : system.Midway inside
      (fun key value => view (system.answer before key) = true → view value = true)
      (system.current before) (fun _ => False) after)
    (hMoved : view (system.current after key) ≠ view (system.current before key)) :
    (system.marked view before).ncard < (system.marked view after).ncard := by
  have hRise (other : κ) (hOther : view (system.current before other) = true) :
      view (system.current after other) = true := by
    by_cases hVisited : other ∈ after.visited
    · have hKnown := (hMidway.bounded other hVisited).2
      rw [← answer_of_unknown hKnown]
      apply hMidway.sound
      rw [answer_of_unknown hKnown]
      exact hOther
    · rw [hMidway.fresh other hVisited]
      exact hOther
  refine Set.ncard_lt_ncard ⟨hRise, fun hSubset => hMoved ?_⟩
    (finite_marked hMonotone after)
  cases hAfter : view (system.current after key) with
  | true => exact (hSubset (show key ∈ system.marked view after from hAfter)).symm
  | false =>
      cases hBefore : view (system.current before key) with
      | false => rfl
      | true =>
          rw [hRise key hBefore] at hAfter
          cases hAfter

end Climbing

section Queries

variable [Std.TransOrd κ] [Std.LawfulEqOrd κ]

theorem mem_harvest {progress : Progress κ ν} {value : ν} :
    (key, value) ∈ harvest progress ↔
      key ∈ progress.visited ∧ progress.approximations[key]? = some value := by
  unfold harvest
  rw [List.mem_filterMap]
  constructor
  · rintro ⟨other, hOther, hEntry⟩
    obtain ⟨found, hFound, hPair⟩ := Option.map_eq_some_iff.mp hEntry
    cases hPair
    exact ⟨Std.TreeSet.mem_toList.mp hOther, hFound⟩
  · rintro ⟨hVisited, hValue⟩
    refine ⟨key, Std.TreeSet.mem_toList.mpr hVisited, ?_⟩
    rw [hValue]
    rfl

/-- After a pass the harvest is what the solver answers for the visited keys. -/
theorem Midway.mem_harvest {start : κ → ν} {value : ν}
    (hMidway : system.Midway inside holds start (fun _ => False) after) :
    (key, value) ∈ harvest after ↔ key ∈ after.visited ∧ system.answer after key = value := by
  rw [System.mem_harvest]
  constructor
  · rintro ⟨hVisited, hFound⟩
    refine ⟨hVisited, ?_⟩
    have hKnown := (hMidway.bounded key hVisited).2
    rw [(hMidway.settled key hVisited id).recorded, Option.some.injEq] at hFound
    rw [answer_of_unknown hKnown, hFound]
  · rintro ⟨hVisited, rfl⟩
    have hKnown := (hMidway.bounded key hVisited).2
    rw [answer_of_unknown hKnown]
    exact ⟨hVisited, (hMidway.settled key hVisited id).recorded⟩

omit [Std.LawfulEqOrd κ] in
theorem current_empty : system.current {} key = system.bottom := by
  unfold current
  rw [Std.TreeMap.getElem?_emptyc]
  rfl

/-- There are at most as many approximations as keys that can occur. -/
theorem size_approximations_le {keys : List κ} {progress : Progress κ ν}
    (hRecorded : ∀ key ∈ progress.approximations, inside key)
    (hKeys : ∀ key, inside key → key ∈ keys) :
    progress.approximations.size ≤ keys.length := by
  have hNodup : progress.approximations.keys.Nodup := by
    refine Std.TreeMap.distinct_keys.imp ?_
    rintro first second hCompare rfl
    exact hCompare Std.ReflOrd.compare_self
  have hSubset : progress.approximations.keys ⊆ keys := by
    intro key hKey
    exact hKeys key (hRecorded key (Std.TreeMap.mem_keys.mp hKey))
  rw [← Std.TreeMap.length_keys]
  exact (List.subperm_of_subset hNodup hSubset).length_le

variable [DecidableEq ν] {budget : Budget} {limit : PassLimit}
  {solution : Solution κ ν} {notes : List (Note κ)}

/-- A property that the equations hand on, and that the bottom value has, holds of
the values that a query finds, whether or not it was stopped.  If it was not
stopped the values solve the equations, and if it was, that is noted. -/
theorem Respects.solve (hRespects : system.Respects inside holds)
    (hBottom : ∀ key, holds key system.bottom) (hInside : inside root)
    (hSolve : system.solve budget limit root = (.ok solution, notes)) :
    holds root solution.value ∧
      (∀ key value, (key, value) ∈ solution.values → inside key ∧ holds key value) ∧
      (solution.converged = true → ∃ assignment covered,
        system.Solves id inside root assignment covered ∧
          solution.value = assignment root ∧
          ∀ key value, (key, value) ∈ solution.values ↔
            covered key ∧ assignment key = value) ∧
      (solution.converged = false → ∃ passes, .abandoned root passes ∈ notes) := by
  obtain ⟨after, hRun, rfl⟩ := exists_run_of_solve hSolve
  have hStart : ∀ key, holds key (system.answer {} key) := by
    intro key
    cases hKnown : system.known key with
    | some value =>
        rw [answer_of_known hKnown]
        exact hRespects.known key value hKnown
    | none =>
        rw [answer_of_unknown hKnown, current_empty]
        exact hBottom key
  -- Every pass keeps the property, so the last pass begins and ends with it.
  obtain ⟨last, start, reached, ⟨hRecorded, hSound⟩, hPass, hValues, hConverged,
      hStopped⟩ :=
    exists_last_pass (fun _ progress =>
        (∀ key ∈ progress.approximations, inside key) ∧
          ∀ key, holds key (system.answer progress key))
      (fun number before after value hInv hPass _ _ => by
        obtain ⟨hMidway, -, -⟩ :=
          Midway.pass hRespects hInside hInv.1 hInv.2 hPass
        exact ⟨hMidway.recorded, hMidway.sound⟩)
      budget.passes 1
      ⟨fun key hKey => absurd hKey Std.TreeMap.not_mem_emptyc, hStart⟩ hRun
  obtain ⟨hMidway, hValue, hRoot⟩ :=
    Midway.pass hRespects hInside hRecorded hSound hPass
  have hEntry (key : κ) (value : ν) : (key, value) ∈ solution.values ↔
      key ∈ reached.visited ∧ system.answer reached key = value := by
    rw [hValues]
    exact hMidway.mem_harvest
  refine ⟨hValue ▸ hMidway.sound root, ?_, ?_, ?_⟩
  · intro key value hMem
    obtain ⟨hVisited, rfl⟩ := (hEntry key value).mp hMem
    exact ⟨(hMidway.bounded key hVisited).1, hMidway.sound key⟩
  · intro hTrue
    have hUnchanged : ∀ key,
        system.current reached key = system.current start key := by
      intro key
      by_contra hMoved
      rw [hMidway.changed.mpr ⟨key, hMoved⟩] at hConverged
      rw [hConverged] at hTrue
      cases hTrue
    exact ⟨_, _, hMidway.solves hRoot hUnchanged, hValue, hEntry⟩
  · intro hFalse
    rw [hFalse] at hConverged
    exact ⟨last, (hStopped (by simpa using hConverged.symm)).2⟩

/-- What is known of a climbing run after some passes: as many keys are marked as
there were passes, or the view has met a solution and is above it since. -/
structure Climbed (system : System κ ν) (inside : κ → Prop) (view : ν → Bool)
    (root : κ) (number : Nat) (progress : Progress κ ν) : Prop where
  recorded : ∀ key ∈ progress.approximations, inside key
  climbing : system.Climbing inside view progress
  marked_or_solved : number ≤ (system.marked view progress).ncard + 1 ∨
    ∃ assignment covered, system.Solves view inside root assignment covered ∧
      ∀ key, view (assignment key) = true →
        view (system.answer progress key) = true

variable {view : ν → Bool}

omit [Std.LawfulEqOrd κ] [DecidableEq ν] in
theorem Climbed.start (hMonotone : system.Monotone inside view) :
    system.Climbed inside view root 1 {} where
  recorded key hKey := absurd hKey Std.TreeMap.not_mem_emptyc
  climbing key value _ _ _ hView := by
    rw [current_empty, hMonotone.bottom] at hView
    cases hView
  marked_or_solved := Or.inl (by omega)

/-- One more pass marks another key or leaves the view at a solution. -/
theorem Climbed.pass {depth number : Nat} {value : ν}
    (hMonotone : system.Monotone inside view) (hInside : inside root)
    (hClimbed : system.Climbed inside view root number before)
    (hPass : (system.pass depth root number).run before = .ok value after) :
    system.Climbed inside view root (number + 1) after ∧
      value = system.answer after root ∧
      (after.changed = false → ∃ assignment covered,
        system.Solves view inside root assignment covered ∧
          ∀ key, view (assignment key) = true →
            view (system.answer after key) = true) := by
  obtain ⟨hMidway, hValue, hRoot⟩ :=
    Midway.pass (hClimbed.climbing.respects hMonotone) hInside hClimbed.recorded
      (fun _ => id) hPass
  have hSolved (hSame : ∀ key, view (system.current after key) =
        view (system.current before key)) :
      ∃ assignment covered, system.Solves view inside root assignment covered ∧
        ∀ key, view (assignment key) = true →
          view (system.answer after key) = true :=
    ⟨_, _, hMidway.solves hRoot hSame, fun _ h => h⟩
  refine ⟨⟨hMidway.recorded, hClimbed.climbing.pass hMonotone hMidway, ?_⟩, hValue, ?_⟩
  · -- Once the view has met a solution it stays above it, as values only rise.
    rcases hClimbed.marked_or_solved with hMarked | ⟨assignment, covered, hSolves, hLe⟩
    · by_cases hSame : ∀ key, view (system.current after key) =
          view (system.current before key)
      · exact Or.inr (hSolved hSame)
      · obtain ⟨key, hMoved⟩ := not_forall.mp hSame
        have hMore := Climbing.ncard_marked_lt hMonotone hMidway hMoved
        exact Or.inl (by omega)
    · exact Or.inr ⟨assignment, covered, hSolves,
        fun key hKey => hMidway.sound key (hLe key hKey)⟩
  · intro hUnchanged
    apply hSolved
    intro key
    by_contra hMoved
    have hChanged := hMidway.changed.mpr ⟨key, fun h => hMoved (by rw [h])⟩
    rw [hUnchanged] at hChanged
    cases hChanged

/-- A query whose limit grows with the number of keys may be stopped before it has
found a solution, but not before the view of its answer is that of one. -/
theorem Monotone.solve (hMonotone : system.Monotone inside view)
    (hInside : inside root) (hLimit : ∀ passes, limit ≠ .fixed passes)
    (hSolve : system.solve budget limit root = (.ok solution, notes)) :
    ∃ assignment covered, system.Solves view inside root assignment covered ∧
      (view (assignment root) = true → view solution.value = true) := by
  obtain ⟨after, hRun, -⟩ := exists_run_of_solve hSolve
  obtain ⟨last, start, reached, hStart, hPass, -, -, hStopped⟩ :=
    exists_last_pass (system.Climbed inside view root)
      (fun number before after value hClimbed hPass _ _ =>
        (hClimbed.pass hMonotone hInside hPass).1)
      budget.passes 1 (Climbed.start hMonotone) hRun
  obtain ⟨hReached, hValue, hUnchanged⟩ := hStart.pass hMonotone hInside hPass
  have hSolved : ∃ assignment covered,
      system.Solves view inside root assignment covered ∧
        ∀ key, view (assignment key) = true →
          view (system.answer reached key) = true := by
    cases hChanged : reached.changed with
    | false => exact hUnchanged hChanged
    | true =>
        -- The limit was reached, so there were two passes more than keys.
        refine hReached.marked_or_solved.resolve_left ?_
        have hCount := ncard_marked_le hMonotone reached
        have hReachedLimit := (hStopped hChanged).1
        cases limit with
        | unbounded => cases hReachedLimit
        | fixed passes => exact absurd rfl (hLimit passes)
        | scaled floor =>
            have hLast : max floor (reached.approximations.size + 2) ≤ last := by
              simpa [PassLimit.isReached] using hReachedLimit
            omega
  obtain ⟨assignment, covered, hSolves, hLe⟩ := hSolved
  refine ⟨assignment, covered, hSolves, fun hRoot => ?_⟩
  rw [hValue]
  exact hLe root hRoot

end Queries

section Totality

variable [Std.TransOrd κ] [Std.LawfulEqOrd κ] {keys : List κ} {budget : Budget}

/-- A query with truth values and monotone equations over finitely many keys is
solved within as many passes as there are keys, and one more. -/
theorem exists_solve_eq_ok_of_monotone {system : System κ Bool}
    (hMonotone : system.Monotone inside id) (hKeys : ∀ key, inside key → key ∈ keys)
    (hInside : inside root) (hDepth : keys.length < budget.depth)
    (hPasses : keys.length < budget.passes) :
    ∃ solution notes, system.solve budget .unbounded root = (.ok solution, notes) ∧
      solution.converged = true := by
  -- With the values themselves as the view, every pass that changes one marks a key.
  have hStep (number : Nat) (before after : Progress κ Bool) (value : Bool)
      (hInv : system.Climbed inside id root number before ∧
        number ≤ (system.marked id before).ncard + 1)
      (hPass : (system.pass budget.depth root number).run before = .ok value after)
      (hChanged : after.changed = true) :
      system.Climbed inside id root (number + 1) after ∧
        number + 1 ≤ (system.marked id after).ncard + 1 := by
    obtain ⟨hMidway, -, -⟩ :=
      Midway.pass (hInv.1.climbing.respects hMonotone) hInside hInv.1.recorded
        (fun _ => id) hPass
    obtain ⟨key, hMoved⟩ := hMidway.changed.mp hChanged
    have hMore := Climbing.ncard_marked_lt hMonotone hMidway hMoved
    exact ⟨(hInv.1.pass hMonotone hInside hPass).1, by omega⟩
  have hEnds : ∃ solution after,
      (system.passesFrom budget.depth .unbounded root budget.passes 1).run {} =
        .ok solution after := by
    refine exists_passesFrom_eq_ok
      (fun number progress => system.Climbed inside id root number progress ∧
        number ≤ (system.marked id progress).ncard + 1)
      (keys.length + 1)
      (fun _ _ _ => exists_pass_eq_ok hMonotone.safe hKeys hInside hDepth)
      (fun number before after value hInv hPass hChanged _ =>
        hStep number before after value hInv hPass hChanged)
      (fun number before hInv => ?_)
      budget.passes 1 ⟨Climbed.start hMonotone, by omega⟩ (by omega)
    have hCount := ncard_marked_le hMonotone before
    have hSize := size_approximations_le hInv.1.recorded hKeys
    omega
  obtain ⟨solution, after, hRun⟩ := hEnds
  refine ⟨solution, after.notes, ?_, ?_⟩
  · unfold solve
    rw [hRun]
  · obtain ⟨last, start, reached, -, -, -, hConverged, hStopped⟩ :=
      exists_last_pass (fun _ _ => True) (fun _ _ _ _ _ _ _ _ => trivial)
        budget.passes 1 trivial hRun
    rw [hConverged]
    cases hChanged : reached.changed with
    | false => rfl
    | true => exact absurd (hStopped hChanged).1 (by simp [PassLimit.isReached])

/-- A query over finitely many keys whose limit grows with their number ends. -/
theorem exists_solve_eq_ok_of_scaled [DecidableEq ν] {floor : Nat}
    (hSafe : ∀ key, inside key → system.known key = none →
      (system.equation key).Safe inside)
    (hKeys : ∀ key, inside key → key ∈ keys) (hInside : inside root)
    (hDepth : keys.length < budget.depth)
    (hPasses : max floor (keys.length + 2) ≤ budget.passes) :
    ∃ solution notes,
      system.solve budget (.scaled floor) root = (.ok solution, notes) := by
  have hRespects : system.Respects inside fun _ _ => True :=
    ⟨fun key hKey hKnown => (hSafe key hKey hKnown).stays, fun _ _ _ => trivial,
      fun _ _ _ _ _ _ _ => trivial⟩
  have hEnds : ∃ solution after,
      (system.passesFrom budget.depth (.scaled floor) root budget.passes 1).run {} =
        .ok solution after := by
    refine exists_passesFrom_eq_ok
      (fun number progress => number ≤ max floor (keys.length + 2) ∧
        ∀ key ∈ progress.approximations, inside key)
      (max floor (keys.length + 2))
      (fun _ _ _ => exists_pass_eq_ok hSafe hKeys hInside hDepth)
      (fun number before after value hInv hPass _ hLimit => ?_)
      (fun _ _ hInv => hInv.1) budget.passes 1
      ⟨by omega, fun key hKey => absurd hKey Std.TreeMap.not_mem_emptyc⟩ (by omega)
    obtain ⟨hMidway, -, -⟩ :=
      Midway.pass hRespects hInside hInv.2 (fun _ => trivial) hPass
    have hSize := size_approximations_le hMidway.recorded hKeys
    have hBelow : ¬ max floor (after.approximations.size + 2) ≤ number := by
      simpa [PassLimit.isReached] using hLimit
    exact ⟨by omega, hMidway.recorded⟩
  obtain ⟨solution, after, hRun⟩ := hEnds
  refine ⟨solution, after.notes, ?_⟩
  unfold solve
  rw [hRun]

end Totality

end System

end Fixpoint

end DerivativeParsing
