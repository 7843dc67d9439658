import Mathlib.Data.Finset.Basic
import Mathlib.Order.Bounds.Basic
import Mathlib.Order.Hom.Basic
import DerivativeParsing.Proofs.Fixpoint.Convergence

namespace DerivativeParsing
namespace Fixpoint

/-!
# The solver finds the least solution

The right-hand sides of a system compute an operator on assignments: given a value for
every key, one new value for every key.  If the operator is monotone and there is a least
assignment that it does not raise, that assignment is what the solver is after, whatever
the order of the values and however the equations go about asking.

* No approximation is ever above the least solution (`Computes.respects`), so a query
  that was stopped has found values below it.
* A query that was not stopped has found a solution of the equations that it covers.
  Completed by the least solution everywhere else, it is an assignment that the operator
  does not raise, so it is not below the least solution either (`Computes.least_le`).
-/

namespace Inquiry

variable {κ ν α : Type} {seen later : κ → ν} {key : κ}

theorem stays_everywhere (inquiry : Inquiry κ ν α) : inquiry.Stays fun _ => True := by
  induction inquiry with
  | answer result => exact trivial
  | fail fault => exact trivial
  | remark notes rest ih => exact ih
  | ask key next ih => exact ⟨trivial, ih⟩

/-- The answer of an inquiry depends on the values that it asks for, and on no other. -/
theorem eval_congr {inquiry : Inquiry κ ν α}
    (hSame : ∀ key, inquiry.Asks seen key → later key = seen key) :
    inquiry.eval later = inquiry.eval seen := by
  induction inquiry with
  | answer result => rfl
  | fail fault => rfl
  | remark notes rest ih => exact ih hSame
  | ask other next ih =>
      rw [eval, eval, hSame other (Or.inl rfl)]
      exact ih (seen other) fun key hKey => hSame key (Or.inr hKey)

/-- What an inquiry asks for depends on the values that it asks for, and on no other. -/
theorem asks_congr {inquiry : Inquiry κ ν α}
    (hSame : ∀ key, inquiry.Asks seen key → later key = seen key) :
    inquiry.Asks later key ↔ inquiry.Asks seen key := by
  induction inquiry with
  | answer result => exact Iff.rfl
  | fail fault => exact Iff.rfl
  | remark notes rest ih => exact ih hSame
  | ask other next ih =>
      rw [Asks, Asks, hSame other (Or.inl rfl)]
      exact or_congr_right (ih (seen other) fun key hKey => hSame key (Or.inr hKey))

end Inquiry

namespace System

variable {κ ν : Type}

/-- The right-hand sides of the equations compute an operator on assignments. -/
def Computes (system : System κ ν) (step : (κ → ν) → κ → ν) : Prop :=
  ∀ key seen, (system.equation key).eval seen = .ok (step seen key)

variable {system : System κ ν} {inside covered : κ → Prop} {root : κ}

theorem Computes.step_congr {step : (κ → ν) → κ → ν} {seen later : κ → ν} {key : κ}
    (hComputes : system.Computes step)
    (hSame : ∀ other, (system.equation key).Asks seen other → later other = seen other) :
    step later key = step seen key := by
  have hEval := Inquiry.eval_congr hSame
  rw [hComputes key later, hComputes key seen] at hEval
  exact Except.ok.inj hEval

variable [PartialOrder ν] {step : (κ → ν) →o (κ → ν)} {least assignment : κ → ν}
  (hComputes : system.Computes step)
  (hLeast : IsLeast {assignment | step assignment ≤ assignment} least)
  (hKnown : ∀ key value, system.known key = some value → value = least key)

include hComputes hLeast hKnown

/-- The equations hand on that a value is not above the least solution. -/
theorem Computes.respects :
    system.Respects (fun _ => True) fun key value => value ≤ least key where
  stays key _ _ := (system.equation key).stays_everywhere
  known key value hKey := (hKnown key value hKey).le
  equation key seen value _ _ hSeen hEval := by
    have hValue : step seen key = value := Except.ok.inj ((hComputes key seen).symm.trans hEval)
    calc value = step seen key := hValue.symm
      _ ≤ step least key := step.mono hSeen key
      _ ≤ least key := hLeast.1 key

/-- A solution of the equations of some keys that is not above the least solution is not
below it either. -/
theorem Computes.least_le (hSolves : system.Solves id inside root assignment covered)
    (hBelow : ∀ key, covered key → assignment key ≤ least key) {key : κ}
    (hKey : covered key) : least key ≤ assignment key := by
  classical
  -- Everywhere else the solution is completed by the least one.
  let completed : κ → ν := fun key => if covered key then assignment key else least key
  have hCompleted (key : κ) (hKey : system.known key ≠ none ∨ covered key) :
      completed key = assignment key := by
    by_cases hCovered : covered key
    · exact if_pos hCovered
    · obtain ⟨value, hValue⟩ :=
        Option.ne_none_iff_exists'.mp (hKey.resolve_right hCovered)
      rw [hSolves.known key value hValue, hKnown key value hValue]
      exact if_neg hCovered
  have hLe : completed ≤ least := by
    intro key
    by_cases hCovered : covered key
    · rw [hCompleted key (Or.inr hCovered)]
      exact hBelow key hCovered
    · exact (if_neg hCovered).le
  have hUnraised : step completed ≤ completed := by
    intro key
    by_cases hCovered : covered key
    · obtain ⟨seen, hSeen, ⟨value, hEval, hValue⟩, hAsks⟩ := hSolves.equation key hCovered
      obtain rfl : seen = assignment := funext hSeen
      have hStep : step completed key = step seen key :=
        hComputes.step_congr fun other hOther => hCompleted other (hAsks other hOther)
      rw [hComputes key seen] at hEval
      rw [hStep, Except.ok.inj hEval, hCompleted key (Or.inr hCovered)]
      exact hValue.le
    · calc step completed key ≤ step least key := step.mono hLe key
        _ ≤ least key := hLeast.1 key
        _ = completed key := (if_neg hCovered).symm
  calc least key ≤ completed key := hLeast.2 hUnraised key
    _ = assignment key := hCompleted key (Or.inr hKey)

variable [Ord κ] [Std.TransOrd κ] [Std.LawfulEqOrd κ] [DecidableEq ν] {budget : Budget}
  {limit : PassLimit} {solution : Solution κ ν} {notes : List (Note κ)}

/-- A query of monotone equations that was not stopped has found the least solution, for
its root and for all the keys of its last pass, and these keys are closed under what
their equations ask for.  A query that was stopped has found nothing above the least
solution. -/
theorem solve_eq_least (hBottom : ∀ value, system.bottom ≤ value)
    (hSolve : system.solve budget limit root = (.ok solution, notes)) :
    (solution.converged = true →
      solution.value = least root ∧
      ∀ key value, (key, value) ∈ solution.values → value = least key ∧
        ∀ other, (system.equation key).Asks least other →
          system.known other ≠ none ∨ ∃ value, (other, value) ∈ solution.values) ∧
    (solution.converged = false →
      solution.value ≤ least root ∧
      ∀ key value, (key, value) ∈ solution.values → value ≤ least key) := by
  obtain ⟨hRoot, hValues, hConverged, -⟩ :=
    (hComputes.respects hLeast hKnown).solve (fun key => hBottom (least key)) trivial hSolve
  refine ⟨fun hTrue => ?_, fun _ => ⟨hRoot, fun key value hEntry =>
    (hValues key value hEntry).2⟩⟩
  obtain ⟨assignment, covered, hSolves, hValue, hEntries⟩ := hConverged hTrue
  have hBelow (key : κ) (hKey : covered key) : assignment key ≤ least key :=
    (hValues key _ ((hEntries key _).mpr ⟨hKey, rfl⟩)).2
  have hExact (key : κ) (hKey : system.known key ≠ none ∨ covered key) :
      assignment key = least key := by
    by_cases hCovered : covered key
    · exact le_antisymm (hBelow key hCovered)
        (hComputes.least_le hLeast hKnown hSolves hBelow hCovered)
    · obtain ⟨value, hFound⟩ := Option.ne_none_iff_exists'.mp (hKey.resolve_right hCovered)
      rw [hSolves.known key value hFound, hKnown key value hFound]
  refine ⟨hValue.trans (hExact root hSolves.root), fun key value hEntry => ?_⟩
  obtain ⟨hKey, rfl⟩ := (hEntries key value).mp hEntry
  refine ⟨hExact key (Or.inr hKey), fun other hOther => ?_⟩
  -- The equation was evaluated under the solution, which is least wherever it looked.
  obtain ⟨seen, hSeen, -, hAsks⟩ := hSolves.equation key hKey
  obtain rfl : seen = assignment := funext hSeen
  have hSame (other : κ) (hOther : (system.equation key).Asks seen other) :
      least other = seen other := (hExact other (hAsks other hOther)).symm
  rw [Inquiry.asks_congr hSame] at hOther
  exact (hAsks other hOther).imp_right fun hCovered =>
    ⟨seen other, (hEntries other _).mpr ⟨hCovered, rfl⟩⟩

end System

namespace Ring

/-- Which numbers can be reached from each of three numbers on a ring, of which the last
has a way out. -/
def equation : Nat → Inquiry Nat (Finset Nat) (Finset Nat)
  | 0 => do return insert 0 (← .value 1)
  | 1 => do return insert 1 (← .value 2)
  | 2 => do return insert 2 ((← .value 0) ∪ (← .value 3))
  | 3 => return {3}
  | _ => return ∅

/-- The way out leads to a key that is known already. -/
def system : System Nat (Finset Nat) where
  bottom := ∅
  known key := if key = 3 then some {3} else none
  equation := equation

/-- The operator that the equations compute. -/
def step : (Nat → Finset Nat) →o (Nat → Finset Nat) where
  toFun seen
    | 0 => insert 0 (seen 1)
    | 1 => insert 1 (seen 2)
    | 2 => insert 2 (seen 0 ∪ seen 3)
    | 3 => {3}
    | _ => ∅
  monotone' _ _ hLater
    | 0 => Finset.insert_subset_insert 0 (hLater 1)
    | 1 => Finset.insert_subset_insert 1 (hLater 2)
    | 2 => Finset.insert_subset_insert 2 (Finset.union_subset_union (hLater 0) (hLater 3))
    | 3 => subset_rfl
    | _ + 4 => subset_rfl

/-- The whole ring reaches all four numbers. -/
def least : Nat → Finset Nat
  | 0 => {0, 1, 2, 3}
  | 1 => {0, 1, 2, 3}
  | 2 => {0, 1, 2, 3}
  | 3 => {3}
  | _ => ∅

theorem computes : system.Computes step
  | 0, _ => rfl
  | 1, _ => rfl
  | 2, _ => rfl
  | 3, _ => rfl
  | _ + 4, _ => rfl

theorem isLeast : IsLeast {assignment | step assignment ≤ assignment} least := by
  constructor
  · rintro (_ | _ | _ | _ | key)
    · show insert 0 ({0, 1, 2, 3} : Finset Nat) ⊆ {0, 1, 2, 3}
      decide
    · show insert 1 ({0, 1, 2, 3} : Finset Nat) ⊆ {0, 1, 2, 3}
      decide
    · show insert 2 ({0, 1, 2, 3} ∪ {3} : Finset Nat) ⊆ {0, 1, 2, 3}
      decide
    · exact subset_rfl
    · exact subset_rfl
  · intro assignment hUnraised
    obtain ⟨hZero, hFromOne⟩ := Finset.insert_subset_iff.mp (hUnraised 0)
    obtain ⟨hOne, hFromTwo⟩ := Finset.insert_subset_iff.mp (hUnraised 1)
    obtain ⟨hTwo, hFromRest⟩ := Finset.insert_subset_iff.mp (hUnraised 2)
    obtain ⟨hFromZero, hFromThree⟩ := Finset.union_subset_iff.mp hFromRest
    have hThree : ({3} : Finset Nat) ⊆ assignment 3 := hUnraised 3
    -- Around the ring the three sets contain each other.
    have hOfTwo : ({0, 1, 2, 3} : Finset Nat) ⊆ assignment 2 := by
      intro number hNumber
      grind
    have hOfOne := hOfTwo.trans hFromTwo
    rintro (_ | _ | _ | _ | key)
    · exact hOfOne.trans hFromOne
    · exact hOfOne
    · exact hOfTwo
    · exact hThree
    · exact Finset.empty_subset _

theorem known_eq_least (key : Nat) (value : Finset Nat)
    (hKnown : system.known key = some value) : value = least key := by
  change (if key = 3 then some {3} else none) = some value at hKnown
  by_cases hKey : key = 3
  · subst hKey
    exact (Option.some.inj hKnown).symm
  · rw [if_neg hKey] at hKnown
    cases hKnown

/-- Without a limit the query from the first number is not stopped. -/
theorem solved : ∃ solution notes,
    system.solve ⟨4, 4⟩ .unbounded 0 = (.ok solution, notes) ∧ solution.converged = true :=
  ⟨_, _, rfl, rfl⟩

/-- After one pass it is not over. -/
theorem stopped : ∃ solution notes,
    system.solve ⟨4, 4⟩ (.fixed 1) 0 = (.ok solution, notes) ∧ solution.converged = false :=
  ⟨_, _, rfl, rfl⟩

end Ring

theorem System.solve_eq_least_ring :
    Ring.system.Computes Ring.step ∧
      IsLeast {assignment | Ring.step assignment ≤ assignment} Ring.least ∧
      (∀ key value, Ring.system.known key = some value → value = Ring.least key) ∧
      (∀ value, Ring.system.bottom ≤ value) ∧
      (∃ solution notes,
        Ring.system.solve ⟨4, 4⟩ .unbounded 0 = (.ok solution, notes) ∧
          solution.value = {0, 1, 2, 3}) ∧
      ∃ solution notes,
        Ring.system.solve ⟨4, 4⟩ (.fixed 1) 0 = (.ok solution, notes) ∧
          solution.value ≤ {0, 1, 2, 3} := by
  obtain ⟨solution, notes, hSolve, hConverged⟩ := Ring.solved
  obtain ⟨solution', notes', hSolve', hStopped⟩ := Ring.stopped
  have hExact := (solve_eq_least Ring.computes Ring.isLeast Ring.known_eq_least
    Finset.empty_subset hSolve).1 hConverged
  have hBelow := (solve_eq_least Ring.computes Ring.isLeast Ring.known_eq_least
    Finset.empty_subset hSolve').2 hStopped
  exact ⟨Ring.computes, Ring.isLeast, Ring.known_eq_least, Finset.empty_subset,
    ⟨solution, notes, hSolve, hExact.1⟩, solution', notes', hSolve', hBelow.1⟩

end Fixpoint

end DerivativeParsing
