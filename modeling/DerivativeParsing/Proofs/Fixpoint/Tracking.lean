import Mathlib.Order.FixedPoints
import DerivativeParsing.Proofs.Fixpoint.Convergence

namespace DerivativeParsing
namespace Fixpoint

/-!
# What the solver computes

The equations of a system are one step of a monotone operator, seen through a view of
their values: a value has items, and the value of an equation has exactly the items that
the step makes of the items it asked for.  Such a system tracks the operator.

* The values of a query never have more items than the least fixed point of the operator
  (`Tracks.respects`), however early the query was stopped.
* A solution has all of them (`Tracks.has_of_lfp`).
* A query with truth values ends with a solution (`Tracks.exists_solve`).

Equations with truth values are put together from few parts: `Inquiry.Answers` says of
each which proposition it decides, and `tracks_of_answers` makes a tracking system of
them.
-/

namespace Inquiry

variable {κ : Type} {inside : κ → Prop} {layer layer' : (κ → Prop) → Prop}
  {inquiry : Inquiry κ Bool Bool} {key left right : κ}

/-- The inquiry is safe, and answers with whether the layer holds of the keys with value
`true`.  The layer may look at no other keys than the inquiry asks for. -/
structure Answers (inquiry : Inquiry κ Bool Bool) (inside : κ → Prop)
    (layer : (κ → Prop) → Prop) : Prop where
  safe : inquiry.Safe inside
  sound : ∀ seen, inquiry.eval seen = .ok true → layer fun key => seen key = true
  complete : ∀ seen (part : κ → Prop),
    (∀ key, inquiry.Asks seen key → part key → seen key = true) →
    layer part → inquiry.eval seen = .ok true

theorem Answers.congr (hAnswers : inquiry.Answers inside layer)
    (hLayer : ∀ part, layer part ↔ layer' part) : inquiry.Answers inside layer' where
  safe := hAnswers.safe
  sound seen hEval := (hLayer _).mp (hAnswers.sound seen hEval)
  complete seen part hAsks hPart := hAnswers.complete seen part hAsks ((hLayer part).mpr hPart)

theorem answers_true : (answer true).Answers inside fun _ => True where
  safe := trivial
  sound _ _ := trivial
  complete _ _ _ _ := rfl

theorem answers_false : (answer false).Answers inside fun _ => False where
  safe := trivial
  sound _ hEval := by cases hEval
  complete _ _ _ hFalse := hFalse.elim

theorem answers_value (hKey : inside key) :
    (value key).Answers inside fun part => part key where
  safe := (safe_value inside key).mpr hKey
  sound _ hEval := Except.ok.inj hEval
  complete _ _ hAsks hPart := congrArg Except.ok (hAsks key (Or.inl rfl) hPart)

theorem answers_or (hLeft : inside left) (hRight : inside right) :
    (value left >>= fun left => value right >>= fun right =>
      pure (left || right)).Answers inside fun part => part left ∨ part right where
  safe := ⟨hLeft, fun _ => ⟨hRight, fun _ => trivial⟩⟩
  sound seen hEval := Bool.or_eq_true_iff.mp (Except.ok.inj hEval)
  complete seen part hAsks hPart := by
    have hEither : seen left = true ∨ seen right = true :=
      hPart.imp (hAsks left (by simp)) (hAsks right (by simp))
    exact congrArg Except.ok (Bool.or_eq_true_iff.mpr hEither)

theorem answers_and (hLeft : inside left) (hRight : inside right) :
    (value left >>= fun left => value right >>= fun right =>
      pure (left && right)).Answers inside fun part => part left ∧ part right where
  safe := ⟨hLeft, fun _ => ⟨hRight, fun _ => trivial⟩⟩
  sound seen hEval := Bool.and_eq_true_iff.mp (Except.ok.inj hEval)
  complete seen part hAsks hPart := by
    have hBoth : seen left = true ∧ seen right = true :=
      hPart.imp (hAsks left (by simp)) (hAsks right (by simp))
    exact congrArg Except.ok (Bool.and_eq_true_iff.mpr hBoth)

end Inquiry

namespace System

variable {κ ν α ι : Type}

/-- The equations compute one step of an operator, as far as a view of the values shows.
The step may use what the equation asked for, and nothing else. -/
structure Tracks (system : System κ ν) (inside : κ → Prop) (view : ν → α)
    (has : α → ι → Prop) (step : (κ → ι → Prop) →o (κ → ι → Prop)) : Prop where
  bottom : ∀ item, ¬ has (view system.bottom) item
  safe : ∀ key, inside key → (system.equation key).Safe inside
  sound : ∀ key seen value item, inside key →
    (system.equation key).eval seen = .ok value → has (view value) item →
    step (fun other => has (view (seen other))) key item
  complete : ∀ key seen value item (holds : κ → ι → Prop), inside key →
    (system.equation key).eval seen = .ok value →
    (∀ other, (system.equation key).Asks seen other →
      ∀ item, holds other item → has (view (seen other)) item) →
    step holds key item → has (view value) item

variable {system : System κ ν} {inside : κ → Prop} {view : ν → α} {has : α → ι → Prop}
  {step : (κ → ι → Prop) →o (κ → ι → Prop)} {root : κ}

theorem lfp_iff_step {key : κ} {item : ι} :
    step.lfp key item ↔ step step.lfp key item := by
  rw [step.map_lfp]

/-- The items of the values that a query finds belong to the least fixed point. -/
theorem Tracks.respects (hTracks : system.Tracks inside view has step)
    (hKnown : ∀ key value item, system.known key = some value →
      has (view value) item → step.lfp key item) :
    system.Respects inside fun key value =>
      ∀ item, has (view value) item → step.lfp key item where
  stays key hInside _ := (hTracks.safe key hInside).stays
  known key value hKey item := hKnown key value item hKey
  equation key seen value hInside _ hSeen hEval item hItem := by
    have hStep := hTracks.sound key seen value item hInside hEval hItem
    exact lfp_iff_step.mpr (step.mono hSeen key item hStep)

/-- A solution has all the items of the least fixed point. -/
theorem Tracks.has_of_lfp {assignment : κ → ν} {covered : κ → Prop}
    (hTracks : system.Tracks inside view has step)
    (hKnown : ∀ key value item, inside key → system.known key = some value →
      step.lfp key item → has (view value) item)
    (hSolves : system.Solves view inside root assignment covered) (hInside : inside root)
    {item : ι} (hLeast : step.lfp root item) : has (view (assignment root)) item := by
  -- The induction is on the least fixed point; a known key closes it at once.
  let right (key : κ) (item : ι) : Prop := step.lfp key item ∧
    (inside key → system.known key ≠ none ∨ covered key → has (view (assignment key)) item)
  have hRight : step right ≤ right := by
    intro key item hStep
    have hKey : step.lfp key item :=
      lfp_iff_step.mpr (step.mono (fun _ _ h => h.1) key item hStep)
    refine ⟨hKey, fun hInside hCovered => ?_⟩
    cases hFound : system.known key with
    | some value =>
        rw [hSolves.known key value hFound]
        exact hKnown key value item hInside hFound hKey
    | none =>
        have hCovered := hCovered.resolve_left (by simp [hFound])
        obtain ⟨seen, hSeen, ⟨value, hEval, hValue⟩, hAsks⟩ :=
          hSolves.equation key hCovered
        rw [← hValue]
        refine hTracks.complete key seen value item right hInside hEval ?_ hStep
        intro other hOther item hItem
        rw [hSeen other]
        exact hItem.2 ((hTracks.safe key hInside).inside hOther) (hAsks other hOther)
  exact (step.lfp_le hRight root item hLeast).2 hInside hSolves.root

section Boolean

variable {view : ν → Bool} {step : (κ → Unit → Prop) →o (κ → Unit → Prop)}

/-- A system with truth values tracks an operator if every equation answers with the
step of the operator at its key. -/
theorem tracks_of_answers {system : System κ Bool} (hBottom : system.bottom = false)
    (hEquation : ∀ key, inside key → (system.equation key).Answers inside fun part =>
      step (fun other _ => part other) key ()) :
    system.Tracks inside id (fun value _ => value = true) step where
  bottom _ := by simp [hBottom]
  safe key hInside := (hEquation key hInside).safe
  sound key seen value _ hInside hEval hValue := by
    subst hValue
    exact (hEquation key hInside).sound seen hEval
  complete key seen value _ holds hInside hEval hAsks hStep := by
    have hTrue := (hEquation key hInside).complete seen (fun other => holds other ())
      (fun other hOther => hAsks other hOther ()) hStep
    exact Except.ok.inj (hEval.symm.trans hTrue)

/-- A system that tracks an operator with truth values is monotone. -/
theorem Tracks.monotone
    (hTracks : system.Tracks inside view (fun value _ => value = true) step) :
    system.Monotone inside view where
  bottom := by
    rw [← Bool.not_eq_true]
    exact hTracks.bottom ()
  safe key hInside _ := hTracks.safe key hInside
  equation key seen later value next hInside _ hLater hValue hNext hView := by
    have hStep := hTracks.sound key seen value () hInside hValue hView
    exact hTracks.complete key later next () _ hInside hNext
      (fun other _ _ hOther => hLater other hOther) hStep

end Boolean

variable [Ord κ] [Std.TransOrd κ] [Std.LawfulEqOrd κ] [DecidableEq ν] {budget : Budget}
  {limit : PassLimit} {solution : Solution κ ν} {notes : List (Note κ)}

/-- A query finds items of the least fixed point only.  If it was not stopped, it finds
all of them, for its root and for every key that it covers. -/
theorem Tracks.solve {has : ν → ι → Prop} (hTracks : system.Tracks inside id has step)
    (hKnown : ∀ key value item, system.known key = some value →
      (has value item ↔ step.lfp key item))
    (hInside : inside root)
    (hSolve : system.solve budget limit root = (.ok solution, notes)) :
    (∀ item, has solution.value item → step.lfp root item) ∧
      (solution.converged = true →
        (∀ item, has solution.value item ↔ step.lfp root item) ∧
        ∀ key value, (key, value) ∈ solution.values →
          inside key ∧ ∀ item, has value item ↔ step.lfp key item) ∧
      (solution.converged = false → ∃ passes, .abandoned root passes ∈ notes) := by
  have hRespects := hTracks.respects fun key value item hKey =>
    (hKnown key value item hKey).mp
  have hLeast (key : κ) (value : ν) (item : ι) (_ : inside key)
      (hKey : system.known key = some value) := (hKnown key value item hKey).mpr
  obtain ⟨hRoot, hValues, hConverged, hStopped⟩ :=
    hRespects.solve (fun _ item hItem => absurd hItem (hTracks.bottom item)) hInside hSolve
  refine ⟨hRoot, fun hTrue => ?_, hStopped⟩
  obtain ⟨assignment, covered, hSolves, hValue, hEntries⟩ := hConverged hTrue
  constructor
  · intro item
    refine ⟨hRoot item, fun hItem => ?_⟩
    rw [hValue]
    exact hTracks.has_of_lfp hLeast hSolves hInside hItem
  · intro key value hEntry
    obtain ⟨hKeyInside, hKeySound⟩ := hValues key value hEntry
    obtain ⟨hKeyCovered, rfl⟩ := (hEntries key value).mp hEntry
    refine ⟨hKeyInside, fun item => ⟨hKeySound item, fun hItem => ?_⟩⟩
    -- What solves the equations from the root solves them from every covered key.
    have hFromKey : system.Solves id inside key assignment covered :=
      ⟨Or.inr hKeyCovered, hSolves.known, hSolves.bounded, hSolves.equation⟩
    exact hTracks.has_of_lfp hLeast hFromKey hKeyInside hItem

/-- A query with truth values over finitely many keys finds the least fixed point. -/
theorem Tracks.exists_solve {system : System κ Bool} {keys : List κ}
    {step : (κ → Unit → Prop) →o (κ → Unit → Prop)}
    (hTracks : system.Tracks inside id (fun value _ => value = true) step)
    (hKnown : ∀ key value, system.known key = some value →
      (value = true ↔ step.lfp key ()))
    (hKeys : ∀ key, inside key → key ∈ keys) (hInside : inside root)
    (hDepth : keys.length < budget.depth) (hPasses : keys.length < budget.passes) :
    ∃ solution notes, system.solve budget .unbounded root = (.ok solution, notes) ∧
      (solution.value = true ↔ step.lfp root ()) ∧
      ∀ key value, (key, value) ∈ solution.values →
        inside key ∧ (value = true ↔ step.lfp key ()) := by
  obtain ⟨solution, notes, hSolve, hConverged⟩ :=
    exists_solve_eq_ok_of_monotone hTracks.monotone hKeys hInside hDepth hPasses
  obtain ⟨-, hExact, -⟩ :=
    hTracks.solve (fun key value _ hKey => hKnown key value hKey) hInside hSolve
  obtain ⟨hRoot, hValues⟩ := hExact hConverged
  refine ⟨solution, notes, hSolve, hRoot (), ?_⟩
  intro key value hEntry
  obtain ⟨hKey, hValue⟩ := hValues key value hEntry
  exact ⟨hKey, hValue ()⟩

end System

end Fixpoint

end DerivativeParsing
