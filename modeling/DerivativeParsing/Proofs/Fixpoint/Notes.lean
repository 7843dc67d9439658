import DerivativeParsing.Proofs.Fixpoint.Convergence

namespace DerivativeParsing

/-!
# What a solver reports

A solver reports that it was stopped exactly if it gives a solution that has not converged
(`System.solve_stops`), provided that no equation makes such a report of its own
(`System.Quiet`).  Without a limit it is never stopped (`System.stops_solve_unbounded`).
-/

namespace Fixpoint

variable {κ ν α β : Type}

/-- The root of a query that was stopped, if that is what a note says. -/
def Note.stoppedRoot : Note κ → Option κ
  | pass _ _ _ _ => none
  | abandoned root _ => some root

/-- The roots of the queries that were stopped, according to some notes. -/
def stops (notes : List (Note κ)) : List κ := notes.filterMap Note.stoppedRoot

theorem stops_append (notes notes' : List (Note κ)) :
    stops (notes ++ notes') = stops notes ++ stops notes' := List.filterMap_append

/-- An inquiry does not remark that a query was stopped. -/
def Inquiry.Quiet : Inquiry κ ν α → Prop
  | answer _ => True
  | fail _ => True
  | remark notes rest => stops notes = [] ∧ rest.Quiet
  | ask _ next => ∀ value, (next value).Quiet

/-- No equation remarks that a query was stopped. -/
def System.Quiet (system : System κ ν) : Prop := ∀ key, (system.equation key).Quiet

namespace Inquiry

theorem quiet_bind {inquiry : Inquiry κ ν α} {next : α → Inquiry κ ν β}
    (hQuiet : inquiry.Quiet) (hNext : ∀ result, (next result).Quiet) :
    (inquiry >>= next).Quiet := by
  change (inquiry.bind next).Quiet
  induction inquiry with
  | answer result => exact hNext result
  | fail fault => exact trivial
  | remark notes rest ih => exact ⟨hQuiet.1, ih hQuiet.2⟩
  | ask key reply ih => exact fun value => ih value (hQuiet value)

theorem quiet_value (key : κ) : (value key : Inquiry κ ν ν).Quiet := fun _ => trivial

end Inquiry

section Reports

variable [Ord κ]

/-- However a step of a solver ends, it has reported the given roots as stopped if it has
succeeded, and none if it has failed. -/
def Reports (action : Solving κ ν α) (roots : α → List κ) : Prop :=
  ∀ before, match action.run before with
    | .ok result after => stops after.notes = roots result ++ stops before.notes
    | .error _ after => stops after.notes = stops before.notes

/-- A step that reports no root as stopped. -/
def Silent (action : Solving κ ν α) : Prop := Reports action fun _ => []

theorem silent_pure (result : α) : Silent (pure result : Solving κ ν α) := fun _ => rfl

theorem silent_throw (fault : Fault κ) : Silent (throw fault : Solving κ ν α) := fun _ => rfl

theorem silent_get : Silent (get : Solving κ ν (Progress κ ν)) := fun _ => rfl

/-- A step that changes the progress and adds some notes. -/
theorem reports_modify {change : Progress κ ν → Progress κ ν} {roots : List κ}
    (hNotes : ∀ before, stops (change before).notes = roots ++ stops before.notes) :
    Reports (modify change : Solving κ ν Unit) fun _ => roots := hNotes

theorem Silent.bind {action : Solving κ ν α} {next : α → Solving κ ν β} {roots : β → List κ}
    (hFirst : Silent action) (hNext : ∀ result, Reports (next result) roots) :
    Reports (action >>= next) roots := by
  intro before
  have hAction := hFirst before
  rw [EStateM.run_bind]
  cases hRun : action.run before with
  | error fault middle =>
      rw [hRun] at hAction
      exact hAction
  | ok result middle =>
      rw [hRun] at hAction
      have hRest := hNext result middle
      dsimp only at hAction ⊢
      rw [List.nil_append] at hAction
      rw [← hAction]
      exact hRest

theorem Silent.run {reply : κ → Solving κ ν ν} {inquiry : Inquiry κ ν α}
    (hReply : ∀ key, Silent (reply key)) (hQuiet : inquiry.Quiet) :
    Silent (inquiry.run reply) := by
  induction inquiry with
  | answer result => exact silent_pure result
  | fail fault => exact silent_throw fault
  | remark notes rest ih =>
      refine Silent.bind (reports_modify fun before => ?_) fun _ => ih hQuiet.2
      rw [stops_append, hQuiet.1]
  | ask key next ih => exact (hReply key).bind fun value => ih value (hQuiet value)

end Reports

namespace System

variable [Ord κ] [DecidableEq ν] {system : System κ ν} {budget : Budget} {limit : PassLimit}
  {root : κ} {solution : Solution κ ν} {notes : List (Note κ)}

theorem silent_valueWithin (hQuiet : system.Quiet) (depth : Nat) (key : κ) :
    Silent (system.valueWithin depth key) := by
  induction depth generalizing key with
  | zero => exact silent_throw _
  | succ depth ih =>
      rw [valueWithin]
      split
      · exact silent_pure _
      · refine silent_get.bind fun progress => ?_
        split
        · exact silent_pure _
        · refine Silent.bind (reports_modify fun _ => rfl) fun _ => ?_
          refine Silent.bind (Silent.run ih (hQuiet key)) fun next => ?_
          exact Silent.bind (reports_modify fun _ => rfl) fun _ => silent_pure next

theorem silent_pass (hQuiet : system.Quiet) (depth : Nat) (root : κ) (number : Nat) :
    Silent (system.pass depth root number) := by
  refine Silent.bind (reports_modify fun _ => rfl) fun _ => ?_
  refine (silent_valueWithin hQuiet depth root).bind fun value => ?_
  exact Silent.bind (reports_modify fun _ => rfl) fun _ => silent_pure value

/-- The passes report their root as stopped exactly if they have not converged. -/
theorem reports_passesFrom (hQuiet : system.Quiet) (depth : Nat) (limit : PassLimit) (root : κ)
    (fuel number : Nat) :
    Reports (system.passesFrom depth limit root fuel number) fun solution =>
      if solution.converged then [] else [root] := by
  induction fuel generalizing number with
  | zero => exact fun _ => rfl
  | succ fuel ih =>
      refine (silent_pass hQuiet depth root number).bind fun value => ?_
      refine silent_get.bind fun progress => ?_
      split
      · split
        · exact fun _ => rfl
        · exact ih (number + 1)
      · exact fun _ => rfl

/-- A solver reports its root as stopped exactly if the solution has not converged. -/
theorem solve_stops (hQuiet : system.Quiet)
    (hSolve : system.solve budget limit root = (.ok solution, notes)) :
    stops notes = if solution.converged then [] else [root] := by
  obtain ⟨after, hRun, rfl⟩ := exists_run_of_solve hSolve
  have hReports := reports_passesFrom hQuiet budget.depth limit root budget.passes 1 {}
  rw [hRun] at hReports
  exact hReports.trans (List.append_nil _)

/-- Without a limit the passes go on until they converge. -/
theorem converged_of_unbounded
    (hSolve : system.solve budget .unbounded root = (.ok solution, notes)) :
    solution.converged = true := by
  obtain ⟨after, hRun, -⟩ := exists_run_of_solve hSolve
  obtain ⟨_, _, reached, -, -, -, hConverged, hStopped⟩ :=
    exists_last_pass (fun _ _ => True) (fun _ _ _ _ _ _ _ _ => trivial) _ _ trivial hRun
  rw [hConverged, Bool.not_eq_true', Bool.eq_false_iff]
  intro hChanged
  exact nomatch (hStopped hChanged).1

/-- Without a limit nothing is reported as stopped, whether or not there is a solution. -/
theorem stops_solve_unbounded (hQuiet : system.Quiet) (budget : Budget) (root : κ) :
    stops (system.solve budget .unbounded root).2 = [] := by
  cases hSolve : system.solve budget .unbounded root with
  | mk outcome notes =>
      cases outcome with
      | ok solution => rw [solve_stops hQuiet hSolve, converged_of_unbounded hSolve, if_pos rfl]
      | error fault =>
          have hReports := reports_passesFrom hQuiet budget.depth .unbounded root budget.passes 1 {}
          unfold solve at hSolve
          cases hRun : (system.passesFrom budget.depth .unbounded root budget.passes 1).run {} with
          | ok found after =>
              rw [hRun] at hSolve
              cases hSolve
          | error other after =>
              rw [hRun] at hReports hSolve
              cases hSolve
              exact hReports

end System

end Fixpoint

end DerivativeParsing
