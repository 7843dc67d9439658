import DerivativeParsing.Analysis.Forest
import DerivativeParsing.Proofs.Fixpoint.Notes

namespace DerivativeParsing
namespace Grammar

/-!
# What the equations of a grammar report

None of the equations about nodes reports that a query was stopped.  The equation of
consumption reports what a query reports that it falls back on, but that query has no limit.
-/

open Fixpoint

variable {Λ : Lexicon} (grammar : Grammar Λ)

theorem quiet_inspect {ν : Type} (handle : Handle) :
    (grammar.inspect handle : Inquiry Handle ν (Node Λ)).Quiet := by
  unfold inspect
  split <;> exact trivial

theorem quiet_nullability (known : Memo Handle Bool) : (grammar.nullability known).Quiet := by
  intro handle
  refine Inquiry.quiet_bind (grammar.quiet_inspect handle) fun node => ?_
  cases node with
  | union left right => exact fun _ _ => trivial
  | sequence first second => exact fun _ _ => trivial
  | reduction inner reducer => exact Inquiry.quiet_value inner
  | delegate target =>
      cases target with
      | none => exact trivial
      | some target => exact Inquiry.quiet_value target
  | _ => exact trivial

theorem quiet_inhabitation (known : Memo Handle Bool) : (grammar.inhabitation known).Quiet := by
  intro handle
  refine Inquiry.quiet_bind (grammar.quiet_inspect handle) fun node => ?_
  cases node with
  | union left right => exact fun _ _ => trivial
  | sequence first second => exact fun _ _ => trivial
  | repetition inner => exact fun _ => trivial
  | reduction inner reducer => exact Inquiry.quiet_value inner
  | delegate target =>
      cases target with
      | none => exact trivial
      | some target => exact Inquiry.quiet_value target
  | _ => exact trivial

theorem quiet_emptyMatches (known : Memo Handle (Forest Λ.Token)) :
    (grammar.emptyMatches known).Quiet := by
  intro handle
  refine Inquiry.quiet_bind (grammar.quiet_inspect handle) fun node => ?_
  cases node with
  | union left right => exact fun _ _ => trivial
  | sequence first second => exact fun _ _ => trivial
  | repetition inner => exact fun _ => trivial
  | reduction inner reducer => exact fun _ => trivial
  | delegate target =>
      cases target with
      | none => exact trivial
      | some target => exact Inquiry.quiet_value target
  | _ => exact trivial

/-- An operand is looked up, or found by a query without a limit. -/
theorem quiet_inhabitedOperand (inhabited : Memo Handle Bool) (handle : Handle) :
    (grammar.inhabitedOperand .solving inhabited handle).Quiet := by
  unfold inhabitedOperand
  split
  · exact trivial
  · refine ⟨System.stops_solve_unbounded (grammar.quiet_inhabitation inhabited) _ _, ?_⟩
    split <;> exact trivial

theorem quiet_consumption (known inhabited : Memo Handle Bool) :
    (grammar.consumption known inhabited).Quiet := by
  intro handle
  refine Inquiry.quiet_bind (grammar.quiet_inspect handle) fun node => ?_
  cases node with
  | union left right => exact fun _ _ => trivial
  | sequence first second =>
      intro firstConsumes secondConsumes
      have hRest (decided : Bool) :
          (if decided then pure true
            else if secondConsumes then grammar.inhabitedOperand .solving inhabited first
            else pure false : Inquiry Handle Bool Bool).Quiet := by
        split
        · exact trivial
        · split
          · exact grammar.quiet_inhabitedOperand inhabited first
          · exact trivial
      cases firstConsumes with
      | false => exact hRest false
      | true =>
          have hBoth :=
            Inquiry.quiet_bind (grammar.quiet_inhabitedOperand inhabited second) hRest
          exact hBoth
  | repetition inner => exact Inquiry.quiet_value inner
  | reduction inner reducer => exact Inquiry.quiet_value inner
  | delegate target =>
      cases target with
      | none => exact trivial
      | some target => exact Inquiry.quiet_value target
  | _ => exact trivial

end Grammar

end DerivativeParsing
