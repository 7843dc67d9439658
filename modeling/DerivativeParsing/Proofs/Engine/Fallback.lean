import DerivativeParsing.Proofs.Engine.Survey
import DerivativeParsing.Proofs.Independence

namespace DerivativeParsing

/-!
# What consumption asks of inhabitation

The equation of consumption looks up whether an operand is inhabited, and comes to its
fallback if the table does not know.  About nodes that a table surveys the equations are the
same with every fallback (`Grammar.Surveyed.agrees_consumption`).
-/

open Fixpoint

namespace Grammar

variable {Λ : Lexicon} {grammar : Grammar Λ} {inhabited : Memo Handle Bool}
  {handle : Handle} {node : Node Λ}

/-- The equation of consumption has no use for its fallback, and asks for the children only,
if the table knows them. -/
theorem consumingEquation_eq_solving (fallback : Fallback Λ)
    (hNode : grammar.get? handle = some node)
    (hKnown : ∀ child ∈ node.children, inhabited.contains child = true) :
    grammar.consumingEquation fallback inhabited handle =
        grammar.consumingEquation .solving inhabited handle ∧
      (grammar.consumingEquation .solving inhabited handle).Stays
        fun child => inhabited.contains child = true := by
  simp only [consumingEquation, inspect_of_get? hNode, Inquiry.answer_bind]
  cases node with
  | empty => exact ⟨rfl, trivial⟩
  | eps forest => exact ⟨rfl, trivial⟩
  | token matcher => exact ⟨rfl, trivial⟩
  | union left right =>
      exact ⟨rfl, hKnown left (by simp [Node.children]), fun _ =>
        ⟨hKnown right (by simp [Node.children]), fun _ => trivial⟩⟩
  | sequence first second =>
      -- The table knows both operands, so neither is left to the fallback.
      have hFirst := hKnown first (by simp [Node.children])
      have hSecond := hKnown second (by simp [Node.children])
      obtain ⟨inFirst, hInFirst⟩ := Option.ne_none_iff_exists'.mp (Memo.contains_iff.mp hFirst)
      obtain ⟨inSecond, hInSecond⟩ :=
        Option.ne_none_iff_exists'.mp (Memo.contains_iff.mp hSecond)
      simp only [inhabitedOperand, hInFirst, hInSecond]
      refine ⟨trivial, hFirst, fun firstConsumes => ⟨hSecond, fun secondConsumes => ?_⟩⟩
      cases firstConsumes <;> cases secondConsumes <;> cases inSecond <;> exact trivial
  | repetition inner => exact ⟨rfl, hKnown inner (by simp [Node.children]), fun _ => trivial⟩
  | reduction inner reducer =>
      exact ⟨rfl, hKnown inner (by simp [Node.children]), fun _ => trivial⟩
  | delegate target =>
      cases target with
      | none => exact ⟨rfl, trivial⟩
      | some target =>
          exact ⟨rfl, hKnown target (by simp [Node.children]), fun _ => trivial⟩

/-- About what the table surveys the equations are the same with every fallback. -/
theorem Surveyed.agrees_consumption (hSurveyed : grammar.Surveyed inhabited)
    (fallback : Fallback Λ) (known : Memo Handle Bool) :
    System.Agrees (fun handle => inhabited.contains handle = true)
      (grammar.consumption known inhabited)
      (grammar.consumptionOr fallback known inhabited) := by
  have hEquation (handle : Handle) (hHandle : inhabited.contains handle = true) :=
    let ⟨hValid, hReached⟩ := hSurveyed handle hHandle
    let ⟨node, hNode, _⟩ := hValid.get?
    consumingEquation_eq_solving fallback hNode fun child hChild =>
      hReached child (reaches_child hNode hChild)
  exact ⟨rfl, fun _ _ => rfl, fun handle hHandle => (hEquation handle hHandle).1,
    fun handle hHandle => (hEquation handle hHandle).2⟩

end Grammar

end DerivativeParsing
