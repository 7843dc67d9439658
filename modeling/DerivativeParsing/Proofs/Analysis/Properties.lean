import DerivativeParsing.Analysis.Basic
import DerivativeParsing.Proofs.Fixpoint.Tracking
import DerivativeParsing.Proofs.Grammar.Growth

namespace DerivativeParsing

/-!
# What the analyses of nodes decide

Each of the three systems of truth values tracks an operator on predicates of handles,
so a query about a valid node answers with the operator's least fixed point:

* `nullability` with the matches of the empty string (`nullability_tracks`,
  `emptyStep_lfp_iff`);
* `inhabitation` with `Inhabited`, which holds of every node that has a match
  (`inhabited_of_within`);
* `consumption` with `Consuming`, which holds of every node that has a match of another
  string than the empty one (`consuming_of_within`).

The converses of the last two facts need matchers that accept some token; derivation and
compaction do without them.
-/

open Fixpoint

namespace Fixpoint.Inquiry

variable {κ ν α β : Type}

@[simp]
theorem answer_bind (result : α) (next : α → Inquiry κ ν β) :
    (answer result >>= next) = next result := rfl

end Fixpoint.Inquiry

namespace Node

variable {Λ : Lexicon} {view : View}

/-- A match of the empty string is made of matches of the empty string. -/
theorem meaning_nil {part : Handle → Meaning Λ view} {node : Node Λ}
    {result : view.Result Λ} (hMatch : node.meaning part [] result) :
    node.meaning (fun handle string result => string = [] ∧ part handle string result)
      [] result := by
  cases node with
  | empty => exact hMatch.elim
  | eps forest => exact hMatch
  | token matcher => exact hMatch
  | union left right =>
      rcases hMatch with hLeft | hRight
      · exact Or.inl ⟨rfl, hLeft⟩
      · exact Or.inr ⟨rfl, hRight⟩
  | sequence first second =>
      obtain ⟨start, rest, left, right, hString, hLeft, hRight, hResult⟩ := hMatch
      obtain ⟨hStart, hRest⟩ := List.append_eq_nil_iff.mp hString.symm
      exact ⟨start, rest, left, right, hString, ⟨hStart, hLeft⟩, ⟨hRest, hRight⟩,
        hResult⟩
  | repetition inner => exact Meaning.iterated_nil.mpr (Meaning.iterated_nil.mp hMatch)
  | reduction inner reducer =>
      obtain ⟨given, hGiven, hResult⟩ := hMatch
      exact ⟨given, ⟨rfl, hGiven⟩, hResult⟩
  | delegate target =>
      cases target with
      | none => exact hMatch.elim
      | some target => exact ⟨rfl, hMatch⟩

/-- Whether a node accepts the empty string, given which of its children do. -/
def nullable (part : Handle → Prop) : Node Λ → Prop
  | empty => False
  | eps _ => True
  | token _ => False
  | union left right => part left ∨ part right
  | sequence first second => part first ∧ part second
  | repetition _ => True
  | reduction inner _ => part inner
  | delegate none => False
  | delegate (some target) => part target

theorem nullable_iff_meaning {part : Handle → Prop} {node : Node Λ} :
    node.nullable part ↔
      node.meaning (fun child string (_ : View.language.Result Λ) =>
        string = [] ∧ part child) [] () := by
  cases node with
  | empty => exact Iff.rfl
  | eps forest => exact ⟨fun _ => ⟨rfl, trivial⟩, fun _ => trivial⟩
  | token matcher =>
      constructor
      · exact False.elim
      · rintro ⟨_, hString, -⟩
        cases hString
  | union left right =>
      exact or_congr ⟨fun h => ⟨rfl, h⟩, And.right⟩ ⟨fun h => ⟨rfl, h⟩, And.right⟩
  | sequence first second =>
      constructor
      · rintro ⟨hFirst, hSecond⟩
        exact ⟨[], [], (), (), rfl, ⟨rfl, hFirst⟩, ⟨rfl, hSecond⟩, rfl⟩
      · rintro ⟨_, _, _, _, -, hFirst, hSecond, -⟩
        exact ⟨hFirst.2, hSecond.2⟩
  | repetition inner => exact ⟨fun _ => .stop trivial, fun _ => trivial⟩
  | reduction inner reducer =>
      constructor
      · exact fun h => ⟨(), ⟨rfl, h⟩, trivial⟩
      · rintro ⟨_, hInner, -⟩
        exact hInner.2
  | delegate target =>
      cases target with
      | none => exact Iff.rfl
      | some target => exact ⟨fun h => ⟨rfl, h⟩, And.right⟩

/-- Whether a node has a match if every matcher accepts some token, given which of its
children have one. -/
def inhabited (part : Handle → Prop) : Node Λ → Prop
  | empty => False
  | eps _ => True
  | token _ => True
  | union left right => part left ∨ part right
  | sequence first second => part first ∧ part second
  | repetition _ => True
  | reduction inner _ => part inner
  | delegate none => False
  | delegate (some target) => part target

/-- Whether a node has a match that is not empty if every matcher accepts some token,
given which of its children have one, and which have any match. -/
def consuming (inhabited part : Handle → Prop) : Node Λ → Prop
  | empty => False
  | eps _ => False
  | token _ => True
  | union left right => part left ∨ part right
  | sequence first second =>
      part first ∧ inhabited second ∨ part second ∧ inhabited first
  | repetition inner => part inner
  | reduction inner _ => part inner
  | delegate none => False
  | delegate (some target) => part target

theorem inhabited_mono {part part' : Handle → Prop} {node : Node Λ}
    (hPart : ∀ child ∈ node.children, part child → part' child)
    (hNode : node.inhabited part) : node.inhabited part' := by
  cases node with
  | union left right =>
      exact hNode.imp (hPart left (by simp [children])) (hPart right (by simp [children]))
  | sequence first second =>
      exact hNode.imp (hPart first (by simp [children])) (hPart second (by simp [children]))
  | reduction inner reducer => exact hPart inner (by simp [children]) hNode
  | delegate target =>
      cases target with
      | none => exact hNode
      | some target => exact hPart target (by simp [children]) hNode
  | _ => exact hNode

theorem consuming_mono {inhabited inhabited' part part' : Handle → Prop} {node : Node Λ}
    (hInhabited : ∀ child ∈ node.children, inhabited child → inhabited' child)
    (hPart : ∀ child ∈ node.children, part child → part' child)
    (hNode : node.consuming inhabited part) : node.consuming inhabited' part' := by
  cases node with
  | union left right =>
      exact hNode.imp (hPart left (by simp [children])) (hPart right (by simp [children]))
  | sequence first second =>
      have hFirst : first ∈ (sequence first second : Node Λ).children := by simp [children]
      have hSecond : second ∈ (sequence first second : Node Λ).children := by simp [children]
      exact hNode.imp (And.imp (hPart first hFirst) (hInhabited second hSecond))
        (And.imp (hPart second hSecond) (hInhabited first hFirst))
  | repetition inner => exact hPart inner (by simp [children]) hNode
  | reduction inner reducer => exact hPart inner (by simp [children]) hNode
  | delegate target =>
      cases target with
      | none => exact hNode
      | some target => exact hPart target (by simp [children]) hNode
  | _ => exact hNode

end Node

namespace Grammar

variable {Λ : Lexicon} {grammar : Grammar Λ} {handle : Handle} {node : Node Λ}
  {view : View}

section Operators

/-- The matches of the empty string, one layer of nodes at a time. -/
def emptyStep (grammar : Grammar Λ) (view : View) :
    (Handle → view.Result Λ → Prop) →o (Handle → view.Result Λ → Prop) where
  toFun part handle result := ∃ node, grammar.get? handle = some node ∧
    node.meaning (fun child string result => string = [] ∧ part child result) [] result
  monotone' part part' hPart := by
    rintro handle result ⟨node, hNode, hMatch⟩
    refine ⟨node, hNode, Node.meaning_mono (fun child _ => ?_) _ _ hMatch⟩
    exact fun string result => And.imp_right (hPart child result)

/-- The least fixed point of the layers is the meaning. -/
theorem emptyStep_lfp_iff {result : view.Result Λ} :
    (grammar.emptyStep view).lfp handle result ↔ grammar.meaning view handle [] result := by
  constructor
  · refine fun hLeast => (grammar.emptyStep view).lfp_le
      (a := fun handle result => grammar.meaning view handle [] result) ?_ handle result
      hLeast
    rintro handle result ⟨node, hNode, hMatch⟩
    rw [meaning_eq hNode]
    refine Node.meaning_mono (fun child _ => ?_) _ _ hMatch
    rintro string result ⟨rfl, hPart⟩
    exact hPart
  · rintro ⟨depth, hMatch⟩
    induction depth generalizing handle result with
    | zero => exact hMatch.elim
    | succ depth ih =>
        obtain ⟨node, hNode, hMatch⟩ := hMatch
        rw [System.lfp_iff_step]
        refine ⟨node, hNode, Node.meaning_mono (fun child _ => ?_) _ _
          (Node.meaning_nil hMatch)⟩
        rintro string result ⟨rfl, hPart⟩
        exact ⟨rfl, ih hPart⟩

/-- The least fixed point of the layers in the view of strings is nullability. -/
theorem nullable_lfp_iff :
    (grammar.emptyStep .language).lfp handle () ↔
      grammar.meaning .language handle [] () :=
  emptyStep_lfp_iff

/-- Having a match, one layer of nodes at a time. -/
def inhabitedStep (grammar : Grammar Λ) : (Handle → Unit → Prop) →o (Handle → Unit → Prop) where
  toFun part handle _ := ∃ node, grammar.get? handle = some node ∧
    node.inhabited fun child => part child ()
  monotone' part part' hPart := by
    rintro handle _ ⟨node, hNode, hInhabited⟩
    exact ⟨node, hNode, Node.inhabited_mono (fun child _ => hPart child ()) hInhabited⟩

/-- The node has a match if every matcher accepts some token. -/
def Inhabited (grammar : Grammar Λ) (handle : Handle) : Prop :=
  grammar.inhabitedStep.lfp handle ()

/-- Having a match that is not empty, one layer of nodes at a time. -/
def consumingStep (grammar : Grammar Λ) : (Handle → Unit → Prop) →o (Handle → Unit → Prop) where
  toFun part handle _ := ∃ node, grammar.get? handle = some node ∧
    node.consuming grammar.Inhabited fun child => part child ()
  monotone' part part' hPart := by
    rintro handle _ ⟨node, hNode, hConsuming⟩
    exact ⟨node, hNode, Node.consuming_mono (fun _ _ => id) (fun child _ => hPart child ())
      hConsuming⟩

/-- The node has a match that is not empty if every matcher accepts some token. -/
def Consuming (grammar : Grammar Λ) (handle : Handle) : Prop :=
  grammar.consumingStep.lfp handle ()

/-- Whether a node is inhabited depends on what it reaches only. -/
theorem Agrees.inhabited {grammar' : Grammar Λ} (hAgrees : grammar.Agrees grammar' handle)
    (hInhabited : grammar.Inhabited handle) : grammar'.Inhabited handle := by
  refine grammar.inhabitedStep.lfp_le
    (a := fun handle _ => grammar.Agrees grammar' handle → grammar'.Inhabited handle)
    ?_ handle () hInhabited hAgrees
  rintro handle _ ⟨node, hNode, hPart⟩ hAgrees
  rw [Inhabited, System.lfp_iff_step]
  refine ⟨node, (hAgrees handle (Reaches.refl handle)).trans hNode, ?_⟩
  refine Node.inhabited_mono (fun child hChild hLeast => ?_) hPart
  exact hLeast (hAgrees.mono (reaches_child hNode hChild))

/-- Whether a node is consuming depends on what it reaches only. -/
theorem Agrees.consuming {grammar' : Grammar Λ} (hAgrees : grammar.Agrees grammar' handle)
    (hConsuming : grammar.Consuming handle) : grammar'.Consuming handle := by
  refine grammar.consumingStep.lfp_le
    (a := fun handle _ => grammar.Agrees grammar' handle → grammar'.Consuming handle)
    ?_ handle () hConsuming hAgrees
  rintro handle _ ⟨node, hNode, hPart⟩ hAgrees
  have hChild (child : Handle) (hMem : child ∈ node.children) :
      grammar.Agrees grammar' child := hAgrees.mono (reaches_child hNode hMem)
  rw [Consuming, System.lfp_iff_step]
  refine ⟨node, (hAgrees handle (Reaches.refl handle)).trans hNode, ?_⟩
  exact Node.consuming_mono (fun child hMem hOperand => (hChild child hMem).inhabited hOperand)
    (fun child hMem hLeast => hLeast (hChild child hMem)) hPart

/-- A node with a match is inhabited. -/
theorem inhabited_of_within {depth : Nat} {string : List Λ.Token} {result : view.Result Λ}
    (hMatch : grammar.within view depth handle string result) :
    grammar.Inhabited handle := by
  induction depth generalizing handle string result with
  | zero => exact hMatch.elim
  | succ depth ih =>
      obtain ⟨node, hNode, hMatch⟩ := hMatch
      rw [Inhabited, System.lfp_iff_step]
      refine ⟨node, hNode, ?_⟩
      cases node with
      | empty => exact hMatch
      | eps forest => exact trivial
      | token matcher => exact trivial
      | union left right => exact hMatch.imp ih ih
      | sequence first second =>
          obtain ⟨_, _, _, _, -, hFirst, hSecond, -⟩ := hMatch
          exact ⟨ih hFirst, ih hSecond⟩
      | repetition inner => exact trivial
      | reduction inner reducer =>
          obtain ⟨_, hInner, -⟩ := hMatch
          exact ih hInner
      | delegate target =>
          cases target with
          | none => exact hMatch
          | some target => exact ih hMatch

/-- A node with a match of a string that is not empty is consuming. -/
theorem consuming_of_within {depth : Nat} {string : List Λ.Token} {result : view.Result Λ}
    (hMatch : grammar.within view depth handle string result) (hString : string ≠ []) :
    grammar.Consuming handle := by
  induction depth generalizing handle string result with
  | zero => exact hMatch.elim
  | succ depth ih =>
      obtain ⟨node, hNode, hMatch⟩ := hMatch
      rw [Consuming, System.lfp_iff_step]
      refine ⟨node, hNode, ?_⟩
      cases node with
      | empty => exact hMatch
      | eps forest => exact absurd hMatch.1 hString
      | token matcher => exact trivial
      | union left right =>
          exact hMatch.imp (fun h => ih h hString) (fun h => ih h hString)
      | sequence first second =>
          obtain ⟨start, rest, _, _, rfl, hFirst, hSecond, -⟩ := hMatch
          by_cases hStart : start = []
          · have hRest : rest ≠ [] := fun hRest => hString (by rw [hStart, hRest]; rfl)
            exact Or.inr ⟨ih hSecond hRest, inhabited_of_within hFirst⟩
          · exact Or.inl ⟨ih hFirst hStart, inhabited_of_within hSecond⟩
      | repetition inner =>
          change (grammar.within view depth inner).iterated string result at hMatch
          cases hMatch with
          | stop _ => exact absurd rfl hString
          | more hStart hInner _ _ => exact ih hInner hStart
      | reduction inner reducer =>
          obtain ⟨_, hInner, -⟩ := hMatch
          exact ih hInner hString
      | delegate target =>
          cases target with
          | none => exact hMatch
          | some target => exact ih hMatch hString

end Operators

section Tracking

/-- An inquiry about a live node goes on with the node. -/
theorem inspect_of_get? {ν : Type} (hNode : grammar.get? handle = some node) :
    (grammar.inspect handle : Inquiry Handle ν (Node Λ)) = .answer node := by
  rw [inspect, hNode]

/-- A layer of a live node is the step of an operator that looks the node up first. -/
theorem layer_iff (layer : Node Λ → Prop) (hNode : grammar.get? handle = some node) :
    layer node ↔ ∃ node, grammar.get? handle = some node ∧ layer node := by
  constructor
  · exact fun hLayer => ⟨node, hNode, hLayer⟩
  · rintro ⟨other, hOther, hLayer⟩
    obtain rfl := Option.some.inj (hNode.symm.trans hOther)
    exact hLayer

theorem nullableEquation_answers {inside : Handle → Prop}
    (hNode : grammar.get? handle = some node)
    (hInside : ∀ child ∈ node.children, inside child) :
    (grammar.nullableEquation handle).Answers inside node.nullable := by
  simp only [nullableEquation, inspect_of_get? hNode, Inquiry.answer_bind]
  cases node with
  | empty => exact Inquiry.answers_false
  | eps forest => exact Inquiry.answers_true
  | token matcher => exact Inquiry.answers_false
  | union left right =>
      exact Inquiry.answers_or (hInside left (by simp [Node.children]))
        (hInside right (by simp [Node.children]))
  | sequence first second =>
      exact Inquiry.answers_and (hInside first (by simp [Node.children]))
        (hInside second (by simp [Node.children]))
  | repetition inner => exact Inquiry.answers_true
  | reduction inner reducer =>
      exact Inquiry.answers_value (hInside inner (by simp [Node.children]))
  | delegate target =>
      cases target with
      | none => exact Inquiry.answers_false
      | some target => exact Inquiry.answers_value (hInside target (by simp [Node.children]))

/-- The equation of nullability asks for valid nodes only, and its value is that of one
layer. -/
theorem nullability_tracks (known : Memo Handle Bool) :
    (grammar.nullability known).Tracks grammar.Valid id (fun value _ => value = true)
      (grammar.emptyStep .language) := by
  refine System.tracks_of_answers rfl fun handle hValid => ?_
  obtain ⟨node, hNode, -⟩ := hValid.get?
  have hAnswers := nullableEquation_answers hNode fun _ => hValid.child hNode
  refine hAnswers.congr fun part => Node.nullable_iff_meaning.trans ?_
  exact layer_iff (fun node => node.meaning (fun child string (_ : View.language.Result Λ) =>
    string = [] ∧ part child) [] ()) hNode

theorem inhabitedEquation_answers {inside : Handle → Prop}
    (hNode : grammar.get? handle = some node)
    (hInside : ∀ child ∈ node.children, inside child) :
    (grammar.inhabitedEquation handle).Answers inside node.inhabited := by
  simp only [inhabitedEquation, inspect_of_get? hNode, Inquiry.answer_bind]
  cases node with
  | empty => exact Inquiry.answers_false
  | eps forest => exact Inquiry.answers_true
  | token matcher => exact Inquiry.answers_true
  | union left right =>
      exact Inquiry.answers_or (hInside left (by simp [Node.children]))
        (hInside right (by simp [Node.children]))
  | sequence first second =>
      exact Inquiry.answers_and (hInside first (by simp [Node.children]))
        (hInside second (by simp [Node.children]))
  | repetition inner =>
      -- The inner node is asked for, and its value does not matter.
      have hInner : inside inner := hInside inner (by simp [Node.children])
      exact ⟨⟨hInner, fun _ => trivial⟩, fun _ _ => trivial, fun _ _ _ _ => rfl⟩
  | reduction inner reducer =>
      exact Inquiry.answers_value (hInside inner (by simp [Node.children]))
  | delegate target =>
      cases target with
      | none => exact Inquiry.answers_false
      | some target => exact Inquiry.answers_value (hInside target (by simp [Node.children]))

/-- The equation of inhabitation asks for valid nodes only, and its value is that of one
layer. -/
theorem inhabitation_tracks (known : Memo Handle Bool) :
    (grammar.inhabitation known).Tracks grammar.Valid id (fun value _ => value = true)
      grammar.inhabitedStep := by
  refine System.tracks_of_answers rfl fun handle hValid => ?_
  obtain ⟨node, hNode, -⟩ := hValid.get?
  have hAnswers := inhabitedEquation_answers hNode fun _ => hValid.child hNode
  exact hAnswers.congr fun part => layer_iff (Node.inhabited part) hNode

/-- A query with truth values about a valid node is solved within the grammar's
budget, and finds the least fixed point. -/
theorem exists_solve_of_tracks {system : System Handle Bool}
    {step : (Handle → Unit → Prop) →o (Handle → Unit → Prop)}
    (hTracks : system.Tracks grammar.Valid id (fun value _ => value = true) step)
    (hKnown : ∀ key value, system.known key = some value →
      (value = true ↔ step.lfp key ()))
    (hValid : grammar.Valid handle) :
    ∃ solution notes,
      system.solve grammar.budget .unbounded handle = (.ok solution, notes) ∧
      (solution.value = true ↔ step.lfp handle ()) ∧
      ∀ key value, (key, value) ∈ solution.values →
        grammar.Valid key ∧ (value = true ↔ step.lfp key ()) := by
  have hLength := grammar.length_handles_le
  have hBudget : grammar.handles.length < grammar.capacity + 2 := by omega
  exact hTracks.exists_solve hKnown (fun _ h => h.mem_handles) hValid hBudget hBudget

/-- An operand of a sequence is inhabited or not, whether the table knows it or it has to
be solved for on the spot. -/
theorem exists_inhabitedOperand {inhabited : Memo Handle Bool}
    (hTable : ∀ handle value, inhabited.peek? handle = some value →
      (value = true ↔ grammar.Inhabited handle))
    (hValid : grammar.Valid handle) :
    ∃ value, (value = true ↔ grammar.Inhabited handle) ∧
      (∀ seen, (grammar.inhabitedOperand .solving inhabited handle).eval seen = .ok value) ∧
      (∀ inside, (grammar.inhabitedOperand .solving inhabited handle).Safe inside) := by
  unfold inhabitedOperand Fallback.solving
  cases hPeek : inhabited.peek? handle with
  | some value => exact ⟨value, hTable handle value hPeek, fun _ => rfl, fun _ => trivial⟩
  | none =>
      obtain ⟨solution, notes, hSolve, hValue, -⟩ :=
        exists_solve_of_tracks (inhabitation_tracks inhabited) hTable hValid
      refine ⟨solution.value, hValue, ?_, ?_⟩
      · intro seen
        simp only [System.leastFixedPoint, hSolve]
        rfl
      · intro inside
        simp only [System.leastFixedPoint, hSolve]
        exact trivial

/-- The value of the equation of consumption at a sequence, given which of its operands
are inhabited. -/
theorem eval_consumingEquation_sequence {inhabited : Memo Handle Bool}
    {first second : Handle} {inFirst inSecond : Bool}
    (hNode : grammar.get? handle = some (.sequence first second)) (seen : Handle → Bool)
    (hFirst : ∀ seen, (grammar.inhabitedOperand .solving inhabited first).eval seen = .ok inFirst)
    (hSecond : ∀ seen,
      (grammar.inhabitedOperand .solving inhabited second).eval seen = .ok inSecond) :
    (grammar.consumingEquation .solving inhabited handle).eval seen =
      .ok (seen first && inSecond || seen second && inFirst) := by
  simp only [consumingEquation, inspect_of_get? hNode, Inquiry.answer_bind,
    Inquiry.eval_bind, Inquiry.eval_value, Except.bind]
  cases seen first with
  | false =>
      simp only [Bool.false_eq_true, if_false, Bool.false_and, Bool.false_or]
      cases seen second with
      | false => rfl
      | true => exact hFirst seen
  | true =>
      simp only [if_true, Inquiry.eval_bind, hSecond seen, Except.bind, Bool.true_and]
      cases inSecond with
      | true => rfl
      | false =>
          simp only [Bool.false_eq_true, if_false, Bool.false_or]
          cases seen second with
          | false => rfl
          | true => exact hFirst seen

/-- The equation of consumption at a sequence asks for both operands, and decides
whether one of them is consuming and the other inhabited. -/
theorem consumingEquation_answers_sequence {inhabited : Memo Handle Bool}
    {first second : Handle} (hNode : grammar.get? handle = some (.sequence first second))
    (hTable : ∀ handle value, inhabited.peek? handle = some value →
      (value = true ↔ grammar.Inhabited handle))
    (hFirstValid : grammar.Valid first) (hSecondValid : grammar.Valid second) :
    (grammar.consumingEquation .solving inhabited handle).Answers grammar.Valid
      ((Node.sequence first second : Node Λ).consuming grammar.Inhabited) := by
  obtain ⟨inFirst, hInFirst, hFirst, hFirstSafe⟩ :=
    exists_inhabitedOperand hTable hFirstValid
  obtain ⟨inSecond, hInSecond, hSecond, hSecondSafe⟩ :=
    exists_inhabitedOperand hTable hSecondValid
  have hValue (seen : Handle → Bool) :=
    eval_consumingEquation_sequence hNode seen hFirst hSecond
  refine ⟨?_, fun seen hEval => ?_, fun seen part hAsks hPart => ?_⟩
  · simp only [consumingEquation, inspect_of_get? hNode, Inquiry.answer_bind]
    refine ⟨hFirstValid, fun firstConsumes => ⟨hSecondValid, fun secondConsumes => ?_⟩⟩
    have hRest (decided : Bool) :
        (if decided then pure true
          else if secondConsumes then grammar.inhabitedOperand .solving inhabited first
          else pure false : Inquiry Handle Bool Bool).Safe grammar.Valid := by
      split
      · exact trivial
      · split
        · exact hFirstSafe _
        · exact trivial
    cases firstConsumes with
    | false => exact hRest false
    | true =>
        have hBoth := Inquiry.safe_bind (hSecondSafe grammar.Valid) hRest
        exact hBoth
  · rw [hValue seen, Except.ok.injEq, Bool.or_eq_true_iff, Bool.and_eq_true_iff,
      Bool.and_eq_true_iff, hInFirst, hInSecond] at hEval
    exact hEval
  · have hBoth : seen first = true ∧ inSecond = true ∨ seen second = true ∧ inFirst = true := by
      rw [hInFirst, hInSecond]
      simp only [consumingEquation, inspect_of_get? hNode, Inquiry.answer_bind] at hAsks
      exact hPart.imp (And.imp_left (hAsks first (Or.inl rfl)))
        (And.imp_left (hAsks second (Or.inr (Or.inl rfl))))
    rw [hValue seen, Except.ok.injEq, Bool.or_eq_true_iff, Bool.and_eq_true_iff,
      Bool.and_eq_true_iff]
    exact hBoth

theorem consumingEquation_answers {inhabited : Memo Handle Bool}
    (hNode : grammar.get? handle = some node)
    (hTable : ∀ handle value, inhabited.peek? handle = some value →
      (value = true ↔ grammar.Inhabited handle))
    (hInside : ∀ child ∈ node.children, grammar.Valid child) :
    (grammar.consumingEquation .solving inhabited handle).Answers grammar.Valid
      (node.consuming grammar.Inhabited) := by
  cases node with
  | sequence first second =>
      exact consumingEquation_answers_sequence hNode hTable
        (hInside first (by simp [Node.children])) (hInside second (by simp [Node.children]))
  | union left right =>
      simp only [consumingEquation, inspect_of_get? hNode, Inquiry.answer_bind]
      exact Inquiry.answers_or (hInside left (by simp [Node.children]))
        (hInside right (by simp [Node.children]))
  | token matcher =>
      simp only [consumingEquation, inspect_of_get? hNode, Inquiry.answer_bind]
      exact Inquiry.answers_true
  | empty =>
      simp only [consumingEquation, inspect_of_get? hNode, Inquiry.answer_bind]
      exact Inquiry.answers_false
  | eps forest =>
      simp only [consumingEquation, inspect_of_get? hNode, Inquiry.answer_bind]
      exact Inquiry.answers_false
  | repetition inner =>
      simp only [consumingEquation, inspect_of_get? hNode, Inquiry.answer_bind]
      exact Inquiry.answers_value (hInside inner (by simp [Node.children]))
  | reduction inner reducer =>
      simp only [consumingEquation, inspect_of_get? hNode, Inquiry.answer_bind]
      exact Inquiry.answers_value (hInside inner (by simp [Node.children]))
  | delegate target =>
      simp only [consumingEquation, inspect_of_get? hNode, Inquiry.answer_bind]
      cases target with
      | none => exact Inquiry.answers_false
      | some target => exact Inquiry.answers_value (hInside target (by simp [Node.children]))

/-- The equation of consumption asks for valid nodes only, and its value is that of one
layer, if the table of inhabited nodes is right. -/
theorem consumption_tracks (known : Memo Handle Bool) {inhabited : Memo Handle Bool}
    (hTable : ∀ handle value, inhabited.peek? handle = some value →
      (value = true ↔ grammar.Inhabited handle)) :
    (grammar.consumption known inhabited).Tracks grammar.Valid id
      (fun value _ => value = true) grammar.consumingStep := by
  refine System.tracks_of_answers rfl fun handle hValid => ?_
  obtain ⟨node, hNode, -⟩ := hValid.get?
  have hAnswers := consumingEquation_answers hNode hTable fun _ => hValid.child hNode
  exact hAnswers.congr fun part => layer_iff (Node.consuming grammar.Inhabited part) hNode

end Tracking

end Grammar

end DerivativeParsing
