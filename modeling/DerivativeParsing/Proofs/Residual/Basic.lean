import DerivativeParsing.Proofs.Grammar.Growth

namespace DerivativeParsing

/-!
# Residuals

A residual of a node by a word is a node for what may follow the word: derivatives are
residuals by one token, compacted nodes are residuals by none.  `Residual` relates a node
of one grammar to a residual in another, so that it survives growth and collection, and
residuals compose along the tokens of a run (`Residual.trans`).

The language of a residual is exact.  Its trees are sound, and complete as long as no
forest that went into it was cut short.

A plan is an expression for a residual, made of nodes of the grammar that stay whole and
of residuals of other nodes.  `Unfolds` says that a plan is right for a node: it means
what is left of the node, one layer of the node at a time.
-/

/-- What a view shows is exact: strings always, trees under a condition. -/
def View.Exact (exact : Prop) : View → Prop
  | language => True
  | trees => exact

theorem View.Exact.mono {exact exact' : Prop} (hExact : exact' → exact) {view : View}
    (hView : view.Exact exact') : view.Exact exact := by
  cases view with
  | language => exact trivial
  | trees => exact hExact hView

namespace Grammar

variable {Λ : Lexicon} {exact exact' : Prop}
  {grammar grammar' first middle last : Grammar Λ} {word word' : List Λ.Token}
  {node result between : Handle}

/-- A node of a later grammar stands for what a node leaves after a word. -/
structure Residual (exact : Prop) (grammar grammar' : Grammar Λ) (word : List Λ.Token)
    (node result : Handle) : Prop where
  valid : grammar'.Valid result
  sound : ∀ view, grammar'.meaning view result ≤
    Meaning.after word (grammar.meaning view node)
  complete : ∀ view, view.Exact exact →
    Meaning.after word (grammar.meaning view node) ≤ grammar'.meaning view result
  fruitful : grammar.Fruitful node → grammar'.Fruitful result
  guarded : grammar.Guarded node → grammar'.Guarded result

/-- A valid node is its own residual by the empty word. -/
theorem Residual.refl (hValid : grammar.Valid node) :
    Residual exact grammar grammar [] node node where
  valid := hValid
  sound _ := le_refl _
  complete _ _ := le_refl _
  fruitful := id
  guarded := id

theorem Residual.mono (hResidual : Residual exact grammar grammar' word node result)
    (hExact : exact' → exact) : Residual exact' grammar grammar' word node result :=
  { hResidual with complete := fun view hView => hResidual.complete view (hView.mono hExact) }

/-- A residual of a residual is a residual by both words. -/
theorem Residual.trans (hFirst : Residual exact first middle word node between)
    (hSecond : Residual exact middle last word' between result) :
    Residual exact first last (word ++ word') node result where
  valid := hSecond.valid
  sound view string tree hMatch := by
    have hBetween := hFirst.sound view _ _ (hSecond.sound view string tree hMatch)
    rw [Meaning.after, List.append_assoc]
    exact hBetween
  complete view hView string tree hMatch := by
    rw [Meaning.after, List.append_assoc] at hMatch
    exact hSecond.complete view hView _ _ (hFirst.complete view hView _ _ hMatch)
  fruitful hFruitful := hSecond.fruitful (hFirst.fruitful hFruitful)
  guarded hGuarded := hSecond.guarded (hFirst.guarded hGuarded)

/-- A residual stays one where the later grammar agrees about it. -/
theorem Residual.agrees_result
    (hResidual : Residual exact grammar middle word node result)
    (hAgrees : middle.Agrees last result) :
    Residual exact grammar last word node result where
  valid := hAgrees.valid hResidual.valid
  sound view := by
    rw [hAgrees.meaning_eq]
    exact hResidual.sound view
  complete view hView := by
    rw [hAgrees.meaning_eq]
    exact hResidual.complete view hView
  fruitful hFruitful := hAgrees.fruitful (hResidual.fruitful hFruitful)
  guarded hGuarded := hAgrees.guarded (hResidual.guarded hGuarded)

/-- A residual stays one where the earlier grammar agrees about the node. -/
theorem Residual.agrees_node (hResidual : Residual exact first last word node result)
    (hAgrees : first.Agrees middle node) :
    Residual exact middle last word node result where
  valid := hResidual.valid
  sound view := by
    rw [hAgrees.meaning_eq]
    exact hResidual.sound view
  complete view hView := by
    rw [hAgrees.meaning_eq]
    exact hResidual.complete view hView
  fruitful hFruitful := hResidual.fruitful (hAgrees.symm.fruitful hFruitful)
  guarded hGuarded := hResidual.guarded (hAgrees.symm.guarded hGuarded)

section Strings

variable {string : List Λ.Token} {tree : Tree Λ.Token}
  (hResidual : Residual exact grammar grammar' word node result)

include hResidual

/-- A residual accepts what the node accepts after the word. -/
theorem Residual.accepts_iff :
    grammar'.Accepts result string ↔ grammar.Accepts node (word ++ string) := by
  rw [Grammar.accepts_iff, Grammar.accepts_iff]
  exact ⟨hResidual.sound .language string (), hResidual.complete .language trivial string ()⟩

/-- An exact residual parses what the node parses after the word, into the same trees. -/
theorem Residual.parses_iff (hExact : exact) :
    grammar'.Parses result string tree ↔ grammar.Parses node (word ++ string) tree := by
  rw [Grammar.parses_iff, Grammar.parses_iff]
  exact ⟨hResidual.sound .trees string tree, hResidual.complete .trees hExact string tree⟩

end Strings

end Grammar

/-- An expression for a residual. -/
inductive Plan (Λ : Lexicon) where
  /-- What another node leaves after the same word. -/
  | residual (node : Handle)
  /-- A node as it is. -/
  | whole (node : Handle)
  | empty
  | eps (forest : Forest Λ.Token)
  | union (left right : Plan Λ)
  | sequence (first second : Plan Λ)
  | repetition (inner : Plan Λ)
  | reduction (inner : Plan Λ) (reducer : Reducer Λ)

namespace Plan

variable {Λ : Lexicon} {view : View} {grammar : Grammar Λ}

/-- The meaning of a plan, given those of whole nodes and of residuals. -/
def meaning (whole residual : Handle → Meaning Λ view) : Plan Λ → Meaning Λ view
  | .residual node => residual node
  | .whole node => whole node
  | empty => Meaning.none
  | eps forest => Meaning.eps forest
  | union left right => Meaning.union (left.meaning whole residual) (right.meaning whole residual)
  | sequence first second =>
      Meaning.sequence (first.meaning whole residual) (second.meaning whole residual)
  | repetition inner => Meaning.iterated (inner.meaning whole residual)
  | reduction inner reducer => Meaning.reduced (inner.meaning whole residual) reducer

/-- No forest that a plan holds, or that its nodes reach, is empty. -/
def Fruitful (grammar : Grammar Λ) : Plan Λ → Prop
  | residual node => grammar.Fruitful node
  | whole node => grammar.Fruitful node
  | empty => True
  | eps forest => ∃ tree, tree ∈ forest
  | union left right => left.Fruitful grammar ∧ right.Fruitful grammar
  | sequence first second => first.Fruitful grammar ∧ second.Fruitful grammar
  | repetition inner => inner.Fruitful grammar
  | reduction inner reducer => inner.Fruitful grammar ∧ reducer.Fruitful

/-- The nodes of a plan are guarded. -/
def Guarded (grammar : Grammar Λ) : Plan Λ → Prop
  | residual node => grammar.Guarded node
  | whole node => grammar.Guarded node
  | empty => True
  | eps _ => True
  | union left right => left.Guarded grammar ∧ right.Guarded grammar
  | sequence first second => first.Guarded grammar ∧ second.Guarded grammar
  | repetition inner => inner.Guarded grammar
  | reduction inner _ => inner.Guarded grammar

end Plan

namespace Grammar

variable {Λ : Lexicon} {exact exact' : Prop} {grammar : Grammar Λ} {word : List Λ.Token}
  {node : Handle} {plan : Plan Λ}

/-- A plan means what a node leaves after a word.  For the converse a match of the node
is taken apart, so the residuals in the plan have matches of a smaller depth. -/
structure Unfolds (exact : Prop) (grammar : Grammar Λ) (word : List Λ.Token)
    (node : Handle) (plan : Plan Λ) : Prop where
  sound : ∀ view,
    plan.meaning (grammar.meaning view)
        (fun other => Meaning.after word (grammar.meaning view other)) ≤
      Meaning.after word (grammar.meaning view node)
  complete : ∀ view, view.Exact exact → ∀ depth,
    Meaning.after word (grammar.within view (depth + 1) node) ≤
      plan.meaning (grammar.meaning view)
        (fun other => Meaning.after word (grammar.within view depth other))
  fruitful : grammar.Fruitful node → plan.Fruitful grammar
  guarded : grammar.Guarded node → plan.Guarded grammar

theorem Unfolds.mono (hUnfolds : Unfolds exact grammar word node plan)
    (hExact : exact' → exact) : Unfolds exact' grammar word node plan :=
  { hUnfolds with complete := fun view hView => hUnfolds.complete view (hView.mono hExact) }

end Grammar

end DerivativeParsing
