import DerivativeParsing.Proofs.Analysis.Forests
import DerivativeParsing.Proofs.Residual.Basic

namespace DerivativeParsing
namespace Grammar

/-!
# The laws of derivation and compaction

For every kind of node a law says which plan means what the node leaves after a word.
Some laws hold for every word; those of derivation are about words of one token, those of
compaction about the empty word.

Where a law replaces a node by the trees of its empty matches, the forest has to gather
them (`Gathers`).
-/

variable {Λ : Lexicon} {exact : Prop} {grammar : Grammar Λ} {word : List Λ.Token}
  {token : Λ.Token} {node first second inner left right : Handle} {forest : Forest Λ.Token}

section Gathers

/-- A forest for what a node leaves after a string is a forest for the node. -/
theorem Residual.gathers {grammar' : Grammar Λ} {result : Handle} {string : List Λ.Token}
    (hResidual : grammar.Residual exact grammar' word node result)
    (hGathers : grammar'.Gathers exact result string forest) :
    grammar.Gathers exact node (word ++ string) forest where
  sound tree hTree := hResidual.sound .trees string tree (hGathers.sound tree hTree)
  complete hExact tree hMatch :=
    hGathers.complete hExact tree (hResidual.complete .trees hExact string tree hMatch)
  fruitful hFruitful hMatch :=
    hGathers.fruitful (hResidual.fruitful hFruitful)
      (hResidual.complete .language trivial string () hMatch)

variable {view : View} {result : view.Result Λ}

/-- What a forest holds are results of empty matches, if there is any such match. -/
theorem Gathers.meaning_of_holds (hGathers : grammar.Gathers exact node [] forest)
    (hNullable : grammar.meaning .language node [] ())
    (hHolds : view.holds forest result) : grammar.meaning view node [] result := by
  cases view with
  | language => exact hNullable
  | trees => exact hGathers.sound result hHolds

theorem Gathers.holds_of_meaning (hGathers : grammar.Gathers exact node [] forest)
    (hView : view.Exact exact) (hMatch : grammar.meaning view node [] result) :
    view.holds forest result := by
  cases view with
  | language => exact trivial
  | trees => exact hGathers.complete hView result hMatch

end Gathers

section EveryWord

/-- A node without matches that begin with the word leaves nothing. -/
theorem unfolds_empty (hNone : ∀ view string result,
      ¬ grammar.meaning view node (word ++ string) result) :
    Unfolds exact grammar word node .empty where
  sound _ _ _ hMatch := hMatch.elim
  complete view _ depth string result hMatch :=
    (hNone view string result ⟨depth + 1, hMatch⟩).elim
  fruitful _ := trivial
  guarded _ := trivial

/-- A plan is right for a node if it means, layer by layer, what the node means. -/
theorem unfolds_of_layer {layer : Node Λ} {plan : Plan Λ}
    (hNode : grammar.get? node = some layer)
    (hLayer : ∀ view (whole part : Handle → Meaning Λ view),
      plan.meaning whole (fun other => Meaning.after word (part other)) =
        Meaning.after word (layer.meaning part))
    (hFruitful : grammar.Fruitful node → plan.Fruitful grammar)
    (hGuarded : grammar.Guarded node → plan.Guarded grammar) :
    Unfolds exact grammar word node plan where
  sound view := by
    rw [meaning_eq hNode, hLayer]
  complete view _ depth := by
    rw [within_succ hNode, hLayer]
  fruitful := hFruitful
  guarded := hGuarded

theorem unfolds_union (hNode : grammar.get? node = some (.union left right)) :
    Unfolds exact grammar word node (.union (.residual left) (.residual right)) := by
  refine unfolds_of_layer hNode (fun _ _ _ => rfl) (fun hFruitful => ?_) fun hGuarded => ?_
  · exact ⟨hFruitful.child hNode (Node.mem_children_union.mpr (Or.inl rfl)),
      hFruitful.child hNode (Node.mem_children_union.mpr (Or.inr rfl))⟩
  · exact ⟨hGuarded.child hNode (Node.mem_children_union.mpr (Or.inl rfl)),
      hGuarded.child hNode (Node.mem_children_union.mpr (Or.inr rfl))⟩

theorem unfolds_reduction {reducer : Reducer Λ}
    (hNode : grammar.get? node = some (.reduction inner reducer)) :
    Unfolds exact grammar word node (.reduction (.residual inner) reducer) := by
  refine unfolds_of_layer hNode (fun _ _ _ => rfl) (fun hFruitful => ?_) fun hGuarded => ?_
  · exact ⟨hFruitful.child hNode (List.mem_singleton_self inner),
      hFruitful node _ (Reaches.refl node) hNode⟩
  · exact hGuarded.child hNode (List.mem_singleton_self inner)

theorem unfolds_delegate {target : Handle}
    (hNode : grammar.get? node = some (.delegate (some target))) :
    Unfolds exact grammar word node (.residual target) := by
  refine unfolds_of_layer hNode (fun _ _ _ => rfl) (fun hFruitful => ?_) fun hGuarded => ?_
  · exact hFruitful.child hNode (List.mem_singleton_self target)
  · exact hGuarded.child hNode (List.mem_singleton_self target)

end EveryWord

section OneToken

/-- A matching token is consumed, and its leaf is kept. -/
theorem unfolds_token {matcher : Matcher Λ}
    (hNode : grammar.get? node = some (.token matcher))
    (hAccepts : matcher.accepts token = true) :
    Unfolds exact grammar [token] node (.eps (Forest.singleton (.leaf token))) where
  sound view := by
    rintro string result ⟨rfl, hResult⟩
    rw [meaning_eq hNode]
    exact ⟨token, rfl, hAccepts, hResult⟩
  complete view _ depth := by
    rw [within_succ hNode]
    rintro string result ⟨other, hString, -, hResult⟩
    obtain ⟨rfl, rfl⟩ := List.cons_eq_cons.mp hString
    exact ⟨rfl, hResult⟩
  fruitful _ := ⟨_, Forest.mem_singleton.mpr rfl⟩
  guarded _ := trivial

/-- The first part of a sequence takes the token if it does not match the empty
string. -/
theorem unfolds_sequence_of_not_nullable
    (hNode : grammar.get? node = some (.sequence first second))
    (hNullable : ¬ grammar.meaning .language first [] ()) :
    Unfolds exact grammar [token] node (.sequence (.residual first) (.whole second)) where
  sound view := by
    rintro string result ⟨start, rest, head, tail, rfl, hHead, hTail, hResult⟩
    rw [meaning_eq hNode]
    exact ⟨token :: start, rest, head, tail, rfl, hHead, hTail, hResult⟩
  complete view _ depth := by
    rw [within_succ hNode]
    rintro string result ⟨start, rest, head, tail, hString, hHead, hTail, hResult⟩
    cases start with
    | nil => exact absurd (language_of_meaning ⟨depth, hHead⟩) hNullable
    | cons other start =>
        obtain ⟨rfl, rfl⟩ := List.cons_eq_cons.mp hString
        exact ⟨start, rest, head, tail, rfl, hHead, within_le_meaning depth second _ _ hTail,
          hResult⟩
  fruitful hFruitful :=
    ⟨hFruitful.child hNode (Node.mem_children_sequence.mpr (Or.inl rfl)),
      hFruitful.child hNode (Node.mem_children_sequence.mpr (Or.inr rfl))⟩
  guarded hGuarded :=
    ⟨hGuarded.child hNode (Node.mem_children_sequence.mpr (Or.inl rfl)),
      hGuarded.child hNode (Node.mem_children_sequence.mpr (Or.inr rfl))⟩

/-- Either part of a sequence may take the token if the first one matches the empty
string; what the second one takes comes after an empty match of the first. -/
theorem unfolds_sequence_of_nullable
    (hNode : grammar.get? node = some (.sequence first second))
    (hNullable : grammar.meaning .language first [] ())
    (hGathers : grammar.Gathers exact first [] forest) :
    Unfolds exact grammar [token] node
      (.union (.sequence (.residual first) (.whole second))
        (.sequence (.eps forest) (.residual second))) where
  sound view := by
    rw [meaning_eq hNode]
    rintro string result
      (⟨start, rest, head, tail, rfl, hHead, hTail, hResult⟩ |
        ⟨start, rest, head, tail, rfl, ⟨rfl, hHead⟩, hTail, hResult⟩)
    · exact ⟨token :: start, rest, head, tail, rfl, hHead, hTail, hResult⟩
    · exact ⟨[], token :: rest, head, tail, rfl,
        hGathers.meaning_of_holds hNullable hHead, hTail, hResult⟩
  complete view hView depth := by
    rw [within_succ hNode]
    rintro string result ⟨start, rest, head, tail, hString, hHead, hTail, hResult⟩
    cases start with
    | nil =>
        obtain rfl := hString
        exact Or.inr ⟨[], string, head, tail, rfl,
          ⟨rfl, hGathers.holds_of_meaning hView ⟨depth, hHead⟩⟩, hTail, hResult⟩
    | cons other start =>
        obtain ⟨rfl, rfl⟩ := List.cons_eq_cons.mp hString
        exact Or.inl ⟨start, rest, head, tail, rfl, hHead,
          within_le_meaning depth second _ _ hTail, hResult⟩
  fruitful hFruitful := by
    have hFirst := hFruitful.child hNode (Node.mem_children_sequence.mpr (Or.inl rfl))
    have hSecond := hFruitful.child hNode (Node.mem_children_sequence.mpr (Or.inr rfl))
    exact ⟨⟨hFirst, hSecond⟩, hGathers.fruitful hFirst hNullable, hSecond⟩
  guarded hGuarded := by
    have hFirst := hGuarded.child hNode (Node.mem_children_sequence.mpr (Or.inl rfl))
    have hSecond := hGuarded.child hNode (Node.mem_children_sequence.mpr (Or.inr rfl))
    exact ⟨⟨hFirst, hSecond⟩, trivial, hSecond⟩

/-- The first iteration takes the token, and the others follow. -/
theorem unfolds_repetition_of_token
    (hNode : grammar.get? node = some (.repetition inner)) :
    Unfolds exact grammar [token] node
      (.reduction (.sequence (.residual inner) (.whole node)) .cons) where
  sound view := by
    rintro string result ⟨_, ⟨start, rest, head, tail, rfl, hHead, hTail, rfl⟩, hResult⟩
    change grammar.meaning view node rest tail at hTail
    rw [meaning_eq hNode] at hTail ⊢
    rw [Meaning.after, ← List.append_assoc]
    exact Meaning.iterated.more (List.cons_ne_nil token start) hHead hTail hResult
  complete view _ depth := by
    rw [within_succ hNode]
    intro string result hMatch
    obtain ⟨start, rest, head, later, rfl, hHead, hLater, hResult⟩ :=
      Meaning.iterated_cons hMatch
    refine ⟨_, ⟨start, rest, head, later, rfl, hHead, ⟨depth + 1, ?_⟩, rfl⟩, hResult⟩
    rw [within_succ hNode]
    exact hLater
  fruitful hFruitful :=
    ⟨⟨hFruitful.child hNode (List.mem_singleton_self inner), hFruitful⟩, trivial⟩
  guarded hGuarded :=
    ⟨hGuarded.child hNode (List.mem_singleton_self inner), hGuarded⟩

end OneToken

section NoToken

/-- A node may stay as it is. -/
theorem unfolds_whole : Unfolds exact grammar [] node (.whole node) where
  sound _ := le_refl _
  complete _ _ depth := within_le_meaning (depth + 1) node
  fruitful := id
  guarded := id

theorem not_meaning_of_not_inhabited (hInhabited : ¬ grammar.Inhabited node)
    (view : View) (string : List Λ.Token) (result : view.Result Λ) :
    ¬ grammar.meaning view node string result := by
  rintro ⟨depth, hMatch⟩
  exact hInhabited (inhabited_of_within hMatch)

/-- All matches of a node that consumes nothing are empty. -/
theorem eq_nil_of_not_consuming {view : View} {depth : Nat} {string : List Λ.Token}
    {result : view.Result Λ} (hConsuming : ¬ grammar.Consuming node)
    (hMatch : grammar.within view depth node string result) : string = [] := by
  by_contra hString
  exact hConsuming (consuming_of_within hMatch hString)

/-- A node that matches only the empty string is replaced by the trees of its
matches. -/
theorem unfolds_eps (hNullable : grammar.meaning .language node [] ())
    (hConsuming : ¬ grammar.Consuming node) (hGathers : grammar.Gathers exact node [] forest) :
    Unfolds exact grammar [] node (.eps forest) where
  sound view := by
    rintro string result ⟨rfl, hResult⟩
    exact hGathers.meaning_of_holds hNullable hResult
  complete view hView depth := by
    intro string result hMatch
    obtain rfl := eq_nil_of_not_consuming hConsuming hMatch
    exact ⟨rfl, hGathers.holds_of_meaning hView ⟨depth + 1, hMatch⟩⟩
  fruitful hFruitful := hGathers.fruitful hFruitful hNullable
  guarded _ := trivial

theorem unfolds_union_right (hNode : grammar.get? node = some (.union left right))
    (hLeft : ¬ grammar.Inhabited left) :
    Unfolds exact grammar [] node (.residual right) where
  sound view := by
    rw [meaning_eq hNode]
    exact fun _ _ hMatch => Or.inr hMatch
  complete view _ depth := by
    rw [within_succ hNode]
    rintro string result (hMatch | hMatch)
    · exact absurd (inhabited_of_within hMatch) hLeft
    · exact hMatch
  fruitful hFruitful := hFruitful.child hNode (Node.mem_children_union.mpr (Or.inr rfl))
  guarded hGuarded := hGuarded.child hNode (Node.mem_children_union.mpr (Or.inr rfl))

theorem unfolds_union_left (hNode : grammar.get? node = some (.union left right))
    (hRight : ¬ grammar.Inhabited right) :
    Unfolds exact grammar [] node (.residual left) where
  sound view := by
    rw [meaning_eq hNode]
    exact fun _ _ hMatch => Or.inl hMatch
  complete view _ depth := by
    rw [within_succ hNode]
    rintro string result (hMatch | hMatch)
    · exact hMatch
    · exact absurd (inhabited_of_within hMatch) hRight
  fruitful hFruitful := hFruitful.child hNode (Node.mem_children_union.mpr (Or.inl rfl))
  guarded hGuarded := hGuarded.child hNode (Node.mem_children_union.mpr (Or.inl rfl))

theorem unfolds_sequence (hNode : grammar.get? node = some (.sequence first second)) :
    Unfolds exact grammar [] node (.sequence (.residual first) (.residual second)) := by
  refine unfolds_of_layer hNode (fun _ _ _ => rfl) (fun hFruitful => ?_) fun hGuarded => ?_
  · exact ⟨hFruitful.child hNode (Node.mem_children_sequence.mpr (Or.inl rfl)),
      hFruitful.child hNode (Node.mem_children_sequence.mpr (Or.inr rfl))⟩
  · exact ⟨hGuarded.child hNode (Node.mem_children_sequence.mpr (Or.inl rfl)),
      hGuarded.child hNode (Node.mem_children_sequence.mpr (Or.inr rfl))⟩

/-- If the first part of a sequence matches only the empty string, its trees are paired
with those of the second part. -/
theorem unfolds_sequence_prepend
    (hNode : grammar.get? node = some (.sequence first second))
    (hNullable : grammar.meaning .language first [] ())
    (hConsuming : ¬ grammar.Consuming first)
    (hGathers : grammar.Gathers exact first [] forest) :
    Unfolds exact grammar [] node (.reduction (.residual second) (.prepend forest)) where
  sound view := by
    rintro string result ⟨given, hGiven, hResult⟩
    obtain ⟨head, hHead, rfl⟩ := View.reduces_prepend.mp hResult
    rw [meaning_eq hNode]
    exact ⟨[], string, head, given, rfl, hGathers.meaning_of_holds hNullable hHead, hGiven,
      rfl⟩
  complete view hView depth := by
    rw [within_succ hNode]
    rintro string result ⟨start, rest, head, tail, hString, hHead, hTail, rfl⟩
    obtain rfl := eq_nil_of_not_consuming hConsuming hHead
    obtain rfl : string = rest := hString
    exact ⟨tail, hTail, View.reduces_prepend.mpr
      ⟨head, hGathers.holds_of_meaning hView ⟨depth, hHead⟩, rfl⟩⟩
  fruitful hFruitful := by
    have hFirst := hFruitful.child hNode (Node.mem_children_sequence.mpr (Or.inl rfl))
    exact ⟨hFruitful.child hNode (Node.mem_children_sequence.mpr (Or.inr rfl)),
      hGathers.fruitful hFirst hNullable⟩
  guarded hGuarded := hGuarded.child hNode (Node.mem_children_sequence.mpr (Or.inr rfl))

theorem unfolds_sequence_append
    (hNode : grammar.get? node = some (.sequence first second))
    (hNullable : grammar.meaning .language second [] ())
    (hConsuming : ¬ grammar.Consuming second)
    (hGathers : grammar.Gathers exact second [] forest) :
    Unfolds exact grammar [] node (.reduction (.residual first) (.append forest)) where
  sound view := by
    rintro string result ⟨given, hGiven, hResult⟩
    obtain ⟨tail, hTail, rfl⟩ := View.reduces_append.mp hResult
    rw [meaning_eq hNode]
    exact ⟨string, [], given, tail, (List.append_nil string).symm, hGiven,
      hGathers.meaning_of_holds hNullable hTail, rfl⟩
  complete view hView depth := by
    rw [within_succ hNode]
    rintro string result ⟨start, rest, head, tail, hString, hHead, hTail, rfl⟩
    obtain rfl := eq_nil_of_not_consuming hConsuming hTail
    obtain rfl : string = start := hString.trans (List.append_nil start)
    exact ⟨head, hHead, View.reduces_append.mpr
      ⟨tail, hGathers.holds_of_meaning hView ⟨depth, hTail⟩, rfl⟩⟩
  fruitful hFruitful := by
    have hSecond := hFruitful.child hNode (Node.mem_children_sequence.mpr (Or.inr rfl))
    exact ⟨hFruitful.child hNode (Node.mem_children_sequence.mpr (Or.inl rfl)),
      hGathers.fruitful hSecond hNullable⟩
  guarded hGuarded := hGuarded.child hNode (Node.mem_children_sequence.mpr (Or.inl rfl))

theorem unfolds_repetition (hNode : grammar.get? node = some (.repetition inner)) :
    Unfolds exact grammar [] node (.repetition (.residual inner)) := by
  refine unfolds_of_layer hNode (fun _ _ _ => rfl) (fun hFruitful => ?_) fun hGuarded => ?_
  · exact hFruitful.child hNode (List.mem_singleton_self inner)
  · exact hGuarded.child hNode (List.mem_singleton_self inner)

/-- Nothing can be repeated only no times. -/
theorem unfolds_repetition_of_not_inhabited
    (hNode : grammar.get? node = some (.repetition inner))
    (hInner : ¬ grammar.Inhabited inner) :
    Unfolds exact grammar [] node (.eps (Forest.singleton (.list []))) where
  sound view := by
    rintro string result ⟨rfl, hResult⟩
    rw [meaning_eq hNode]
    exact Meaning.iterated.stop hResult
  complete view _ depth := by
    rw [within_succ hNode]
    intro string result hMatch
    cases hMatch with
    | stop hResult => exact ⟨rfl, hResult⟩
    | more _ hFirst _ _ => exact absurd (inhabited_of_within hFirst) hInner
  fruitful _ := ⟨_, Forest.mem_singleton.mpr rfl⟩
  guarded _ := trivial

end NoToken

end Grammar

end DerivativeParsing
