import Mathlib.Order.Basic
import DerivativeParsing.Proofs.Grammar.Reach

namespace DerivativeParsing

/-!
# What the nodes of a grammar stand for

`Accepts` is the least language of a node graph and `Parses` its least relation between
nodes, strings and parse trees, both as inductive definitions over the graph.

The two are views of one construction.  A meaning relates strings to results, which are
trees in one view and carry nothing in the other.  `Node.meaning` is one layer of the
construction, `within` its iteration to a depth, and `meaning` the union over all
depths, which is a fixed point of the layer (`meaning_eq`).  What is proved of meanings
holds of the language and of the trees alike (`accepts_iff`, `parses_iff`).

A root is fruitful if no forest that it reaches, in a node or in a reducer, is empty.
Then every accepted string has a tree (`Fruitful.exists_within`).
-/

/-- What of a match is looked at: its string alone, or its string and its tree. -/
inductive View where
  | language
  | trees

namespace View

variable {Λ : Lexicon}

/-- What a match gives besides its string. -/
abbrev Result (Λ : Lexicon) : View → Type
  | language => Unit
  | trees => Tree Λ.Token

/-- A forest holds a result. -/
def holds : (view : View) → Forest Λ.Token → view.Result Λ → Prop
  | language, _, _ => True
  | trees, forest, tree => tree ∈ forest

/-- The result of two consecutive matches. -/
def pair : (view : View) → view.Result Λ → view.Result Λ → view.Result Λ
  | language, _, _ => ()
  | trees, left, right => Tree.pair left right

/-- A reducer makes a result of another one. -/
def reduces : (view : View) → Reducer Λ → view.Result Λ → view.Result Λ → Prop
  | language, _, _, _ => True
  | trees, reducer, tree, result => result ∈ reducer.apply tree

variable {view : View} {forest : Forest Λ.Token} {outer inner : Reducer Λ}
  {given result : view.Result Λ}

theorem reduces_prepend :
    view.reduces (.prepend forest) given result ↔
      ∃ left, view.holds forest left ∧ result = view.pair left given := by
  cases view with
  | language => exact ⟨fun _ => ⟨(), trivial, rfl⟩, fun _ => trivial⟩
  | trees => exact Reducer.mem_apply_prepend

theorem reduces_append :
    view.reduces (.append forest) given result ↔
      ∃ right, view.holds forest right ∧ result = view.pair given right := by
  cases view with
  | language => exact ⟨fun _ => ⟨(), trivial, rfl⟩, fun _ => trivial⟩
  | trees => exact Reducer.mem_apply_append

theorem reduces_compose :
    view.reduces (.compose outer inner) given result ↔
      ∃ between, view.reduces inner given between ∧
        view.reduces outer between result := by
  cases view with
  | language => exact ⟨fun _ => ⟨(), trivial, trivial⟩, fun _ => trivial⟩
  | trees => exact Reducer.mem_apply_compose

end View

/-- A relation between strings and the results of their matches. -/
abbrev Meaning (Λ : Lexicon) (view : View) := List Λ.Token → view.Result Λ → Prop

namespace Meaning

variable {Λ : Lexicon} {view : View}

/-- No match. -/
def none : Meaning Λ view := fun _ _ => False

/-- The empty match with the results of a forest. -/
def eps (forest : Forest Λ.Token) : Meaning Λ view := fun string result =>
  string = [] ∧ view.holds forest result

/-- The match of one token. -/
def token (matcher : Matcher Λ) : Meaning Λ view := fun string result =>
  ∃ token, string = [token] ∧ matcher.accepts token = true ∧
    view.holds (Forest.singleton (.leaf token)) result

/-- The matches of either. -/
def union (left right : Meaning Λ view) : Meaning Λ view := fun string result =>
  left string result ∨ right string result

/-- A match of one and then a match of the other. -/
def sequence (first second : Meaning Λ view) : Meaning Λ view := fun string result =>
  ∃ start rest left right, string = start ++ rest ∧ first start left ∧
    second rest right ∧ result = view.pair left right

/-- Any number of matches, none of them empty. -/
inductive iterated (inner : Meaning Λ view) : Meaning Λ view
  | stop {result : view.Result Λ} :
      view.holds (Forest.singleton (.list [])) result → iterated inner [] result
  | more {start rest : List Λ.Token} {first later result : view.Result Λ} :
      start ≠ [] → inner start first → iterated inner rest later →
      view.reduces .cons (view.pair first later) result →
      iterated inner (start ++ rest) result

/-- The matches with their results passed through a reducer. -/
def reduced (inner : Meaning Λ view) (reducer : Reducer Λ) : Meaning Λ view :=
  fun string result => ∃ given, inner string given ∧ view.reduces reducer given result

/-- What is left of the matches that begin with a string. -/
def after (start : List Λ.Token) (inner : Meaning Λ view) : Meaning Λ view :=
  fun string result => inner (start ++ string) result

variable {first second first' second' : Meaning Λ view}

theorem union_mono (hFirst : first ≤ first') (hSecond : second ≤ second') :
    union first second ≤ union first' second' := fun string result =>
  Or.imp (hFirst string result) (hSecond string result)

theorem sequence_mono (hFirst : first ≤ first') (hSecond : second ≤ second') :
    sequence first second ≤ sequence first' second' := by
  rintro string result ⟨start, rest, left, right, hString, hLeft, hRight, hResult⟩
  exact ⟨start, rest, left, right, hString, hFirst start left hLeft,
    hSecond rest right hRight, hResult⟩

theorem iterated_mono (hFirst : first ≤ first') : iterated first ≤ iterated first' := by
  intro string result hIterated
  induction hIterated with
  | stop hResult => exact .stop hResult
  | more hStart hInner _ hResult ih =>
      exact .more hStart (hFirst _ _ hInner) ih hResult

/-- No iteration is empty, so there are none of the empty string. -/
theorem iterated_nil {result : view.Result Λ} :
    iterated first [] result ↔ view.holds (Forest.singleton (.list [])) result := by
  refine ⟨fun hIterated => ?_, .stop⟩
  generalize hString : ([] : List Λ.Token) = string at hIterated
  cases hIterated with
  | stop hResult => exact hResult
  | more hStart _ _ _ => exact absurd (List.append_eq_nil_iff.mp hString.symm).1 hStart

/-- An iteration of a string that is not empty begins with its first token. -/
theorem iterated_cons {token : Λ.Token} {string : List Λ.Token} {result : view.Result Λ}
    (hIterated : iterated first (token :: string) result) :
    ∃ start rest head later, string = start ++ rest ∧ first (token :: start) head ∧
      iterated first rest later ∧ view.reduces .cons (view.pair head later) result := by
  generalize hString : token :: string = whole at hIterated
  cases hIterated with
  | stop _ => cases hString
  | @more start rest head later _ hStart hFirst hRest hResult =>
      cases start with
      | nil => exact absurd rfl hStart
      | cons other start =>
          obtain ⟨rfl, rfl⟩ := List.cons_eq_cons.mp hString
          exact ⟨start, rest, head, later, rfl, hFirst, hRest, hResult⟩

theorem reduced_mono (reducer : Reducer Λ) (hFirst : first ≤ first') :
    reduced first reducer ≤ reduced first' reducer := by
  rintro string result ⟨given, hGiven, hResult⟩
  exact ⟨given, hFirst string given hGiven, hResult⟩

theorem after_mono (start : List Λ.Token) (hFirst : first ≤ first') :
    after start first ≤ after start first' :=
  fun string result => hFirst (start ++ string) result

end Meaning

namespace Node

variable {Λ : Lexicon} {view : View}

/-- The meaning of a node, given those of its children. -/
def meaning (part : Handle → Meaning Λ view) : Node Λ → Meaning Λ view
  | empty => Meaning.none
  | eps forest => Meaning.eps forest
  | token matcher => Meaning.token matcher
  | union left right => Meaning.union (part left) (part right)
  | sequence first second => Meaning.sequence (part first) (part second)
  | repetition inner => Meaning.iterated (part inner)
  | reduction inner reducer => Meaning.reduced (part inner) reducer
  | delegate none => Meaning.none
  | delegate (some target) => part target

theorem meaning_mono {part part' : Handle → Meaning Λ view} {node : Node Λ}
    (hPart : ∀ child ∈ node.children, part child ≤ part' child) :
    node.meaning part ≤ node.meaning part' := by
  cases node with
  | empty => exact le_refl _
  | eps forest => exact le_refl _
  | token matcher => exact le_refl _
  | union left right =>
      exact Meaning.union_mono (hPart left (by simp [children]))
        (hPart right (by simp [children]))
  | sequence first second =>
      exact Meaning.sequence_mono (hPart first (by simp [children]))
        (hPart second (by simp [children]))
  | repetition inner => exact Meaning.iterated_mono (hPart inner (by simp [children]))
  | reduction inner reducer =>
      exact Meaning.reduced_mono reducer (hPart inner (by simp [children]))
  | delegate target =>
      cases target with
      | none => exact le_refl _
      | some target => exact hPart target (by simp [children])

/-- A match of a node needs only finitely much of its children's meanings. -/
theorem exists_meaning {part : Nat → Handle → Meaning Λ view}
    (hPart : ∀ depth depth' handle, depth ≤ depth' →
      part depth handle ≤ part depth' handle)
    {node : Node Λ} {string : List Λ.Token} {result : view.Result Λ}
    (hMatch : node.meaning (fun handle string result =>
      ∃ depth, part depth handle string result) string result) :
    ∃ depth, node.meaning (part depth) string result := by
  cases node with
  | empty => exact hMatch.elim
  | eps forest => exact ⟨0, hMatch⟩
  | token matcher => exact ⟨0, hMatch⟩
  | union left right =>
      rcases hMatch with ⟨depth, hLeft⟩ | ⟨depth, hRight⟩
      · exact ⟨depth, Or.inl hLeft⟩
      · exact ⟨depth, Or.inr hRight⟩
  | sequence first second =>
      obtain ⟨start, rest, left, right, hString, ⟨depth, hLeft⟩, ⟨depth', hRight⟩,
        hResult⟩ := hMatch
      exact ⟨max depth depth', start, rest, left, right, hString,
        hPart _ _ _ (Nat.le_max_left ..) _ _ hLeft,
        hPart _ _ _ (Nat.le_max_right ..) _ _ hRight, hResult⟩
  | repetition inner =>
      change Meaning.iterated _ string result at hMatch
      induction hMatch with
      | stop hResult => exact ⟨0, .stop hResult⟩
      | more hStart hInner _ hResult ih =>
          -- The larger of the two depths does for the iteration and for the later ones.
          obtain ⟨depth, hInner⟩ := hInner
          obtain ⟨depth', hRest⟩ := ih
          refine ⟨max depth depth', .more hStart
            (hPart _ _ _ (Nat.le_max_left ..) _ _ hInner) ?_ hResult⟩
          exact Meaning.iterated_mono (hPart _ _ _ (Nat.le_max_right ..)) _ _ hRest
  | reduction inner reducer =>
      obtain ⟨given, ⟨depth, hGiven⟩, hResult⟩ := hMatch
      exact ⟨depth, given, hGiven, hResult⟩
  | delegate target =>
      cases target with
      | none => exact hMatch.elim
      | some target => exact hMatch

end Node

/-- No forest inside a reducer is empty. -/
def Reducer.Fruitful {Λ : Lexicon} : Reducer Λ → Prop
  | map _ => True
  | prepend forest => ∃ tree, tree ∈ forest
  | append forest => ∃ tree, tree ∈ forest
  | cons => True
  | compose outer inner => outer.Fruitful ∧ inner.Fruitful

/-- A fruitful reducer loses no tree. -/
theorem Reducer.Fruitful.exists_mem_apply {Λ : Lexicon} {reducer : Reducer Λ}
    (hFruitful : reducer.Fruitful) (tree : Tree Λ.Token) :
    ∃ result, result ∈ reducer.apply tree := by
  induction reducer generalizing tree with
  | map name => exact ⟨_, mem_apply_map.mpr rfl⟩
  | prepend forest =>
      obtain ⟨left, hLeft⟩ := hFruitful
      exact ⟨_, mem_apply_prepend.mpr ⟨left, hLeft, rfl⟩⟩
  | append forest =>
      obtain ⟨right, hRight⟩ := hFruitful
      exact ⟨_, mem_apply_append.mpr ⟨right, hRight, rfl⟩⟩
  | cons => exact ⟨_, mem_apply_cons.mpr rfl⟩
  | compose outer inner ihOuter ihInner =>
      obtain ⟨between, hBetween⟩ := ihInner hFruitful.2 tree
      obtain ⟨result, hResult⟩ := ihOuter hFruitful.1 between
      exact ⟨result, mem_apply_compose.mpr ⟨between, hBetween, hResult⟩⟩

/-- No forest that a node itself holds is empty. -/
def Node.Fruitful {Λ : Lexicon} : Node Λ → Prop
  | eps forest => ∃ tree, tree ∈ forest
  | reduction _ reducer => reducer.Fruitful
  | _ => True

namespace Grammar

variable {Λ : Lexicon} {view : View} {grammar : Grammar Λ} {handle root : Handle}
  {node : Node Λ} {string : List Λ.Token}

/-- The matches of a node whose derivations are at most so deep. -/
def within (grammar : Grammar Λ) (view : View) : Nat → Handle → Meaning Λ view
  | 0, _ => Meaning.none
  | depth + 1, handle => fun string result =>
      ∃ node, grammar.get? handle = some node ∧
        node.meaning (grammar.within view depth) string result

/-- All the matches of a node. -/
def meaning (grammar : Grammar Λ) (view : View) (handle : Handle) : Meaning Λ view :=
  fun string result => ∃ depth, grammar.within view depth handle string result

theorem within_succ (hNode : grammar.get? handle = some node) (depth : Nat) :
    grammar.within view (depth + 1) handle = node.meaning (grammar.within view depth) := by
  funext string result
  apply propext
  constructor
  · rintro ⟨other, hOther, hMatch⟩
    rw [hNode, Option.some.injEq] at hOther
    subst hOther
    exact hMatch
  · intro hMatch
    exact ⟨node, hNode, hMatch⟩

theorem within_succ_mono (depth : Nat) (handle : Handle) :
    grammar.within view depth handle ≤ grammar.within view (depth + 1) handle := by
  induction depth generalizing handle with
  | zero => exact fun _ _ hMatch => hMatch.elim
  | succ depth ih =>
      rintro string result ⟨node, hNode, hMatch⟩
      exact ⟨node, hNode, Node.meaning_mono (fun child _ => ih child) _ _ hMatch⟩

theorem within_mono {depth depth' : Nat} (handle : Handle) (hLe : depth ≤ depth') :
    grammar.within view depth handle ≤ grammar.within view depth' handle := by
  induction hLe with
  | refl => exact le_refl _
  | step _ ih => exact le_trans ih (within_succ_mono _ handle)

theorem within_le_meaning (depth : Nat) (handle : Handle) :
    grammar.within view depth handle ≤ grammar.meaning view handle :=
  fun _ _ hMatch => ⟨depth, hMatch⟩

/-- The meanings of the nodes of a grammar solve the equations of its nodes. -/
theorem meaning_eq (hNode : grammar.get? handle = some node) :
    grammar.meaning view handle = node.meaning (grammar.meaning view) := by
  funext string result
  apply propext
  constructor
  · rintro ⟨depth, hMatch⟩
    cases depth with
    | zero => exact hMatch.elim
    | succ depth =>
        rw [within_succ hNode] at hMatch
        exact Node.meaning_mono (fun child _ => within_le_meaning depth child) _ _ hMatch
  · intro hMatch
    obtain ⟨depth, hMatch⟩ := Node.exists_meaning
      (fun _ _ handle hLe => within_mono handle hLe) hMatch
    refine ⟨depth + 1, ?_⟩
    rw [within_succ hNode]
    exact hMatch

/-- The strings of a node, as the least language that its graph allows. -/
inductive Accepts (grammar : Grammar Λ) : Handle → List Λ.Token → Prop
  | eps {handle : Handle} {forest : Forest Λ.Token} :
      grammar.get? handle = some (.eps forest) → Accepts grammar handle []
  | token {handle : Handle} {matcher : Matcher Λ} {token : Λ.Token} :
      grammar.get? handle = some (.token matcher) → matcher.accepts token = true →
      Accepts grammar handle [token]
  | left {handle left right : Handle} {string : List Λ.Token} :
      grammar.get? handle = some (.union left right) → Accepts grammar left string →
      Accepts grammar handle string
  | right {handle left right : Handle} {string : List Λ.Token} :
      grammar.get? handle = some (.union left right) → Accepts grammar right string →
      Accepts grammar handle string
  | sequence {handle first second : Handle} {start rest : List Λ.Token} :
      grammar.get? handle = some (.sequence first second) →
      Accepts grammar first start → Accepts grammar second rest →
      Accepts grammar handle (start ++ rest)
  | stop {handle inner : Handle} :
      grammar.get? handle = some (.repetition inner) → Accepts grammar handle []
  | more {handle inner : Handle} {start rest : List Λ.Token} :
      grammar.get? handle = some (.repetition inner) →
      Accepts grammar inner start → Accepts grammar handle rest →
      Accepts grammar handle (start ++ rest)
  | reduction {handle inner : Handle} {reducer : Reducer Λ} {string : List Λ.Token} :
      grammar.get? handle = some (.reduction inner reducer) →
      Accepts grammar inner string → Accepts grammar handle string
  | delegate {handle target : Handle} {string : List Λ.Token} :
      grammar.get? handle = some (.delegate (some target)) →
      Accepts grammar target string → Accepts grammar handle string

/-- The strings of a node with their parse trees, as the least relation that its graph
allows.  No iteration of a repetition is empty. -/
inductive Parses (grammar : Grammar Λ) :
    Handle → List Λ.Token → Tree Λ.Token → Prop
  | eps {handle : Handle} {forest : Forest Λ.Token} {tree : Tree Λ.Token} :
      grammar.get? handle = some (.eps forest) → tree ∈ forest →
      Parses grammar handle [] tree
  | token {handle : Handle} {matcher : Matcher Λ} {token : Λ.Token} :
      grammar.get? handle = some (.token matcher) → matcher.accepts token = true →
      Parses grammar handle [token] (.leaf token)
  | left {handle left right : Handle} {string : List Λ.Token} {tree : Tree Λ.Token} :
      grammar.get? handle = some (.union left right) →
      Parses grammar left string tree → Parses grammar handle string tree
  | right {handle left right : Handle} {string : List Λ.Token} {tree : Tree Λ.Token} :
      grammar.get? handle = some (.union left right) →
      Parses grammar right string tree → Parses grammar handle string tree
  | sequence {handle first second : Handle} {start rest : List Λ.Token}
      {left right : Tree Λ.Token} :
      grammar.get? handle = some (.sequence first second) →
      Parses grammar first start left → Parses grammar second rest right →
      Parses grammar handle (start ++ rest) (.pair left right)
  | stop {handle inner : Handle} :
      grammar.get? handle = some (.repetition inner) →
      Parses grammar handle [] (.list [])
  | more {handle inner : Handle} {start rest : List Λ.Token} {tree : Tree Λ.Token}
      {trees : List (Tree Λ.Token)} :
      grammar.get? handle = some (.repetition inner) → start ≠ [] →
      Parses grammar inner start tree → Parses grammar handle rest (.list trees) →
      Parses grammar handle (start ++ rest) (.list (tree :: trees))
  | reduction {handle inner : Handle} {reducer : Reducer Λ} {string : List Λ.Token}
      {given tree : Tree Λ.Token} :
      grammar.get? handle = some (.reduction inner reducer) →
      Parses grammar inner string given → tree ∈ reducer.apply given →
      Parses grammar handle string tree
  | delegate {handle target : Handle} {string : List Λ.Token} {tree : Tree Λ.Token} :
      grammar.get? handle = some (.delegate (some target)) →
      Parses grammar target string tree → Parses grammar handle string tree

/-- A node accepts every string that it has a match for. -/
theorem accepts_of_within {depth : Nat} {result : view.Result Λ}
    (hMatch : grammar.within view depth handle string result) :
    grammar.Accepts handle string := by
  induction depth generalizing handle string result with
  | zero => exact hMatch.elim
  | succ depth ih =>
      obtain ⟨node, hNode, hMatch⟩ := hMatch
      cases node with
      | empty => exact hMatch.elim
      | eps forest =>
          obtain ⟨rfl, -⟩ := hMatch
          exact .eps hNode
      | token matcher =>
          obtain ⟨token, rfl, hToken, -⟩ := hMatch
          exact .token hNode hToken
      | union left right =>
          rcases hMatch with hLeft | hRight
          · exact .left hNode (ih hLeft)
          · exact .right hNode (ih hRight)
      | sequence first second =>
          obtain ⟨start, rest, _, _, rfl, hFirst, hSecond, -⟩ := hMatch
          exact .sequence hNode (ih hFirst) (ih hSecond)
      | repetition inner =>
          change (grammar.within view depth inner).iterated string result at hMatch
          induction hMatch with
          | stop _ => exact .stop hNode
          | more _ hInner _ _ ihRest => exact .more hNode (ih hInner) ihRest
      | reduction inner reducer =>
          obtain ⟨_, hInner, -⟩ := hMatch
          exact .reduction hNode (ih hInner)
      | delegate target =>
          cases target with
          | none => exact hMatch.elim
          | some target => exact .delegate hNode (ih hMatch)

/-- The accepted strings are the strings of the matches. -/
theorem accepts_iff :
    grammar.Accepts handle string ↔
      grammar.meaning .language handle string () := by
  refine ⟨fun hAccepts => ?_, fun ⟨_, hMatch⟩ => accepts_of_within hMatch⟩
  induction hAccepts with
  | eps hNode =>
      rw [meaning_eq hNode]
      exact ⟨rfl, trivial⟩
  | token hNode hToken =>
      rw [meaning_eq hNode]
      exact ⟨_, rfl, hToken, trivial⟩
  | left hNode _ ih =>
      rw [meaning_eq hNode]
      exact Or.inl ih
  | right hNode _ ih =>
      rw [meaning_eq hNode]
      exact Or.inr ih
  | sequence hNode _ _ ihFirst ihSecond =>
      rw [meaning_eq hNode]
      exact ⟨_, _, (), (), rfl, ihFirst, ihSecond, rfl⟩
  | stop hNode =>
      rw [meaning_eq hNode]
      exact .stop trivial
  | @more handle inner start rest hNode _ _ ihInner ihRest =>
      -- An iteration that consumed nothing can be left out.
      by_cases hStart : start = []
      · rw [hStart]
        exact ihRest
      · rw [meaning_eq hNode] at ihRest ⊢
        exact Meaning.iterated.more hStart ihInner ihRest trivial
  | reduction hNode _ ih =>
      rw [meaning_eq hNode]
      exact ⟨(), ih, trivial⟩
  | delegate hNode _ ih =>
      rw [meaning_eq hNode]
      exact ih

/-- In every view the strings of the matches are strings of the language. -/
theorem language_of_meaning {result : view.Result Λ}
    (hMatch : grammar.meaning view handle string result) :
    grammar.meaning .language handle string () := by
  obtain ⟨depth, hMatch⟩ := hMatch
  exact accepts_iff.mp (accepts_of_within hMatch)

/-- A node parses every string that it has a match for, with the tree of the match. -/
theorem parses_of_within {depth : Nat} {tree : View.trees.Result Λ}
    (hMatch : grammar.within .trees depth handle string tree) :
    grammar.Parses handle string tree := by
  induction depth generalizing handle string tree with
  | zero => exact hMatch.elim
  | succ depth ih =>
      obtain ⟨node, hNode, hMatch⟩ := hMatch
      cases node with
      | empty => exact hMatch.elim
      | eps forest =>
          obtain ⟨rfl, hTree⟩ := hMatch
          exact .eps hNode hTree
      | token matcher =>
          obtain ⟨token, rfl, hToken, hTree⟩ := hMatch
          rw [Forest.mem_singleton.mp hTree]
          exact .token hNode hToken
      | union left right =>
          rcases hMatch with hLeft | hRight
          · exact .left hNode (ih hLeft)
          · exact .right hNode (ih hRight)
      | sequence first second =>
          obtain ⟨start, rest, left, right, rfl, hFirst, hSecond, rfl⟩ := hMatch
          exact .sequence hNode (ih hFirst) (ih hSecond)
      | repetition inner =>
          -- The tree of the later iterations is a list, which `cons` extends.
          suffices hList : ∃ trees, tree = .list trees ∧
              grammar.Parses handle string (.list trees) by
            obtain ⟨trees, rfl, hParses⟩ := hList
            exact hParses
          change (grammar.within .trees depth inner).iterated string tree at hMatch
          induction hMatch with
          | stop hTree => exact ⟨[], Forest.mem_singleton.mp hTree, .stop hNode⟩
          | more hStart hInner _ hTree ihRest =>
              obtain ⟨trees, rfl, hRest⟩ := ihRest
              exact ⟨_, Reducer.mem_apply_cons.mp hTree,
                .more hNode hStart (ih hInner) hRest⟩
      | reduction inner reducer =>
          obtain ⟨given, hInner, hTree⟩ := hMatch
          exact .reduction hNode (ih hInner) hTree
      | delegate target =>
          cases target with
          | none => exact hMatch.elim
          | some target => exact .delegate hNode (ih hMatch)

/-- The parse trees of a string are the results of its matches. -/
theorem parses_iff {tree : Tree Λ.Token} :
    grammar.Parses handle string tree ↔
      grammar.meaning .trees handle string tree := by
  refine ⟨fun hParses => ?_, fun ⟨_, hMatch⟩ => parses_of_within hMatch⟩
  induction hParses with
  | eps hNode hTree =>
      rw [meaning_eq hNode]
      exact ⟨rfl, hTree⟩
  | token hNode hToken =>
      rw [meaning_eq hNode]
      exact ⟨_, rfl, hToken, Forest.mem_singleton.mpr rfl⟩
  | left hNode _ ih =>
      rw [meaning_eq hNode]
      exact Or.inl ih
  | right hNode _ ih =>
      rw [meaning_eq hNode]
      exact Or.inr ih
  | sequence hNode _ _ ihFirst ihSecond =>
      rw [meaning_eq hNode]
      exact ⟨_, _, _, _, rfl, ihFirst, ihSecond, rfl⟩
  | stop hNode =>
      rw [meaning_eq hNode]
      exact .stop (Forest.mem_singleton.mpr rfl)
  | @more handle inner start rest tree trees hNode hStart _ _ ihInner ihRest =>
      rw [meaning_eq hNode] at ihRest ⊢
      exact Meaning.iterated.more hStart ihInner ihRest (Reducer.mem_apply_cons.mpr rfl)
  | reduction hNode _ hTree ih =>
      rw [meaning_eq hNode]
      exact ⟨_, ih, hTree⟩
  | delegate hNode _ ih =>
      rw [meaning_eq hNode]
      exact ih

/-- No forest that a root reaches, in a node or in a reducer, is empty. -/
def Fruitful (grammar : Grammar Λ) (root : Handle) : Prop :=
  ∀ handle node, grammar.Reaches root handle → grammar.get? handle = some node →
    node.Fruitful

theorem Fruitful.mono (hFruitful : grammar.Fruitful root)
    (hReaches : grammar.Reaches root handle) : grammar.Fruitful handle :=
  fun _ _ hOther => hFruitful _ _ (hReaches.trans hOther)

theorem Fruitful.child {child : Handle} (hFruitful : grammar.Fruitful handle)
    (hNode : grammar.get? handle = some node) (hChild : child ∈ node.children) :
    grammar.Fruitful child := hFruitful.mono (reaches_child hNode hChild)

/-- Below a fruitful root every accepted string has a tree. -/
theorem Fruitful.exists_within {depth : Nat} {result : View.language.Result Λ}
    (hFruitful : grammar.Fruitful handle)
    (hMatch : grammar.within .language depth handle string result) :
    ∃ tree, grammar.within .trees depth handle string tree := by
  induction depth generalizing handle string result with
  | zero => exact hMatch.elim
  | succ depth ih =>
      obtain ⟨node, hNode, hMatch⟩ := hMatch
      rw [within_succ hNode]
      have hOwn := hFruitful handle node (Reaches.refl handle) hNode
      have ihChild {child : Handle} {string : List Λ.Token}
          {result : View.language.Result Λ} (hChild : child ∈ node.children) :=
        @ih child string result (hFruitful.child hNode hChild)
      cases node with
      | empty => exact hMatch.elim
      | eps forest =>
          obtain ⟨tree, hTree⟩ := hOwn
          exact ⟨tree, hMatch.1, hTree⟩
      | token matcher =>
          obtain ⟨token, rfl, hToken, -⟩ := hMatch
          exact ⟨.leaf token, token, rfl, hToken, Forest.mem_singleton.mpr rfl⟩
      | union left right =>
          rcases hMatch with hLeft | hRight
          · obtain ⟨tree, hTree⟩ := ihChild (by simp [Node.children]) hLeft
            exact ⟨tree, Or.inl hTree⟩
          · obtain ⟨tree, hTree⟩ := ihChild (by simp [Node.children]) hRight
            exact ⟨tree, Or.inr hTree⟩
      | sequence first second =>
          obtain ⟨start, rest, _, _, rfl, hFirst, hSecond, -⟩ := hMatch
          obtain ⟨left, hLeft⟩ := ihChild (by simp [Node.children]) hFirst
          obtain ⟨right, hRight⟩ := ihChild (by simp [Node.children]) hSecond
          exact ⟨.pair left right, start, rest, left, right, rfl, hLeft, hRight, rfl⟩
      | repetition inner =>
          change (grammar.within .language depth inner).iterated string result at hMatch
          induction hMatch with
          | stop _ => exact ⟨.list [], .stop (Forest.mem_singleton.mpr rfl)⟩
          | more hStart hInner _ _ ihRest =>
              obtain ⟨first, hFirst⟩ := ihChild (by simp [Node.children]) hInner
              obtain ⟨later, hLater⟩ := ihRest
              exact ⟨_, .more hStart hFirst hLater (Reducer.mem_apply_cons.mpr rfl)⟩
      | reduction inner reducer =>
          obtain ⟨_, hInner, -⟩ := hMatch
          obtain ⟨given, hGiven⟩ := ihChild (by simp [Node.children]) hInner
          obtain ⟨tree, hTree⟩ := hOwn.exists_mem_apply given
          exact ⟨tree, given, hGiven, hTree⟩
      | delegate target =>
          cases target with
          | none => exact hMatch.elim
          | some target => exact ihChild (by simp [Node.children]) hMatch

end Grammar

end DerivativeParsing
