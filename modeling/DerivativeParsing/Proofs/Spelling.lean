import DerivativeParsing.Proofs.Correctness

namespace DerivativeParsing

/-!
# Parse trees spell the input

A tree spells the tokens at its leaves, from left to right.  Derivation and compaction move
tokens about: into `eps` forests, into the forests of `prepend` and `append`, into lists that
`cons` folds, and into compositions of all these.  The parse relation of the root knows
nothing of this, and every tree of a parse is in it; so the tokens are where they belong as
soon as the author's own forests and rewritings put none in and take none out.

* `Faithful` says so of a reducer, of a node and of everything that a root reaches.
* Under a faithful root a parse tree spells the string that it is a tree of
  (`Parses.leaves_eq`), by induction on the parse.
* Hence every tree of a parse spells the input (`parse_spells_input`), whether or not nodes
  are compacted on the way and forest queries are stopped.
-/

/-- A reducer keeps the tokens of a tree and their order: its rewritings do, and its forests
hold none. -/
def Reducer.Faithful {Λ : Lexicon} : Reducer Λ → Prop
  | map name => ∀ tree, (Λ.rewrite name tree).leaves = tree.leaves
  | prepend forest => ∀ tree ∈ forest, tree.leaves = []
  | append forest => ∀ tree ∈ forest, tree.leaves = []
  | cons => True
  | compose outer inner => outer.Faithful ∧ inner.Faithful

/-- The forest of a node holds no token, and its reducer keeps the tokens of a tree. -/
def Node.Faithful {Λ : Lexicon} : Node Λ → Prop
  | eps forest => ∀ tree ∈ forest, tree.leaves = []
  | reduction _ reducer => reducer.Faithful
  | _ => True

theorem Reducer.Faithful.leaves_eq {Λ : Lexicon} {reducer : Reducer Λ}
    (hFaithful : reducer.Faithful) {given tree : Tree Λ.Token}
    (hTree : tree ∈ reducer.apply given) : tree.leaves = given.leaves := by
  induction reducer generalizing given tree with
  | map name =>
      obtain rfl := mem_apply_map.mp hTree
      exact hFaithful given
  | prepend forest =>
      obtain ⟨left, hLeft, rfl⟩ := mem_apply_prepend.mp hTree
      rw [Tree.leaves_pair, hFaithful left hLeft, List.nil_append]
  | append forest =>
      obtain ⟨right, hRight, rfl⟩ := mem_apply_append.mp hTree
      rw [Tree.leaves_pair, hFaithful right hRight, List.append_nil]
  | cons =>
      obtain rfl := mem_apply_cons.mp hTree
      exact given.leaves_cons
  | compose outer inner ihOuter ihInner =>
      obtain ⟨between, hBetween, hTree⟩ := mem_apply_compose.mp hTree
      calc tree.leaves = between.leaves := ihOuter hFaithful.1 hTree
        _ = given.leaves := ihInner hFaithful.2 hBetween

namespace Grammar

variable {Λ : Lexicon} {grammar : Grammar Λ} {root handle : Handle} {node : Node Λ}
  {string : List Λ.Token} {tree : Tree Λ.Token}

/-- Every node that a root reaches is faithful. -/
def Faithful (grammar : Grammar Λ) (root : Handle) : Prop :=
  ∀ handle node, grammar.Reaches root handle → grammar.get? handle = some node →
    node.Faithful

theorem Faithful.child {child : Handle} (hFaithful : grammar.Faithful handle)
    (hNode : grammar.get? handle = some node) (hChild : child ∈ node.children) :
    grammar.Faithful child :=
  fun _ _ hReaches => hFaithful _ _ ((reaches_child hNode hChild).trans hReaches)

theorem Faithful.self (hFaithful : grammar.Faithful handle)
    (hNode : grammar.get? handle = some node) : node.Faithful :=
  hFaithful handle node (Reaches.refl handle) hNode

/-- A parse tree of a faithful node spells the string. -/
theorem Parses.leaves_eq (hParses : grammar.Parses handle string tree)
    (hFaithful : grammar.Faithful handle) : tree.leaves = string := by
  induction hParses with
  | eps hNode hTree => exact hFaithful.self hNode _ hTree
  | token _ _ => exact Tree.leaves_leaf _
  | left hNode _ ih => exact ih (hFaithful.child hNode (Node.mem_children_union.mpr (Or.inl rfl)))
  | right hNode _ ih =>
      exact ih (hFaithful.child hNode (Node.mem_children_union.mpr (Or.inr rfl)))
  | sequence hNode _ _ ihFirst ihSecond =>
      have hFirst := ihFirst (hFaithful.child hNode (Node.mem_children_sequence.mpr (Or.inl rfl)))
      have hSecond :=
        ihSecond (hFaithful.child hNode (Node.mem_children_sequence.mpr (Or.inr rfl)))
      rw [Tree.leaves_pair, hFirst, hSecond]
  | stop _ => simp
  | @more _ inner _ _ first trees hNode _ _ _ ihFirst ihRest =>
      have hFirst := ihFirst (hFaithful.child hNode (List.mem_singleton_self inner))
      have hRest := ihRest hFaithful
      rw [Tree.leaves_list] at hRest
      rw [Tree.leaves_list, List.flatMap_cons, hFirst, hRest]
  | @reduction _ inner _ _ given tree hNode _ hTree ih =>
      have hReducer : Node.Faithful (.reduction inner _) := hFaithful.self hNode
      calc tree.leaves = given.leaves := Reducer.Faithful.leaves_eq hReducer hTree
        _ = _ := ih (hFaithful.child hNode (List.mem_singleton_self inner))
  | @delegate _ target _ _ hNode _ ih =>
      exact ih (hFaithful.child hNode (List.mem_singleton_self target))

end Grammar

namespace Engine

variable {Λ : Lexicon} {engine : Engine Λ} {root : Handle}

/-- Every tree of a parse that has ended spells the input.  With a limit on forest queries
every parse ends. -/
theorem parse_spells_input (hReached : engine.Reached)
    (hRoot : engine.grammar.validate root = .ok ())
    (hGuarded : engine.grammar.Guarded root) (hFaithful : engine.grammar.Faithful root)
    (string : List Λ.Token) :
    (1 ≤ engine.configuration.forestPassLimit → ∃ result after,
      (parse root { tokens := string }).run engine = .ok result after) ∧
    ∀ result after, (parse root { tokens := string }).run engine = .ok result after →
      ∃ trees, result = .ok trees ∧ ∀ tree, tree ∈ trees → tree.leaves = string := by
  have hRun := attains_parse hReached.coherent id (absurd hGuarded) { tokens := string }
  constructor
  · intro hLimit
    obtain ⟨result, after, hRun, -⟩ := hRun.exists_run (Nat.one_le_iff_ne_zero.mp hLimit)
    exact ⟨result, after, hRun⟩
  · intro result after hEnded
    obtain ⟨-, hResult⟩ := hRun.of_run hEnded
    obtain ⟨trees, rfl, hTrees⟩ := hResult (Grammar.validate_eq_ok_iff.mp hRoot) rfl
    refine ⟨trees, rfl, fun tree hTree => ?_⟩
    have hParses : engine.grammar.Parses root string tree :=
      Grammar.parses_iff.mpr (hTrees.sound tree hTree)
    exact hParses.leaves_eq hFaithful

end Engine

namespace Chant

/-- The rule of the chant. -/
def rule : Handle := ⟨2, 0⟩

/-- The rule with an empty tree in front of its own. -/
def root : Handle := ⟨7, 0⟩

/-- The nodes behind the root: the rule, put into a list, and then a letter, or nothing. -/
def untied : Grammar Lexicon.characters :=
  let (rule, grammar) := Grammar.initial.delegate
  let (letter, grammar) := grammar.literal 'a'
  let (wrapped, grammar) := grammar.reduction rule (.map ⟨0, .wrap⟩ : Reducer Lexicon.characters)
  let (longer, grammar) := grammar.sequence wrapped letter
  let (_, grammar) := grammar.union longer Handle.eps
  (grammar.reduction rule (.prepend (Forest.singleton .nil))).2

def grammar : Grammar Lexicon.characters := untied.patch rule (.delegate (some ⟨6, 0⟩))

/-- What the root reaches. -/
def nodes : List Handle := [root, rule, ⟨3, 0⟩, ⟨4, 0⟩, ⟨5, 0⟩, ⟨6, 0⟩, Handle.eps]

theorem layered : ∀ handle ∈ nodes, grammar.layered nodes handle = true := by decide

theorem built : grammar.Built := by
  have hUntied : untied.Built :=
    .alloc _ _ (.alloc _ _ (.alloc _ _ (.alloc _ _ (.alloc _ _ (.alloc _ _ .initial)))))
  have hSet : untied.setTarget rule ⟨6, 0⟩ = .ok grammar := rfl
  exact .setTarget hUntied hSet

theorem validate_root : grammar.validate root = .ok () :=
  Grammar.validate_eq_ok_iff.mpr (Grammar.valid_of_layered layered List.mem_cons_self)

theorem guarded_root : grammar.Guarded root :=
  Grammar.guarded_of_layered layered List.mem_cons_self

/-- What every node that the root reaches satisfies, everything that it reaches does. -/
theorem forall_reached {holds : Node Lexicon.characters → Prop}
    (hOwn : ∀ handle ∈ nodes, ∃ node, grammar.get? handle = some node ∧ holds node)
    (handle : Handle) (node : Node Lexicon.characters) (hReaches : grammar.Reaches root handle)
    (hNode : grammar.get? handle = some node) : holds node := by
  obtain ⟨other, hOther, hHolds⟩ :=
    hOwn handle (Grammar.mem_of_layered layered List.mem_cons_self hReaches)
  obtain rfl := Option.some.inj (hNode.symm.trans hOther)
  exact hHolds

theorem faithful_root : grammar.Faithful root := by
  have hEmpty : ∀ tree ∈ (Forest.singleton .nil : Forest Char), tree.leaves = [] := by
    intro tree hTree
    rw [Forest.mem_singleton.mp hTree, Tree.leaves_nil]
  have hWrap (tree : Tree Char) : (Reshaping.wrap.apply tree).leaves = tree.leaves := by
    simp [Reshaping.apply]
  apply forall_reached
  simp only [nodes, List.forall_mem_cons]
  exact ⟨⟨_, rfl, hEmpty⟩, ⟨_, rfl, trivial⟩, ⟨_, rfl, trivial⟩, ⟨_, rfl, hWrap⟩,
    ⟨_, rfl, trivial⟩, ⟨_, rfl, trivial⟩, ⟨_, rfl, hEmpty⟩, nofun⟩

theorem fruitful_root : grammar.Fruitful root := by
  have hNil : ∃ tree, tree ∈ (Forest.singleton .nil : Forest Char) :=
    ⟨_, Forest.mem_singleton.mpr rfl⟩
  apply forall_reached
  simp only [nodes, List.forall_mem_cons]
  exact ⟨⟨_, rfl, hNil⟩, ⟨_, rfl, trivial⟩, ⟨_, rfl, trivial⟩, ⟨_, rfl, trivial⟩,
    ⟨_, rfl, trivial⟩, ⟨_, rfl, trivial⟩, ⟨_, rfl, hNil⟩, nofun⟩

/-- Two letters are a string of the root. -/
theorem accepts_root : grammar.Accepts root ['a', 'a'] := by
  have hNone : grammar.Accepts rule [] := .delegate rfl (.right rfl (.eps rfl))
  have hMore {string : List Char} (hString : grammar.Accepts rule string) :
      grammar.Accepts rule (string ++ ['a']) :=
    .delegate rfl (.left rfl (.sequence rfl (.reduction rfl hString) (.token rfl rfl)))
  exact .reduction rfl (hMore (hMore hNone))

/-- A new engine over the grammar. -/
def engine : Engine Lexicon.characters := { grammar := grammar }

theorem reached : engine.Reached := .fresh {} _ built

end Chant

namespace Engine

theorem parse_spells_input_chant :
    Chant.engine.Reached ∧ Chant.engine.grammar.validate Chant.root = .ok () ∧
      Chant.engine.grammar.Guarded Chant.root ∧ Chant.engine.grammar.Faithful Chant.root ∧
      ∃ trees after, (parse Chant.root { tokens := ['a', 'a'] }).run Chant.engine =
          .ok (.ok trees) after ∧
        (∃ tree, tree ∈ trees) ∧ ∀ tree, tree ∈ trees → tree.leaves = ['a', 'a'] := by
  obtain ⟨hEnds, hSpelled⟩ := parse_spells_input Chant.reached Chant.validate_root
    Chant.guarded_root Chant.faithful_root ['a', 'a']
  obtain ⟨result, after, hRun⟩ := hEnds (by decide)
  obtain ⟨trees, rfl, hTrees⟩ := hSpelled result after hRun
  -- The string is accepted and no forest in reach is empty, so there is a tree to speak of.
  obtain ⟨-, hGathered⟩ := (attains_parse Chant.reached.coherent id (absurd Chant.guarded_root)
    { tokens := ['a', 'a'] }).of_run hRun
  obtain ⟨_, hSame, hGathers⟩ :=
    hGathered (Grammar.validate_eq_ok_iff.mp Chant.validate_root) rfl
  cases hSame
  have hSome : ∃ tree, tree ∈ trees :=
    hGathers.fruitful Chant.fruitful_root (Grammar.accepts_iff.mp Chant.accepts_root)
  exact ⟨Chant.reached, Chant.validate_root, Chant.guarded_root, Chant.faithful_root, trees,
    after, hRun, hSome, hTrees⟩

end Engine

end DerivativeParsing
