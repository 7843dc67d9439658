import DerivativeParsing.Proofs.Analysis.Trichotomy

namespace DerivativeParsing

/-!
# The rules of compaction

Apart from what it asks about nodes, compaction reads and writes a grammar and the table of
compacted nodes: a draft.  `Compacts source draft node draft' result` says that compacting a
node of the source leads from one draft to another with a result, with one rule for every way
to compact a node.  Queries are replaced by the classes of nodes that they decide, and which
trees a node carries is left open.
-/

variable {Λ : Lexicon}

namespace Grammar

variable {grammar : Grammar Λ} {node inner kept : Handle} {reducer : Reducer Λ}

/-- What a node becomes whatever its parts are: a node without matches, one with empty matches
only, or a token. -/
inductive Settles (grammar : Grammar Λ) (node : Handle) : Node Λ → Prop
  | barren : ¬ grammar.Inhabited node → Settles grammar node .empty
  | nullOnly (forest : Forest Λ.Token) : grammar.NullOnly node →
      Settles grammar node (.eps forest)
  | token {matcher : Matcher Λ} : grammar.get? node = some (.token matcher) →
      Settles grammar node (.token matcher)

/-- A union with an operand that has no match is as good as the other operand. -/
inductive Passes (grammar : Grammar Λ) (node : Handle) : Handle → Prop
  | left {left right : Handle} : grammar.get? node = some (.union left right) →
      ¬ grammar.Inhabited right → Passes grammar node left
  | right {left right : Handle} : grammar.get? node = some (.union left right) →
      ¬ grammar.Inhabited left → Passes grammar node right

/-- A reduction passes the trees of its inner node on, and so does a sequence with an operand
that matches only the empty string. -/
inductive Reduces (grammar : Grammar Λ) (node : Handle) : Handle → Reducer Λ → Prop
  | reduction {inner : Handle} {reducer : Reducer Λ} :
      grammar.get? node = some (.reduction inner reducer) → Reduces grammar node inner reducer
  | prepend {first second : Handle} (forest : Forest Λ.Token) :
      grammar.get? node = some (.sequence first second) → grammar.NullOnly first →
      Reduces grammar node second (.prepend forest)
  | append {first second : Handle} (forest : Forest Λ.Token) :
      grammar.get? node = some (.sequence first second) → grammar.NullOnly second →
      Reduces grammar node first (.append forest)

theorem Passes.plain (hPasses : grammar.Passes node kept) : grammar.Plain node kept := by
  cases hPasses with
  | left hNode _ => exact ⟨_, hNode, rfl, Node.mem_children_union.mpr (Or.inl rfl)⟩
  | right hNode _ => exact ⟨_, hNode, rfl, Node.mem_children_union.mpr (Or.inr rfl)⟩

theorem Reduces.plain (hReduces : grammar.Reduces node inner reducer) :
    grammar.Plain node inner := by
  cases hReduces with
  | reduction hNode => exact ⟨_, hNode, rfl, List.mem_singleton_self _⟩
  | prepend _ hNode _ => exact ⟨_, hNode, rfl, Node.mem_children_sequence.mpr (Or.inr rfl)⟩
  | append _ hNode _ => exact ⟨_, hNode, rfl, Node.mem_children_sequence.mpr (Or.inl rfl)⟩

theorem Reduces.consuming (hReduces : grammar.Reduces node inner reducer)
    (hConsuming : grammar.Consuming node) : grammar.Consuming inner := by
  cases hReduces with
  | reduction hNode => exact (consuming_iff hNode).mp hConsuming
  | prepend forest hNode hNull =>
      rcases (consuming_iff hNode).mp hConsuming with ⟨hFirst, -⟩ | ⟨hSecond, -⟩
      · exact absurd hFirst hNull.2
      · exact hSecond
  | append forest hNode hNull =>
      rcases (consuming_iff hNode).mp hConsuming with ⟨hFirst, -⟩ | ⟨hSecond, -⟩
      · exact hFirst
      · exact absurd hSecond hNull.2

/-- A reduction of a node, folded into one if the node is a reduction itself. -/
def fused (grammar : Grammar Λ) (inner : Handle) (reducer : Reducer Λ) : Node Λ :=
  match grammar.get? inner with
  | some (.reduction innermost innerReducer) =>
      .reduction innermost (.compose reducer innerReducer)
  | _ => .reduction inner reducer

end Grammar

/-- What compaction reads and writes: a grammar, and the compacted nodes so far. -/
@[ext]
structure Draft (Λ : Lexicon) where
  grammar : Grammar Λ
  recalled : Handle → Option Handle

namespace Draft

variable {source : Grammar Λ} {draft draft' draft₁ draft₂ : Draft Λ}
  {node result : Handle}

/-- The handle of the node that is built next. -/
def next (draft : Draft Λ) : Handle := draft.grammar.nextHandle

/-- Build a node. -/
def alloc (draft : Draft Λ) (node : Node Λ) : Draft Λ :=
  { draft with grammar := (draft.grammar.alloc node .derived).2 }

/-- Remember a compacted node. -/
def note (draft : Draft Λ) (node result : Handle) : Draft Λ :=
  { draft with recalled := fun other => if other = node then some result else draft.recalled other }

/-- Point a placeholder at its target. -/
def fill (draft : Draft Λ) (placeholder target : Handle) : Draft Λ :=
  { draft with grammar := draft.grammar.patch placeholder (.delegate (some target)) }

/-- Compacting a node of the source leads from one draft to another. -/
inductive Compacts (source : Grammar Λ) : Draft Λ → Handle → Draft Λ → Handle → Prop
  | recalled {draft : Draft Λ} {node result : Handle} :
      draft.recalled node = some result → Compacts source draft node draft result
  | kept {draft : Draft Λ} {node result : Handle} {leaf : Node Λ} :
      draft.recalled node = none → source.Settles node leaf →
      draft.grammar.get? result = some leaf →
      Compacts source draft node (draft.note node result) result
  | made {draft : Draft Λ} {node : Handle} {leaf : Node Λ} :
      draft.recalled node = none → source.Settles node leaf →
      Compacts source draft node ((draft.alloc leaf).note node draft.next) draft.next
  | passed {draft draft₁ : Draft Λ} {node kept result : Handle} :
      draft.recalled node = none → source.Consuming node → source.Passes node kept →
      Compacts source draft kept draft₁ result →
      Compacts source draft node (draft₁.note node result) result
  | union {draft draft₁ draft₂ : Draft Λ} {node left right left' right' : Handle} :
      draft.recalled node = none → source.Consuming node →
      source.get? node = some (.union left right) →
      source.Inhabited left → source.Inhabited right →
      Compacts source draft left draft₁ left' → Compacts source draft₁ right draft₂ right' →
      Compacts source draft node ((draft₂.alloc (.union left' right')).note node draft₂.next)
        draft₂.next
  | sequence {draft draft₁ draft₂ : Draft Λ} {node first second first' second' : Handle} :
      draft.recalled node = none → source.Consuming node →
      source.get? node = some (.sequence first second) →
      source.Consuming first → source.Consuming second →
      Compacts source draft first draft₁ first' → Compacts source draft₁ second draft₂ second' →
      Compacts source draft node
        ((draft₂.alloc (.sequence first' second')).note node draft₂.next) draft₂.next
  | repetition {draft draft₁ : Draft Λ} {node inner inner' : Handle} :
      draft.recalled node = none → source.Consuming node →
      source.get? node = some (.repetition inner) →
      Compacts source draft inner draft₁ inner' →
      Compacts source draft node ((draft₁.alloc (.repetition inner')).note node draft₁.next)
        draft₁.next
  | reduced {draft draft₁ : Draft Λ} {node inner inner' : Handle} {reducer : Reducer Λ} :
      draft.recalled node = none → source.Consuming node → source.Reduces node inner reducer →
      Compacts source draft inner draft₁ inner' →
      Compacts source draft node
        ((draft₁.alloc (draft₁.grammar.fused inner' reducer)).note node draft₁.next) draft₁.next
  | delegate {draft draft₁ : Draft Λ} {node target result : Handle} :
      draft.recalled node = none → source.Consuming node →
      source.get? node = some (.delegate (some target)) →
      Compacts source ((draft.alloc (.delegate none)).note node draft.next) target draft₁ result →
      Compacts source draft node ((draft₁.fill draft.next result).note node result) result

theorem recalled_note (draft : Draft Λ) (node result other : Handle) :
    (draft.note node result).recalled other =
      if other = node then some result else draft.recalled other := rfl

theorem keeps_alloc (draft : Draft Λ) (node : Node Λ) :
    draft.grammar.Keeps (draft.alloc node).grammar := Grammar.keeps_alloc _ _ _

theorem get?_alloc_next (draft : Draft Λ) (node : Node Λ) :
    (draft.alloc node).grammar.get? draft.next = some node := by
  show (draft.grammar.alloc node .derived).2.get? draft.grammar.nextHandle = some node
  rw [Grammar.get?_alloc, if_pos rfl]

/-- A placeholder stays open as long as only other nodes are built. -/
theorem get?_next_of_keeps (hKeeps : (draft.alloc (.delegate none)).grammar.Keeps draft₁.grammar) :
    draft₁.grammar.get? draft.next = some (.delegate none) := hKeeps.get?_opened

/-- A placeholder was not there before it was opened, so filling it leaves alone what was. -/
theorem keeps_fill (hKeeps : (draft.alloc (.delegate none)).grammar.Keeps draft₁.grammar)
    (target : Handle) : draft.grammar.Keeps (draft₁.fill draft.next target).grammar :=
  hKeeps.patch_opened target

/-- Compaction changes no node that was there before. -/
theorem Compacts.keeps (hCompacts : Compacts source draft node draft' result) :
    draft.grammar.Keeps draft'.grammar := by
  induction hCompacts with
  | recalled _ => exact Grammar.Keeps.refl _
  | kept _ _ _ => exact Grammar.Keeps.refl _
  | made _ _ => exact Grammar.keeps_alloc _ _ _
  | passed _ _ _ _ ih => exact ih
  | union _ _ _ _ _ _ _ ihLeft ihRight =>
      exact (ihLeft.trans ihRight).trans (Grammar.keeps_alloc _ _ _)
  | sequence _ _ _ _ _ _ _ ihFirst ihSecond =>
      exact (ihFirst.trans ihSecond).trans (Grammar.keeps_alloc _ _ _)
  | repetition _ _ _ _ ih => exact ih.trans (Grammar.keeps_alloc _ _ _)
  | reduced _ _ _ _ ih => exact ih.trans (Grammar.keeps_alloc _ _ _)
  | delegate _ _ _ _ ih => exact keeps_fill ih _

end Draft

end DerivativeParsing
