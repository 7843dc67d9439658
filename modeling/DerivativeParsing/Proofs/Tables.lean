import DerivativeParsing.Proofs.Persistence

namespace DerivativeParsing

/-!
# Tables never dangle

Whatever an engine does with validated nodes, all that its tables mention is live, and a
forest that they hold is whole.  A collection forgets exactly what mentions a node that it
frees (`tables_never_dangle`).

The six tables are spoken of together: a finding is an entry of one of them.
-/

namespace Tables

variable {Λ : Lexicon} {tables : Tables Λ} {live : Handle → Bool}

/-- An entry of one of the tables. -/
inductive Finding (Λ : Lexicon) where
  | derive (step : Step Λ) (derivative : Handle)
  | compact (node compacted : Handle)
  | nullable (node : Handle) (value : Bool)
  | inhabited (node : Handle) (value : Bool)
  | consuming (node : Handle) (value : Bool)
  | forest (node : Handle) (trees : Forest Λ.Token)

/-- The handles that an entry mentions, in its key or in its value. -/
def Finding.handles : Finding Λ → List Handle
  | derive step derivative => [step.node, derivative]
  | compact node compacted => [node, compacted]
  | nullable node _ => [node]
  | inhabited node _ => [node]
  | consuming node _ => [node]
  | forest node _ => [node]

/-- The tables hold an entry. -/
def Holds (tables : Tables Λ) : Finding Λ → Prop
  | .derive step derivative => tables.derive.peek? step = some derivative
  | .compact node compacted => tables.compact.peek? node = some compacted
  | .nullable node value => tables.nullable.peek? node = some value
  | .inhabited node value => tables.inhabited.peek? node = some value
  | .consuming node value => tables.consuming.peek? node = some value
  | .forest node trees => tables.forest.peek? node = some trees

instance (tables : Tables Λ) (finding : Finding Λ) : Decidable (tables.Holds finding) :=
  match finding with
  | .derive _ _ => inferInstanceAs (Decidable (_ = _))
  | .compact _ _ => inferInstanceAs (Decidable (_ = _))
  | .nullable _ _ => inferInstanceAs (Decidable (_ = _))
  | .inhabited _ _ => inferInstanceAs (Decidable (_ = _))
  | .consuming _ _ => inferInstanceAs (Decidable (_ = _))
  | .forest _ _ => inferInstanceAs (Decidable (_ = _))

/-- A sweep of all tables keeps exactly the entries that mention live handles only. -/
theorem holds_sweep {finding : Finding Λ} :
    (tables.sweep live).2.2.Holds finding ↔
      tables.Holds finding ∧ ∀ handle ∈ finding.handles, live handle = true := by
  cases finding <;>
  · refine Memo.peek?_sweep_eq_some.trans (and_congr_right' ?_)
    exact List.forall_mem_append.symm

end Tables

namespace Engine

variable {Λ : Lexicon} {engine : Engine Λ}

/-- The tables of a coherent engine mention live handles only, since the nodes that they are
about are valid, and so are the derivatives and the compacted nodes. -/
theorem Coherent.contains_of_holds (hCoherent : engine.Coherent) {finding : Tables.Finding Λ}
    (hHolds : engine.tables.Holds finding) :
    ∀ handle ∈ finding.handles, engine.grammar.contains handle = true := by
  have hLive {handle : Handle} (hValid : engine.grammar.Valid handle) :
      engine.grammar.contains handle = true := by
    obtain ⟨node, hNode, -⟩ := hValid.get?
    exact Grammar.contains_eq_true_iff.mpr ⟨node, hNode⟩
  have hBoth (task : Task Λ) {node result : Handle}
      (hFound : task.remembered engine.tables node = some result) :
      ∀ handle ∈ [node, result], engine.grammar.contains handle = true := by
    obtain ⟨hValid, hResidual⟩ := hCoherent.recalled task node result hFound
    exact List.forall_mem_cons.mpr
      ⟨hLive hValid, List.forall_mem_singleton.mpr (hLive hResidual.valid)⟩
  have hInformed := hCoherent.informed
  cases finding with
  | derive step derivative => exact hBoth (.derive step.token) hHolds
  | compact node compacted => exact hBoth .compact hHolds
  | nullable node value =>
      exact List.forall_mem_singleton.mpr (hLive (hInformed.nullable node value hHolds).1)
  | inhabited node value =>
      exact List.forall_mem_singleton.mpr (hLive (hInformed.inhabited node value hHolds).1)
  | consuming node value =>
      exact List.forall_mem_singleton.mpr (hLive (hInformed.consuming node value hHolds).1)
  | forest node trees =>
      exact List.forall_mem_singleton.mpr (hLive (hInformed.forest node trees hHolds).1)

/-- A collection succeeds, and sweeps the tables by what is live after it. -/
theorem exists_run_collectGarbage (engine : Engine Λ) (roots : List Handle) :
    ∃ freed after, (collectGarbage roots).run engine = .ok freed after ∧
      after.tables = (engine.tables.sweep after.grammar.contains).2.2 :=
  ⟨_, _, rfl, rfl⟩

/-- All that the tables of an engine mention is live, and the forests in them are the least
solution of the forest equations.  A collection removes exactly the entries that mention a
handle which it frees. -/
theorem tables_never_dangle (hReached : engine.Reached) :
    (∀ finding, engine.tables.Holds finding →
      ∀ handle ∈ finding.handles, engine.grammar.contains handle = true) ∧
    (∀ node trees, engine.tables.Holds (.forest node trees) →
      ∀ tree, tree ∈ trees ↔ engine.grammar.Bears node tree) ∧
    ∀ roots, ∃ freed after, (collectGarbage roots).run engine = .ok freed after ∧
      ∀ finding, after.tables.Holds finding ↔ engine.tables.Holds finding ∧
        ¬ ∃ handle ∈ finding.handles, engine.grammar.contains handle = true ∧
          after.grammar.contains handle = false := by
  have hCoherent := hReached.coherent
  refine ⟨fun finding => hCoherent.contains_of_holds, fun node trees hHolds tree => ?_,
    fun roots => ?_⟩
  · exact ((hCoherent.informed.forest node trees hHolds).2 tree).trans
      Grammar.bears_iff.symm
  · obtain ⟨freed, after, hRun, hTables⟩ := engine.exists_run_collectGarbage roots
    refine ⟨freed, after, hRun, fun finding => ?_⟩
    rw [hTables, Tables.holds_sweep]
    refine and_congr_right fun hHolds => ?_
    -- All that the entry mentions was live, so what is not live any more was freed.
    have hBefore := hCoherent.contains_of_holds hHolds
    constructor
    · rintro hAfter ⟨handle, hHandle, -, hFreed⟩
      exact Bool.false_ne_true (hFreed.symm.trans (hAfter handle hHandle))
    · intro hKept handle hHandle
      by_contra hFreed
      exact hKept ⟨handle, hHandle, hBefore handle hHandle, Bool.not_eq_true _ ▸ hFreed⟩

end Engine

namespace Ladder

/-- The rule of the ladder. -/
def rule : Handle := ⟨2, 0⟩

/-- The nodes behind the rule: one letter and the rule again, or nothing. -/
def untied : Grammar Lexicon.characters :=
  let (rule, grammar) := Grammar.initial.delegate
  let (letter, grammar) := grammar.literal 'a'
  let (more, grammar) := grammar.sequence letter rule
  (grammar.union more Handle.eps).2

/-- A grammar whose only rule is right recursive. -/
def grammar : Grammar Lexicon.characters := untied.patch rule (.delegate (some ⟨5, 0⟩))

/-- A new engine over the grammar. -/
def engine : Engine Lexicon.characters := { grammar := grammar }

/-- The engine once it was asked for the trees of the empty string. -/
def asked : Engine Lexicon.characters :=
  engine.afterwards (Engine.Call.forestOf rule).action

/-- The engine once it has also taken a derivative of the rule. -/
def advanced : Engine Lexicon.characters :=
  asked.afterwards (Engine.Call.derive rule 'a').action

theorem built : grammar.Built := by
  have hUntied : untied.Built := .alloc _ _ (.alloc _ _ (.alloc _ _ (.alloc _ _ .initial)))
  have hSet : untied.setTarget rule ⟨5, 0⟩ = .ok grammar := rfl
  exact .setTarget hUntied hSet

theorem reached : engine.Reached := .fresh {} _ built

theorem reached_advanced : advanced.Reached := by
  have hAsked : asked.Reached :=
    reached.afterwards (.forestOf rule) (by decide +kernel) (by decide +kernel)
  exact hAsked.afterwards (.derive rule 'a') (by decide +kernel) (by decide +kernel)

end Ladder

namespace Engine

theorem tables_never_dangle_ladder :
    Ladder.advanced.Reached ∧
      Ladder.advanced.tables.Holds (.derive ⟨Ladder.rule, 'a'⟩ ⟨9, 0⟩) ∧
      Ladder.advanced.tables.Holds (.forest Ladder.rule (Forest.singleton .nil)) ∧
      Ladder.advanced.grammar.contains ⟨9, 0⟩ = true ∧
      Ladder.advanced.grammar.Bears Ladder.rule .nil ∧
      ∃ freed after, (collectGarbage []).run Ladder.advanced = .ok freed after ∧
        ¬ after.tables.Holds (.derive ⟨Ladder.rule, 'a'⟩ ⟨9, 0⟩) ∧
        after.tables.Holds (.forest Ladder.rule (Forest.singleton .nil)) := by
  have hDerive : Ladder.advanced.tables.Holds (.derive ⟨Ladder.rule, 'a'⟩ ⟨9, 0⟩) := by
    decide +kernel
  have hForest : Ladder.advanced.tables.Holds
      (.forest Ladder.rule (Forest.singleton .nil)) := by decide +kernel
  obtain ⟨hLive, hBears, hCollect⟩ := tables_never_dangle Ladder.reached_advanced
  have hBefore := hLive _ hDerive ⟨9, 0⟩ (by decide)
  obtain ⟨freed, after, hRun, hKept⟩ := hCollect []
  have hAfter : Ladder.advanced.afterwards (collectGarbage []) = after :=
    afterwards_of_run hRun
  have hFreed : after.grammar.contains ⟨9, 0⟩ = false := by
    rw [← hAfter]
    decide +kernel
  have hRule : after.grammar.contains Ladder.rule = true := by
    rw [← hAfter]
    decide +kernel
  refine ⟨Ladder.reached_advanced, hDerive, hForest, hBefore,
    (hBears _ _ hForest _).mp (Forest.mem_singleton.mpr rfl), freed, after, hRun,
    fun hHolds => ?_, (hKept _).mpr ⟨hForest, ?_⟩⟩
  · exact ((hKept _).mp hHolds).2 ⟨⟨9, 0⟩, by decide, hBefore, hFreed⟩
  · rintro ⟨handle, hHandle, -, hGone⟩
    obtain rfl := List.mem_singleton.mp hHandle
    exact Bool.false_ne_true (hGone.symm.trans hRule)

end Engine

end DerivativeParsing
