import DerivativeParsing.Proofs.Tables

namespace DerivativeParsing

/-!
# Forests and what was asked before

A forest query uses the forests that the engine remembers as constants.  If it remembers
none of those in reach of the node, the query runs as on a new engine, pass by pass, and
finds the same trees even if it is stopped (`System.Agrees.solve_eq`).  If it does
remember some, a query that is not stopped still finds the same trees, since what is
remembered is exact (`forests_persist`).

A query that is stopped may find fewer.  Remembered nodes are not evaluated, so fewer
nodes count for its limit, and it is stopped after fewer passes (`forest_shrinks`).
-/

namespace Fixpoint

variable {κ ν : Type} [Ord κ] {inside : κ → Prop}

/-- An inquiry runs alike on replies that agree on the keys that it may ask for. -/
theorem Inquiry.run_congr {α : Type} {reply reply' : κ → Solving κ ν ν}
    (hReply : ∀ key, inside key → reply' key = reply key) (inquiry : Inquiry κ ν α)
    (hStays : inquiry.Stays inside) : inquiry.run reply' = inquiry.run reply := by
  induction inquiry with
  | answer result => rfl
  | fail fault => rfl
  | remark notes rest ih => simp only [Inquiry.run, ih hStays]
  | ask key next ih =>
      have hNext (value : ν) : (next value).run reply' = (next value).run reply :=
        ih value (hStays.2 value)
      simp only [Inquiry.run, hReply key hStays.1, hNext]

namespace System

variable {system system' : System κ ν} {root key : κ}

/-- Two systems have the same equations and know the same inside a set of keys, which the
equations do not leave. -/
structure Agrees (inside : κ → Prop) (system system' : System κ ν) : Prop where
  bottom : system'.bottom = system.bottom
  known : ∀ key, inside key → system'.known key = system.known key
  equation : ∀ key, inside key → system'.equation key = system.equation key
  stays : ∀ key, inside key → (system.equation key).Stays inside

variable [DecidableEq ν]

theorem Agrees.valueWithin_eq (hAgrees : Agrees inside system system') (depth : Nat)
    (hInside : inside key) :
    system'.valueWithin depth key = system.valueWithin depth key := by
  induction depth generalizing key with
  | zero => rfl
  | succ depth ih =>
      have hRun : (system.equation key).run (system'.valueWithin depth) =
          (system.equation key).run (system.valueWithin depth) :=
        Inquiry.run_congr (fun _ hAsked => ih hAsked) _ (hAgrees.stays key hInside)
      have hCurrent (progress : Progress κ ν) :
          system'.current progress key = system.current progress key := by
        simp only [current, hAgrees.bottom]
      simp only [valueWithin, hAgrees.known key hInside, hAgrees.equation key hInside, hRun,
        hCurrent]

theorem Agrees.passesFrom_eq (hAgrees : Agrees inside system system') (hRoot : inside root)
    (depth : Nat) (limit : PassLimit) (fuel number : Nat) :
    system'.passesFrom depth limit root fuel number =
      system.passesFrom depth limit root fuel number := by
  induction fuel generalizing number with
  | zero => rfl
  | succ fuel ih =>
      simp only [passesFrom, pass, hAgrees.valueWithin_eq depth hRoot, ih]

/-- Systems that agree are solved alike from a root inside. -/
theorem Agrees.solve_eq (hAgrees : Agrees inside system system') (hRoot : inside root)
    (budget : Budget) (limit : PassLimit) :
    system'.solve budget limit root = system.solve budget limit root := by
  simp only [solve, hAgrees.passesFrom_eq hRoot]

end System

end Fixpoint

/-- The forest equations of a root are the same as on a new engine if no forest in reach
is remembered. -/
theorem Grammar.agrees_emptyMatches {Λ : Lexicon} {grammar : Grammar Λ} {root : Handle}
    {known : Memo Handle (Forest Λ.Token)} (hValid : grammar.Valid root)
    (hUnknown : ∀ handle, grammar.Reaches root handle → known.peek? handle = none) :
    Fixpoint.System.Agrees (grammar.Reaches root) (grammar.emptyMatches known)
      (grammar.emptyMatches {}) where
  bottom := rfl
  known handle hReaches := (hUnknown handle hReaches).symm
  equation _ _ := rfl
  stays handle hReaches := by
    obtain ⟨node, hNode, -⟩ := hValid handle hReaches
    exact (safe_forestEquation hNode fun child hChild =>
      hReaches.trans (reaches_child hNode hChild)).stays

namespace Engine

variable {Λ : Lexicon} {engine : Engine Λ} {node : Handle}

/-- Whatever was asked before, a forest query finds what it finds on a new engine, if no
forest in reach is remembered, or if neither query was stopped and both remember what they
found.  In any case the trees of both are trees of the least solution. -/
theorem forests_persist (hReached : engine.Reached)
    (hLimit : 1 ≤ engine.configuration.forestPassLimit)
    (hNode : engine.grammar.validate node = .ok ()) :
    ∃ trees after trees' after',
      (forestOf node).run engine = .ok trees after ∧
      (forestOf node).run engine.renewed = .ok trees' after' ∧
      (∀ tree, tree ∈ trees ∨ tree ∈ trees' → engine.grammar.Bears node tree) ∧
      ((∀ handle, engine.grammar.Reaches node handle →
          engine.tables.forest.peek? handle = none) ∨
        after.tables.forest.peek? node ≠ none ∧ after'.tables.forest.peek? node ≠ none →
        trees = trees') := by
  have hInformed : engine.Informed := hReached.coherent.informed
  have hRenewed : engine.renewed.Informed := hReached.coherent.renewed.informed
  have hValid : engine.grammar.Valid node := Grammar.validate_eq_ok_iff.mp hNode
  have hLimited : engine.configuration.forestPassLimit ≠ 0 := by omega
  obtain ⟨trees, after, hRun, hSound, hComplete⟩ := exists_forestOf hInformed hValid hLimited
  obtain ⟨trees', after', hRun', hSound', hComplete'⟩ :=
    exists_forestOf hRenewed hValid hLimited
  refine ⟨trees, after, trees', after', hRun, hRun', ?_, ?_⟩
  · intro tree hTree
    exact hTree.elim (hSound tree) (hSound' tree)
  · rintro (hUnknown | ⟨hKept, hKept'⟩)
    · -- Both engines solve the same equations, so they find the same solution.
      have hPeek : engine.tables.forest.peek? node = none :=
        hUnknown node (Grammar.Reaches.refl node)
      obtain ⟨solution, notes, hSolve⟩ :=
        exists_solve_forest engine.tables.forest hValid hLimited
      have hSolve' : (engine.renewed.grammar.emptyMatches engine.renewed.tables.forest).solve
          (forestBudget engine.renewed) (forestLimit engine.renewed.configuration) node =
            (.ok solution, notes) :=
        ((Grammar.agrees_emptyMatches hValid hUnknown).solve_eq
          (Grammar.Reaches.refl node) _ _).trans hSolve
      have hFound : trees = solution.value :=
        ((attains_forestOf_of_solve hPeek hSolve).of_run hRun).1
      have hFound' : trees' = solution.value :=
        ((attains_forestOf_of_solve rfl hSolve').of_run hRun').1
      rw [hFound, hFound']
    · apply Forest.ext
      intro tree
      constructor
      · exact fun hTree => hComplete' hKept' tree (hSound tree hTree)
      · exact fun hTree => hComplete hKept tree (hSound' tree hTree)

end Engine

namespace Spiral

/-- The rule of the spiral. -/
def rule : Handle := ⟨2, 0⟩

/-- The nodes behind the rule: nothing, or the rule and then nothing. -/
def untied : Grammar Lexicon.characters :=
  let (rule, grammar) := Grammar.initial.delegate
  let (longer, grammar) := grammar.sequence rule Handle.eps
  (grammar.union Handle.eps longer).2

/-- A grammar whose only rule has infinitely many trees for the empty string. -/
def grammar : Grammar Lexicon.characters := untied.patch rule (.delegate (some ⟨4, 0⟩))

/-- A new engine over the grammar that stops forest queries as early as it may. -/
def engine : Engine Lexicon.characters :=
  { grammar := grammar, configuration := { forestPassLimit := 1 } }

/-- The engine once it was asked for the forest of the rule, and was stopped. -/
def stopped : Engine Lexicon.characters :=
  engine.afterwards (Engine.Call.forestOf rule).action

/-- The engine once it was asked for the forest of a node that the rule reaches. -/
def informed : Engine Lexicon.characters :=
  engine.afterwards (Engine.Call.forestOf Handle.eps).action

/-- What the rule reaches. -/
def nodes : List Handle := [rule, ⟨3, 0⟩, ⟨4, 0⟩, Handle.eps]

theorem reached : engine.Reached := by
  have hUntied : untied.Built := .alloc _ _ (.alloc _ _ (.alloc _ _ .initial))
  have hSet : untied.setTarget rule ⟨4, 0⟩ = .ok grammar := rfl
  exact .fresh _ _ (.setTarget hUntied hSet)

theorem reached_stopped : stopped.Reached :=
  reached.afterwards (.forestOf rule) (by decide +kernel) (by decide +kernel)

theorem reached_informed : informed.Reached :=
  reached.afterwards (.forestOf Handle.eps) (by decide +kernel) (by decide +kernel)

/-- A query that was stopped leaves no forest behind. -/
theorem unknown_stopped : ∀ handle, stopped.grammar.Reaches rule handle →
    stopped.tables.forest.peek? handle = none := by
  have hLayered : ∀ handle ∈ nodes, stopped.grammar.layered nodes handle = true := by
    decide +kernel
  have hUnknown : ∀ handle ∈ nodes, stopped.tables.forest.peek? handle = none := by
    decide +kernel
  intro handle hReaches
  exact hUnknown handle (Grammar.mem_of_layered hLayered List.mem_cons_self hReaches)

end Spiral

namespace Engine

theorem forests_persist_spiral :
    Spiral.stopped.Reached ∧ 1 ≤ Spiral.stopped.configuration.forestPassLimit ∧
      Spiral.stopped.grammar.validate Spiral.rule = .ok () ∧
      ∃ trees after after', (forestOf Spiral.rule).run Spiral.stopped = .ok trees after ∧
        (forestOf Spiral.rule).run Spiral.stopped.renewed = .ok trees after' := by
  have hLimit : 1 ≤ Spiral.stopped.configuration.forestPassLimit := by decide +kernel
  have hRule : Spiral.stopped.grammar.validate Spiral.rule = .ok () := by decide +kernel
  obtain ⟨trees, after, trees', after', hRun, hRun', -, hSame⟩ :=
    forests_persist Spiral.reached_stopped hLimit hRule
  obtain rfl := hSame (Or.inl Spiral.unknown_stopped)
  exact ⟨Spiral.reached_stopped, hLimit, hRule, trees, after, after', hRun, hRun'⟩

/-- A query that is stopped finds fewer trees once the engine remembers the forest of
another node. -/
theorem forest_shrinks :
    Spiral.informed.Reached ∧ 1 ≤ Spiral.informed.configuration.forestPassLimit ∧
      Spiral.informed.grammar.validate Spiral.rule = .ok () ∧
      ((forestOf Spiral.rule).run' Spiral.informed).map Forest.size = some 5 ∧
      ((forestOf Spiral.rule).run' Spiral.informed.renewed).map Forest.size = some 6 :=
  ⟨Spiral.reached_informed, by decide +kernel, by decide +kernel, by decide +kernel,
    by decide +kernel⟩

end Engine

end DerivativeParsing
