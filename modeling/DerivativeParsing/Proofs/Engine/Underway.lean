import DerivativeParsing.Engine.Compaction
import DerivativeParsing.Proofs.Engine.Query
import DerivativeParsing.Proofs.Residual.Representation
import DerivativeParsing.Proofs.Residual.Unfolding

namespace DerivativeParsing

/-!
# Building residuals, step by step

Derivation and compaction are two tasks of one kind: each takes residuals by a word of
its own, keeps them in a table of its own, opens a placeholder at every delegate it
enters and closes it on the way back.  What an engine looks like in the middle of a task
is said once, for both.

* `Coherent` is the state between tasks: every remembered result is a residual.
* `Underway` is the state within a task: the nodes of the grammar at the start are
  untouched, and every remembered result represents a residual, up to the knots that
  were opened.
* `Advances` relates two states within a task: more is built and remembered, and every
  knot that was opened in between is tied.
* `Yields` is what a step of the task gives: an engine that has advanced, and a node that
  represents a plan.

The number of delegates without a remembered result goes down with every delegate that
is entered (`unmet_note_lt`), which is why a task ends.
-/

open Fixpoint

/-- What residuals are taken for: the derivative by a token, or compaction. -/
inductive Task (Λ : Lexicon) where
  | derive (token : Λ.Token)
  | compact

namespace Task

variable {Λ : Lexicon}

/-- The word that a task takes residuals by. -/
def word : Task Λ → List Λ.Token
  | derive token => [token]
  | compact => []

/-- The result that is remembered for a node. -/
def remembered : Task Λ → Tables Λ → Handle → Option Handle
  | derive token, tables, node => tables.derive.peek? ⟨node, token⟩
  | compact, tables, node => tables.compact.peek? node

/-- The tables with a result remembered for a node. -/
def note : Task Λ → Tables Λ → Handle → Handle → Tables Λ
  | derive token, tables, node, result =>
      { tables with derive := tables.derive.insert ⟨node, token⟩ result }
  | compact, tables, node, result =>
      { tables with compact := tables.compact.insert node result }

theorem remembered_note (task : Task Λ) (tables : Tables Λ) (node result other : Handle) :
    task.remembered (task.note tables node result) other =
      if other = node then some result else task.remembered tables other := by
  classical
  cases task with
  | derive token =>
      rw [remembered, note, Memo.peek?_insert, remembered]
      simp only [Step.mk.injEq, and_true]
  | compact => rw [remembered, note, Memo.peek?_insert, remembered]

/-- A task leaves the results of the other tasks alone. -/
theorem remembered_note_of_ne {task other : Task Λ} (hOther : other ≠ task)
    (tables : Tables Λ) (node result handle : Handle) :
    other.remembered (task.note tables node result) handle = other.remembered tables handle := by
  classical
  cases task with
  | derive token =>
      cases other with
      | derive token' =>
          rw [remembered, note, Memo.peek?_insert, if_neg, remembered]
          intro hSame
          cases hSame
          exact hOther rfl
      | compact => rfl
  | compact =>
      cases other with
      | derive token' => rfl
      | compact => exact absurd rfl hOther

/-- The delegates of a grammar for which no result is remembered yet. -/
def unmet (task : Task Λ) (grammar : Grammar Λ) (tables : Tables Λ) : Nat :=
  grammar.handles.countP fun handle =>
    (grammar.get? handle).any Node.isDelegate && (task.remembered tables handle).isNone

theorem unmet_le (task : Task Λ) (grammar : Grammar Λ) (tables : Tables Λ) :
    task.unmet grammar tables ≤ grammar.capacity :=
  le_trans List.countP_le_length grammar.length_handles_le

theorem unmet_mono {task : Task Λ} {grammar : Grammar Λ} {before after : Tables Λ}
    (hRecalled : ∀ node, task.remembered before node ≠ none → task.remembered after node ≠ none) :
    task.unmet grammar after ≤ task.unmet grammar before := by
  apply List.countP_mono_left
  intro handle _ hUnmet
  rw [Bool.and_eq_true, Option.isNone_iff_eq_none] at hUnmet ⊢
  exact ⟨hUnmet.1, by_contra fun hBefore => hRecalled handle hBefore hUnmet.2⟩

/-- Entering a delegate leaves one less to be entered. -/
theorem unmet_note_lt {task : Task Λ} {grammar : Grammar Λ} {tables : Tables Λ}
    {node result : Handle} {target : Option Handle}
    (hNode : grammar.get? node = some (.delegate target))
    (hNew : task.remembered tables node = none) :
    task.unmet grammar (task.note tables node result) < task.unmet grammar tables := by
  refine countP_lt_countP ?_ (Grammar.mem_handles_of_get? hNode) ?_ ?_
  · intro other _ hUnmet
    rw [Bool.and_eq_true, Option.isNone_iff_eq_none, remembered_note] at hUnmet
    split at hUnmet
    · cases hUnmet.2
    · rw [Bool.and_eq_true, Option.isNone_iff_eq_none]
      exact hUnmet
  · rw [remembered_note, if_pos rfl]
    simp
  · rw [hNode, hNew]
    rfl

/-- A delegate without a remembered result is still to be entered. -/
theorem unmet_pos {task : Task Λ} {grammar : Grammar Λ} {tables : Tables Λ}
    {handle : Handle} {node : Node Λ} (hNode : grammar.get? handle = some node)
    (hDelegate : node.isDelegate = true) (hNew : task.remembered tables handle = none) :
    0 < task.unmet grammar tables := by
  refine List.countP_pos_iff.mpr ⟨handle, Grammar.mem_handles_of_get? hNode, ?_⟩
  rw [hNode, hNew]
  exact Bool.and_eq_true_iff.mpr ⟨hDelegate, rfl⟩

/-- A task's results are in none of the tables about nodes. -/
theorem retains_note (task : Task Λ) (tables : Tables Λ) (node result : Handle) :
    tables.Retains (fun _ => True) (task.note tables node result) := by
  cases task <;> exact ⟨fun _ _ h => ⟨h, trivial⟩, fun _ _ h => ⟨h, trivial⟩,
    fun _ _ h => ⟨h, trivial⟩, fun _ _ h => ⟨h, trivial⟩⟩

end Task

theorem Tables.Retains.refl {Λ : Lexicon} (tables : Tables Λ) :
    tables.Retains (fun _ => True) tables :=
  ⟨fun _ _ h => ⟨h, trivial⟩, fun _ _ h => ⟨h, trivial⟩, fun _ _ h => ⟨h, trivial⟩,
    fun _ _ h => ⟨h, trivial⟩⟩

namespace Engine

variable {Λ : Lexicon} {excused : Prop} {task : Task Λ} {start engine before after : Engine Λ}
  {knots knots' : Handle → Handle → Prop} {plan : Plan Λ} {node result : Handle}

/-- Everything that an engine remembers is right. -/
structure Coherent (engine : Engine Λ) : Prop where
  founded : engine.grammar.Founded
  informed : engine.Informed
  recalled : ∀ (task : Task Λ) node result, task.remembered engine.tables node = some result →
    engine.grammar.Valid node ∧
      Grammar.Residual engine.Untruncated engine.grammar engine.grammar task.word node result

/-- The state of an engine within a task that began in the state `start`. -/
structure Underway (task : Task Λ) (start : Engine Λ) (knots : Handle → Handle → Prop)
    (engine : Engine Λ) : Prop where
  configuration : engine.configuration = start.configuration
  keeps : start.grammar.Keeps engine.grammar
  journal : start.journal <:+ engine.journal
  informed : engine.Informed
  recalled : ∀ node result, task.remembered engine.tables node = some result →
    start.grammar.Valid node ∧
      Grammar.Represents engine.Untruncated start.grammar engine.grammar task.word knots
        (.residual node) result
  others : ∀ other : Task Λ, other ≠ task → ∀ node,
    other.remembered engine.tables node = other.remembered start.tables node
  placeholders : ∀ node handle, knots node handle →
    ∃ target, engine.grammar.get? handle = some (.delegate target)

/-- A task goes on from one state to another. -/
structure Advances (task : Task Λ) (start : Engine Λ) (knots : Handle → Handle → Prop)
    (before : Engine Λ) (knots' : Handle → Handle → Prop) (after : Engine Λ) : Prop where
  keeps : before.grammar.Keeps after.grammar
  journal : before.journal <:+ after.journal
  recalled : ∀ node, task.remembered before.tables node ≠ none →
    task.remembered after.tables node ≠ none
  opened : ∀ node handle, knots node handle → knots' node handle
  tied : ∀ node handle, knots' node handle → knots node handle ∨
    Grammar.Tied after.Untruncated start.grammar after.grammar task.word knots' node handle

/-- A step of a task gives a node that represents a plan. -/
def Yields (task : Task Λ) (start : Engine Λ) (plan : Plan Λ)
    (knots : Handle → Handle → Prop) (before : Engine Λ) (result : Handle)
    (after : Engine Λ) : Prop :=
  ∃ knots', Underway task start knots' after ∧
    Advances task start knots before knots' after ∧
    Grammar.Represents after.Untruncated start.grammar after.grammar task.word knots' plan
      result

theorem Advances.refl : Advances task start knots engine knots engine where
  keeps := Grammar.Keeps.refl _
  journal := List.suffix_rfl
  recalled _ := id
  opened _ _ := id
  tied _ _ := Or.inl

theorem Advances.trans {middle : Engine Λ} {between : Handle → Handle → Prop}
    (hFirst : Advances task start knots before between middle)
    (hSecond : Advances task start between middle knots' after) :
    Advances task start knots before knots' after where
  keeps := hFirst.keeps.trans hSecond.keeps
  journal := hFirst.journal.trans hSecond.journal
  recalled node hBefore := hSecond.recalled node (hFirst.recalled node hBefore)
  opened node handle hKnot := hSecond.opened node handle (hFirst.opened node handle hKnot)
  tied node handle hKnot := by
    rcases hSecond.tied node handle hKnot with hBetween | hTied
    · rcases hFirst.tied node handle hBetween with hBefore | hTied
      · exact Or.inl hBefore
      · exact Or.inr (hTied.grow (fun h => h.of_suffix hSecond.journal)
          hSecond.keeps.grows hSecond.opened)
    · exact Or.inr hTied

/-- A node goes on representing its plan as the task goes on. -/
theorem Advances.represents (hAdvances : Advances task start knots before knots' after)
    (hRepresents : Grammar.Represents before.Untruncated start.grammar before.grammar
      task.word knots plan result) :
    Grammar.Represents after.Untruncated start.grammar after.grammar task.word knots' plan
      result :=
  hRepresents.grow (fun h => h.of_suffix hAdvances.journal)
    hAdvances.keeps.grows hAdvances.opened

/-- The delegates that are still to be entered do not get more as a task goes on. -/
theorem Advances.unmet_le (hAdvances : Advances task start knots before knots' after)
    (grammar : Grammar Λ) : task.unmet grammar after.tables ≤ task.unmet grammar before.tables :=
  Task.unmet_mono hAdvances.recalled

/-- A change of the grammar that keeps its nodes keeps an engine informed. -/
theorem Informed.grows {grammar : Grammar Λ} {tables : Tables Λ} (hInformed : engine.Informed)
    (hGrows : engine.grammar.Grows grammar)
    (hTables : engine.tables.Retains (fun _ => True) tables) :
    Informed { engine with grammar := grammar, tables := tables } :=
  hInformed.retain hTables fun _ hValid _ => hValid.agrees hGrows

/-- Queries leave the results of all tasks alone. -/
theorem Consulted.remembered (hConsulted : before.Consulted after) (task : Task Λ)
    (node : Handle) : task.remembered after.tables node = task.remembered before.tables node := by
  cases task with
  | derive token => exact hConsulted.derive ⟨node, token⟩
  | compact => exact hConsulted.compact node

section Steps

/-- Queries within a task. -/
theorem Underway.consulted (hUnderway : Underway task start knots before)
    (hConsulted : before.Consulted after) :
    Underway task start knots after ∧ Advances task start knots before knots after := by
  have hRecall := hConsulted.remembered
  have hKeeps : before.grammar.Keeps after.grammar := by
    rw [hConsulted.grammar]
    exact Grammar.Keeps.refl _
  have hAdvances : Advances task start knots before knots after :=
    ⟨hKeeps, hConsulted.journal, fun node h => by rwa [hRecall], fun _ _ => id,
      fun _ _ => Or.inl⟩
  refine ⟨⟨hConsulted.configuration.trans hUnderway.configuration,
    hUnderway.keeps.trans hKeeps, hUnderway.journal.trans hConsulted.journal,
    hConsulted.informed, ?_, ?_, ?_⟩, hAdvances⟩
  · intro node result hRecalled
    rw [hRecall] at hRecalled
    obtain ⟨hValid, hResult⟩ := hUnderway.recalled node result hRecalled
    exact ⟨hValid, hAdvances.represents hResult⟩
  · intro other hOther node
    rw [hRecall]
    exact hUnderway.others other hOther node
  · intro node handle hKnot
    rw [hConsulted.grammar]
    exact hUnderway.placeholders node handle hKnot

/-- A node is built within a task. -/
theorem Underway.allocated (hUnderway : Underway task start knots engine) (node : Node Λ) :
    Underway task start knots
        { engine with grammar := (engine.grammar.alloc node .derived).2 } ∧
      Advances task start knots engine knots
        { engine with grammar := (engine.grammar.alloc node .derived).2 } := by
  have hKeeps := engine.grammar.keeps_alloc node .derived
  have hAdvances : Advances task start knots engine knots
      { engine with grammar := (engine.grammar.alloc node .derived).2 } :=
    ⟨hKeeps, List.suffix_rfl, fun _ => id, fun _ _ => id, fun _ _ => Or.inl⟩
  refine ⟨⟨hUnderway.configuration, hUnderway.keeps.trans hKeeps, hUnderway.journal,
    hUnderway.informed.grows hKeeps.grows (Tables.Retains.refl _), ?_, hUnderway.others, ?_⟩,
    hAdvances⟩
  · intro node result hRecalled
    obtain ⟨hValid, hResult⟩ := hUnderway.recalled node result hRecalled
    exact ⟨hValid, hAdvances.represents hResult⟩
  · intro node handle hKnot
    obtain ⟨target, hTarget⟩ := hUnderway.placeholders node handle hKnot
    exact ⟨target, hKeeps.get? hTarget⟩

theorem get?_allocated (engine : Engine Λ) (node : Node Λ) :
    (engine.grammar.alloc node .derived).2.get? engine.grammar.nextHandle = some node := by
  rw [Grammar.get?_alloc, if_pos rfl]

/-- A result is remembered within a task. -/
theorem Underway.noted (hUnderway : Underway task start knots engine)
    (hValid : start.grammar.Valid node)
    (hResult : Grammar.Represents engine.Untruncated start.grammar engine.grammar task.word
      knots (.residual node) result) :
    Underway task start knots
        { engine with tables := task.note engine.tables node result } ∧
      Advances task start knots engine knots
        { engine with tables := task.note engine.tables node result } := by
  refine ⟨⟨hUnderway.configuration, hUnderway.keeps, hUnderway.journal,
    hUnderway.informed.grows (Grammar.Keeps.refl _).grows (Task.retains_note _ _ _ _), ?_, ?_,
    hUnderway.placeholders⟩, Grammar.Keeps.refl _, List.suffix_rfl, ?_, fun _ _ => id,
    fun _ _ => Or.inl⟩
  · intro other found hFound
    rw [Task.remembered_note] at hFound
    split at hFound
    · next hSame =>
        subst hSame
        cases hFound
        exact ⟨hValid, hResult⟩
    · exact hUnderway.recalled other found hFound
  · intro other hOther handle
    rw [Task.remembered_note_of_ne hOther]
    exact hUnderway.others other hOther handle
  · intro other hBefore
    rw [Task.remembered_note]
    split
    · simp
    · exact hBefore

/-- A placeholder is opened for a delegate: from now on it is the delegate's result. -/
theorem Underway.openKnot (hUnderway : Underway task start knots engine)
    (hValid : start.grammar.Valid node) :
    Underway task start
      (fun other handle => knots other handle ∨
        other = node ∧ handle = engine.grammar.nextHandle)
      { engine with
        grammar := (engine.grammar.alloc (.delegate none) .derived).2
        tables := task.note engine.tables node engine.grammar.nextHandle } := by
  obtain ⟨hAlloc, hAdvances⟩ := hUnderway.allocated (.delegate none)
  have hOpened : Underway task start
      (fun other handle => knots other handle ∨
        other = node ∧ handle = engine.grammar.nextHandle)
      { engine with grammar := (engine.grammar.alloc (.delegate none) .derived).2 } := by
    refine ⟨hAlloc.configuration, hAlloc.keeps, hAlloc.journal, hAlloc.informed, ?_,
      hAlloc.others, ?_⟩
    · intro other found hFound
      obtain ⟨hOther, hResult⟩ := hAlloc.recalled other found hFound
      exact ⟨hOther, hResult.grow id (fun _ _ h _ => h) fun _ _ => Or.inl⟩
    · rintro other handle (hKnot | ⟨-, rfl⟩)
      · exact hAlloc.placeholders other handle hKnot
      · exact ⟨none, get?_allocated engine _⟩
  exact (hOpened.noted hValid (.knot (Or.inr ⟨rfl, rfl⟩))).1

/-- The placeholder is closed: it points at the result of the delegate's target. -/
theorem Underway.closeKnot {middle : Engine Λ} {target : Handle}
    (hUnderway : Underway task start knots engine)
    (hNode : start.grammar.get? node = some (.delegate (some target)))
    (hMiddle : Underway task start knots' middle)
    (hAdvances : Advances task start
      (fun other handle => knots other handle ∨
        other = node ∧ handle = engine.grammar.nextHandle)
      { engine with
        grammar := (engine.grammar.alloc (.delegate none) .derived).2
        tables := task.note engine.tables node engine.grammar.nextHandle } knots' middle)
    (hResult : Grammar.Represents middle.Untruncated start.grammar middle.grammar task.word
      knots' (.residual target) result) :
    Yields task start (.residual node) knots engine result
      { middle with grammar :=
          middle.grammar.patch engine.grammar.nextHandle (.delegate (some result)) } := by
  have hUnset : middle.grammar.get? engine.grammar.nextHandle = some (.delegate none) :=
    hAdvances.keeps.get? (get?_allocated engine _)
  have hGrows := Grammar.grows_patch hUnset (.delegate (some result))
  have hPatched := Grammar.get?_patch hUnset (.delegate (some result))
  -- The placeholder was not there when the delegate was entered, so patching it leaves
  -- alone what was.
  have hKeeps : engine.grammar.Keeps
      (middle.grammar.patch engine.grammar.nextHandle (.delegate (some result))) := by
    intro handle slot hSlot
    obtain ⟨unset, hUnset, -⟩ := Grammar.get?_eq_some_iff.mp hUnset
    rw [Grammar.slot?_patch hUnset, if_neg]
    · exact hAdvances.keeps handle slot (engine.grammar.keeps_alloc _ _ handle slot hSlot)
    · rintro rfl
      rw [Grammar.slot?_nextHandle] at hSlot
      cases hSlot
  have hRepresents {plan : Plan Λ} {handle : Handle}
      (hHandle : Grammar.Represents middle.Untruncated start.grammar middle.grammar
        task.word knots' plan handle) :
      Grammar.Represents middle.Untruncated start.grammar
        (middle.grammar.patch engine.grammar.nextHandle (.delegate (some result)))
        task.word knots' plan handle :=
    hHandle.grow id hGrows fun _ _ => id
  refine ⟨knots', ⟨hMiddle.configuration, hUnderway.keeps.trans hKeeps, hMiddle.journal,
    hMiddle.informed.grows hGrows (Tables.Retains.refl _), ?_, hMiddle.others, ?_⟩,
    ⟨hKeeps, hAdvances.journal, ?_, ?_, ?_⟩,
    .unfolded (Grammar.unfolds_delegate hNode) (hRepresents hResult)⟩
  · intro other found hFound
    obtain ⟨hOther, hFound⟩ := hMiddle.recalled other found hFound
    exact ⟨hOther, hRepresents hFound⟩
  · intro other handle hKnot
    rw [hPatched]
    split
    · exact ⟨some result, rfl⟩
    · exact hMiddle.placeholders other handle hKnot
  · intro other hBefore
    refine hAdvances.recalled other ?_
    rw [Task.remembered_note]
    split
    · simp
    · exact hBefore
  · exact fun other handle hKnot => hAdvances.opened other handle (Or.inl hKnot)
  · -- A knot is one that was open before, the one just tied, or one tied in between.
    intro other handle hKnot
    rcases hAdvances.tied other handle hKnot with (hBefore | ⟨rfl, rfl⟩) | hTied
    · exact Or.inl hBefore
    · refine Or.inr ⟨target, result, hNode, ?_, hRepresents hResult⟩
      rw [hPatched, if_pos rfl]
    · exact Or.inr (hTied.grow id hGrows fun _ _ => id)

/-- Entering a delegate: while its target is taken care of, a placeholder stands for
it. -/
theorem Underway.attains_delegate {serve : Handle → Action Λ Handle} {target : Handle}
    (hUnderway : Underway task start knots engine) (hValid : start.grammar.Valid node)
    (hNode : start.grammar.get? node = some (.delegate (some target)))
    (hNew : task.remembered engine.tables node = none)
    (hServe : ∀ knots' after, Underway task start knots' after →
      task.unmet start.grammar after.tables < task.unmet start.grammar engine.tables →
      Attains excused (serve target) after
        (Yields task start (.residual target) knots' after)) :
    Attains excused
      (do
        let placeholder ← build Grammar.placeholder
        remember fun tables => ((), task.note tables node placeholder.handle)
        let result ← serve target
        build fun grammar => ((), grammar.fill placeholder result)
        return result)
      engine (Yields task start (.residual node) knots engine) := by
  rw [attains_bind, attains_build, attains_bind, attains_remember]
  refine (hServe _ _ (hUnderway.openKnot hValid)
    (Task.unmet_note_lt hNode hNew)).bind ?_
  rintro result middle ⟨knots', hMiddle, hAdvances, hResult⟩
  rw [attains_bind, attains_build, attains_pure]
  exact hUnderway.closeKnot hNode hMiddle hAdvances hResult

/-- What is remembered is found, and what is not is worked out and remembered. -/
theorem Underway.attains_recollected {lookup : Action Λ (Option Handle)}
    {parts : Node Λ → Action Λ Handle} {found : Node Λ}
    (hUnderway : Underway task start knots engine) (hValid : start.grammar.Valid node)
    (hNode : start.grammar.get? node = some found)
    (hLookup : Attains excused lookup engine fun found after =>
      engine.Consulted after ∧ found = task.remembered engine.tables node)
    (hParts : ∀ after, Underway task start knots after →
      task.remembered after.tables node = none →
      task.unmet start.grammar after.tables ≤ task.unmet start.grammar engine.tables →
      Attains excused (parts found) after
        (Yields task start (.residual node) knots after)) :
    Attains excused
      (do
        match ← lookup with
        | some result => return result
        | none => do
            let result ← parts (← Engine.node node)
            remember fun tables => ((), task.note tables node result)
            return result)
      engine (Yields task start (.residual node) knots engine) := by
  refine hLookup.bind ?_
  rintro recalled middle ⟨hConsulted, rfl⟩
  obtain ⟨hMiddle, hAdvances⟩ := hUnderway.consulted hConsulted
  cases hFound : task.remembered engine.tables node with
  | some result =>
      rw [attains_pure]
      obtain ⟨-, hResult⟩ := hUnderway.recalled node result hFound
      exact ⟨knots, hMiddle, hAdvances, hAdvances.represents hResult⟩
  | none =>
      have hNone : task.remembered middle.tables node = none :=
        (hConsulted.remembered task node).trans hFound
      rw [attains_bind, attains_node (hMiddle.keeps.get? hNode)]
      refine (hParts middle hMiddle hNone (hAdvances.unmet_le start.grammar)).bind ?_
      rintro result after ⟨knots', hAfter, hOnwards, hResult⟩
      rw [attains_bind, attains_remember, attains_pure]
      obtain ⟨hNoted, hNoting⟩ := hAfter.noted hValid hResult
      exact ⟨knots', hNoted, (hAdvances.trans hOnwards).trans hNoting,
        hNoting.represents hResult⟩

end Steps

section Queries

variable (hUnderway : Underway task start knots engine)
  (hValid : start.grammar.Valid node)

include hUnderway hValid

theorem Underway.attains_isNullable :
    Attains excused (isNullable node) engine fun value after =>
      engine.Consulted after ∧
        (value = true ↔ start.grammar.meaning .language node [] ()) := by
  have hAgrees := hValid.agrees hUnderway.keeps.grows
  rw [← hAgrees.meaning_eq]
  exact Engine.attains_isNullable hUnderway.informed (hAgrees.valid hValid)

theorem Underway.attains_isEmpty :
    Attains excused (isEmpty node) engine fun value after =>
      engine.Consulted after ∧ (value = true ↔ ¬ start.grammar.Inhabited node) := by
  have hAgrees := hValid.agrees hUnderway.keeps.grows
  refine (Engine.attains_isEmpty hUnderway.informed (hAgrees.valid hValid)).mono ?_
  rintro value after ⟨hConsulted, hValue⟩
  exact ⟨hConsulted, hValue.trans (not_congr ⟨hAgrees.symm.inhabited, hAgrees.inhabited⟩)⟩

theorem Underway.attains_isNullOnly :
    Attains excused (isNullOnly node) engine fun value after =>
      engine.Consulted after ∧ (value = true ↔
        start.grammar.meaning .language node [] () ∧ ¬ start.grammar.Consuming node) := by
  have hAgrees := hValid.agrees hUnderway.keeps.grows
  rw [← hAgrees.meaning_eq]
  refine (Engine.attains_isNullOnly hUnderway.informed (hAgrees.valid hValid)).mono ?_
  rintro value after ⟨hConsulted, hValue⟩
  exact ⟨hConsulted, hValue.trans (and_congr_right fun _ =>
    not_congr ⟨hAgrees.symm.consuming, hAgrees.consuming⟩)⟩

theorem Underway.attains_forestOf
    (hExcused : start.configuration.forestPassLimit = 0 → excused) :
    Attains excused (forestOf node) engine fun trees after =>
      engine.Consulted after ∧ start.grammar.Gathers after.Untruncated node [] trees := by
  have hAgrees := hValid.agrees hUnderway.keeps.grows
  rw [← hUnderway.configuration] at hExcused
  refine (Engine.attains_forestOf hUnderway.informed (hAgrees.valid hValid) hExcused).mono ?_
  rintro trees after ⟨hConsulted, hGathers⟩
  exact ⟨hConsulted, hAgrees.symm.gathers hGathers⟩

end Queries

end Engine

end DerivativeParsing
