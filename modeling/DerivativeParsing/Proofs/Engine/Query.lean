import DerivativeParsing.Engine.Query
import DerivativeParsing.Proofs.Analysis.Forests
import DerivativeParsing.Proofs.Analysis.Reports
import DerivativeParsing.Proofs.Engine.Action
import DerivativeParsing.Proofs.Grammar.Growth

namespace DerivativeParsing

/-!
# Memoized queries answer right

An engine is informed if its four tables about nodes say what is true of them, and of
valid nodes only.  A query about a valid node keeps an engine informed, changes nothing
but these tables and the journal (`Consulted`), and answers right:

* truth values are exact (`attains_isNullable`, `attains_isEmpty`,
  `attains_isNullOnly`);
* a forest gathers trees of empty matches, all of them unless a forest query was stopped,
  and in any case one if the node is fruitful and has an empty match
  (`attains_forestOf`).

A forest query that was stopped is on record in the journal (`Untruncated`, `stopped`).
That the journal tells of no other query is shown in `Recorded.untruncated_iff`.
-/

open Fixpoint

/-- The tables about nodes hold nothing that they did not hold before, and speak of some
nodes only. -/
structure Tables.Retains {Λ : Lexicon} (alive : Handle → Prop) (before after : Tables Λ) :
    Prop where
  nullable : ∀ handle value, after.nullable.peek? handle = some value →
    before.nullable.peek? handle = some value ∧ alive handle
  inhabited : ∀ handle value, after.inhabited.peek? handle = some value →
    before.inhabited.peek? handle = some value ∧ alive handle
  consuming : ∀ handle value, after.consuming.peek? handle = some value →
    before.consuming.peek? handle = some value ∧ alive handle
  forest : ∀ handle trees, after.forest.peek? handle = some trees →
    before.forest.peek? handle = some trees ∧ alive handle

namespace Engine

variable {Λ : Lexicon} {engine before after : Engine Λ} {handle : Handle}
  {excused : Prop}

/-- The tables about nodes are right. -/
structure Informed (engine : Engine Λ) : Prop where
  nullable : ∀ handle value, engine.tables.nullable.peek? handle = some value →
    engine.grammar.Valid handle ∧
      (value = true ↔ engine.grammar.meaning .language handle [] ())
  inhabited : ∀ handle value, engine.tables.inhabited.peek? handle = some value →
    engine.grammar.Valid handle ∧ (value = true ↔ engine.grammar.Inhabited handle)
  consuming : ∀ handle value, engine.tables.consuming.peek? handle = some value →
    engine.grammar.Valid handle ∧ (value = true ↔ engine.grammar.Consuming handle)
  forest : ∀ handle trees, engine.tables.forest.peek? handle = some trees →
    engine.grammar.Valid handle ∧
      ∀ tree, tree ∈ trees ↔ engine.grammar.meaning .trees handle [] tree

/-- No query was ever stopped by its limit, according to the journal. -/
def Untruncated (engine : Engine Λ) : Prop :=
  ∀ root passes, .solved (.abandoned root passes) ∉ engine.journal

/-- The root of a query that was stopped, if that is what an event says. -/
def stoppedRoot : Event Λ → Option Handle
  | .solved note => note.stoppedRoot
  | _ => none

/-- The roots of the queries that were stopped, the latest first. -/
def stopped (engine : Engine Λ) : List Handle := engine.journal.filterMap stoppedRoot

/-- Between two states of an engine there were queries only. -/
structure Consulted (before after : Engine Λ) : Prop where
  grammar : after.grammar = before.grammar
  configuration : after.configuration = before.configuration
  derive : ∀ step, after.tables.derive.peek? step = before.tables.derive.peek? step
  compact : ∀ handle, after.tables.compact.peek? handle = before.tables.compact.peek? handle
  journal : before.journal <:+ after.journal
  informed : after.Informed

theorem untruncated_iff_stopped : engine.Untruncated ↔ engine.stopped = [] := by
  rw [stopped, List.filterMap_eq_nil_iff]
  constructor
  · intro hUntruncated event hEvent
    cases event with
    | solved note =>
        cases note with
        | pass _ _ _ _ => rfl
        | abandoned root passes => exact absurd hEvent (hUntruncated root passes)
    | _ => rfl
  · exact fun hStopped root passes hEvent => nomatch hStopped _ hEvent

instance : Decidable engine.Untruncated := decidable_of_iff _ untruncated_iff_stopped.symm

/-- The notes of a query say whether it was stopped. -/
theorem stopped_solved (engine : Engine Λ) (notes : List (Note Handle)) :
    stopped { engine with journal := notes.map Event.solved ++ engine.journal } =
      stops notes ++ engine.stopped := by
  rw [stopped, List.filterMap_append, List.filterMap_map]
  rfl

theorem Untruncated.of_suffix (hAfter : after.Untruncated)
    (hJournal : before.journal <:+ after.journal) : before.Untruncated :=
  fun root passes hMem => hAfter root passes (hJournal.subset hMem)

/-- If no query was ever stopped, the notes on record do not say so of any. -/
theorem Untruncated.not_mem_notes {notes : List (Note Handle)}
    (hAfter : after.Untruncated)
    (hJournal : after.journal = notes.map Event.solved ++ before.journal) (root : Handle)
    (passes : Nat) : .abandoned root passes ∉ notes := by
  intro hNote
  apply hAfter root passes
  rw [hJournal]
  exact List.mem_append_left _ (List.mem_map_of_mem hNote)

theorem Consulted.trans {middle : Engine Λ} (hFirst : before.Consulted middle)
    (hSecond : middle.Consulted after) : before.Consulted after where
  grammar := hSecond.grammar.trans hFirst.grammar
  configuration := hSecond.configuration.trans hFirst.configuration
  derive step := (hSecond.derive step).trans (hFirst.derive step)
  compact handle := (hSecond.compact handle).trans (hFirst.compact handle)
  journal := hFirst.journal.trans hSecond.journal
  informed := hSecond.informed

/-- An engine stays informed when its grammar changes, if the grammars agree about the
nodes that the tables still speak of. -/
theorem Informed.retain {alive : Handle → Prop} (hInformed : before.Informed)
    (hTables : before.tables.Retains alive after.tables)
    (hAgrees : ∀ handle, before.grammar.Valid handle → alive handle →
      before.grammar.Agrees after.grammar handle) : after.Informed where
  nullable handle value hFound := by
    obtain ⟨hBefore, hAlive⟩ := hTables.nullable handle value hFound
    obtain ⟨hValid, hValue⟩ := hInformed.nullable handle value hBefore
    have hSame := hAgrees handle hValid hAlive
    rw [hSame.meaning_eq]
    exact ⟨hSame.valid hValid, hValue⟩
  inhabited handle value hFound := by
    obtain ⟨hBefore, hAlive⟩ := hTables.inhabited handle value hFound
    obtain ⟨hValid, hValue⟩ := hInformed.inhabited handle value hBefore
    have hSame := hAgrees handle hValid hAlive
    exact ⟨hSame.valid hValid, hValue.trans ⟨hSame.inhabited, hSame.symm.inhabited⟩⟩
  consuming handle value hFound := by
    obtain ⟨hBefore, hAlive⟩ := hTables.consuming handle value hFound
    obtain ⟨hValid, hValue⟩ := hInformed.consuming handle value hBefore
    have hSame := hAgrees handle hValid hAlive
    exact ⟨hSame.valid hValid, hValue.trans ⟨hSame.consuming, hSame.symm.consuming⟩⟩
  forest handle trees hFound := by
    obtain ⟨hBefore, hAlive⟩ := hTables.forest handle trees hFound
    obtain ⟨hValid, hTrees⟩ := hInformed.forest handle trees hBefore
    have hSame := hAgrees handle hValid hAlive
    rw [hSame.meaning_eq]
    exact ⟨hSame.valid hValid, hTrees⟩

section Truth

theorem attains_isNullable (hInformed : engine.Informed)
    (hValid : engine.grammar.Valid handle) :
    Attains excused (isNullable handle) engine fun value after =>
      engine.Consulted after ∧
        (value = true ↔ engine.grammar.meaning .language handle [] ()) := by
  unfold isNullable
  rw [attains_bind, attains_remember, Memo.lookup_fst]
  have hPeek := engine.tables.nullable.peek?_lookup handle
  have hCounted : engine.Consulted { engine with
      tables := { engine.tables with
        nullable := (engine.tables.nullable.lookup handle).2 } } :=
    ⟨rfl, rfl, fun _ => rfl, fun _ => rfl, List.suffix_rfl,
      fun other value h => hInformed.nullable other value (by rw [← hPeek other, h]),
      hInformed.inhabited, hInformed.consuming, hInformed.forest⟩
  cases hFound : engine.tables.nullable.peek? handle with
  | some value =>
      exact attains_pure.mpr ⟨hCounted, (hInformed.nullable handle value hFound).2⟩
  | none =>
      obtain ⟨solution, notes, hSolve, hValue, hValues⟩ :=
        Grammar.exists_solve_of_tracks
          (Grammar.nullability_tracks (engine.tables.nullable.lookup handle).2)
          (fun key value hKey =>
            (hCounted.informed.nullable key value hKey).2.trans Grammar.nullable_lfp_iff.symm)
          hValid
      rw [attains_bind, attains_solve hSolve, attains_bind, attains_remember, attains_pure]
      refine ⟨⟨rfl, rfl, fun _ => rfl, fun _ => rfl, List.suffix_append _ _, ?_,
        hInformed.inhabited, hInformed.consuming, hInformed.forest⟩,
        hValue.trans Grammar.nullable_lfp_iff⟩
      intro other value hOther
      rcases Memo.peek?_extend_eq_some hOther with hNew | hOld
      · obtain ⟨hKey, hRight⟩ := hValues other value hNew
        exact ⟨hKey, hRight.trans Grammar.nullable_lfp_iff⟩
      · exact hCounted.informed.nullable other value hOld

theorem attains_isInhabited (hInformed : engine.Informed)
    (hValid : engine.grammar.Valid handle) :
    Attains excused (isInhabited handle) engine fun value after =>
      engine.Consulted after ∧ (value = true ↔ engine.grammar.Inhabited handle) := by
  unfold isInhabited
  rw [attains_bind, attains_remember, Memo.lookup_fst]
  have hPeek := engine.tables.inhabited.peek?_lookup handle
  have hCounted : engine.Consulted { engine with
      tables := { engine.tables with
        inhabited := (engine.tables.inhabited.lookup handle).2 } } :=
    ⟨rfl, rfl, fun _ => rfl, fun _ => rfl, List.suffix_rfl, hInformed.nullable,
      fun other value h => hInformed.inhabited other value (by rw [← hPeek other, h]),
      hInformed.consuming, hInformed.forest⟩
  cases hFound : engine.tables.inhabited.peek? handle with
  | some value =>
      exact attains_pure.mpr ⟨hCounted, (hInformed.inhabited handle value hFound).2⟩
  | none =>
      obtain ⟨solution, notes, hSolve, hValue, hValues⟩ :=
        Grammar.exists_solve_of_tracks
          (Grammar.inhabitation_tracks (engine.tables.inhabited.lookup handle).2)
          (fun key value hKey => (hCounted.informed.inhabited key value hKey).2) hValid
      rw [attains_bind, attains_solve hSolve, attains_bind, attains_remember, attains_pure]
      refine ⟨⟨rfl, rfl, fun _ => rfl, fun _ => rfl, List.suffix_append _ _,
        hInformed.nullable, ?_, hInformed.consuming, hInformed.forest⟩, hValue⟩
      intro other value hOther
      rcases Memo.peek?_extend_eq_some hOther with hNew | hOld
      · exact hValues other value hNew
      · exact hCounted.informed.inhabited other value hOld

/-- An empty answer is right about every match. -/
theorem attains_isEmpty (hInformed : engine.Informed)
    (hValid : engine.grammar.Valid handle) :
    Attains excused (isEmpty handle) engine fun value after =>
      engine.Consulted after ∧ (value = true ↔ ¬ engine.grammar.Inhabited handle) := by
  unfold isEmpty
  refine (attains_isInhabited hInformed hValid).bind ?_
  rintro value after ⟨hConsulted, hValue⟩
  refine attains_pure.mpr ⟨hConsulted, ?_⟩
  rw [← hValue]
  cases value <;> simp

theorem attains_isConsuming (hInformed : engine.Informed)
    (hValid : engine.grammar.Valid handle) :
    Attains excused (isConsuming handle) engine fun value after =>
      engine.Consulted after ∧ (value = true ↔ engine.grammar.Consuming handle) := by
  unfold isConsuming isConsumingOr
  rw [attains_bind, attains_remember, Memo.lookup_fst]
  have hPeek := engine.tables.consuming.peek?_lookup handle
  have hCounted : engine.Consulted { engine with
      tables := { engine.tables with
        consuming := (engine.tables.consuming.lookup handle).2 } } :=
    ⟨rfl, rfl, fun _ => rfl, fun _ => rfl, List.suffix_rfl, hInformed.nullable,
      hInformed.inhabited,
      fun other value h => hInformed.consuming other value (by rw [← hPeek other, h]),
      hInformed.forest⟩
  cases hFound : engine.tables.consuming.peek? handle with
  | some value =>
      exact attains_pure.mpr ⟨hCounted, (hInformed.consuming handle value hFound).2⟩
  | none =>
      refine (attains_isInhabited hCounted.informed hValid).bind ?_
      rintro _ middle ⟨hMiddle, -⟩
      have hSettled := hCounted.trans hMiddle
      have hGrammar : middle.grammar = engine.grammar := hSettled.grammar
      have hInformed := hSettled.informed
      obtain ⟨solution, notes, hSolve, hValue, hValues⟩ :=
        Grammar.exists_solve_of_tracks
          (Grammar.consumption_tracks middle.tables.consuming
            fun key value hKey => (hInformed.inhabited key value hKey).2)
          (fun key value hKey => (hInformed.consuming key value hKey).2)
          (hGrammar ▸ hValid)
      rw [attains_bind, attains_solve hSolve, attains_bind, attains_remember, attains_pure]
      refine ⟨⟨hSettled.grammar, hSettled.configuration, hSettled.derive, hSettled.compact,
        hSettled.journal.trans (List.suffix_append _ _), hInformed.nullable,
        hInformed.inhabited, ?_, hInformed.forest⟩, ?_⟩
      · intro other value hOther
        rcases Memo.peek?_extend_eq_some hOther with hNew | hOld
        · exact hValues other value hNew
        · exact hInformed.consuming other value hOld
      · rw [← hGrammar]
        exact hValue

/-- A node that accepts only the empty string is nullable, and all its matches are
empty. -/
theorem attains_isNullOnly (hInformed : engine.Informed)
    (hValid : engine.grammar.Valid handle) :
    Attains excused (isNullOnly handle) engine fun value after =>
      engine.Consulted after ∧ (value = true ↔
        engine.grammar.meaning .language handle [] () ∧
          ¬ engine.grammar.Consuming handle) := by
  unfold isNullOnly isNullOnlyOr
  refine (attains_isNullable hInformed hValid).bind ?_
  rintro nullable middle ⟨hMiddle, hNullable⟩
  rw [← hNullable]
  cases nullable with
  | false => exact attains_pure.mpr ⟨hMiddle, by simp⟩
  | true =>
      have hGrammar := hMiddle.grammar
      refine (attains_isConsuming hMiddle.informed (hGrammar ▸ hValid)).bind ?_
      rintro value after ⟨hAfter, hValue⟩
      refine attains_pure.mpr ⟨hMiddle.trans hAfter, ?_⟩
      rw [← hGrammar, ← hValue]
      cases value <;> simp

end Truth

section Forest

variable {solution : Solution Handle (Forest Λ.Token)} {notes : List (Note Handle)}

/-- A forest in the table gathers all the trees of empty matches. -/
theorem Informed.gathers (hInformed : engine.Informed) {trees : Forest Λ.Token}
    (hFound : engine.tables.forest.peek? handle = some trees) (exact : Prop) :
    engine.grammar.Gathers exact handle [] trees := by
  obtain ⟨-, hTrees⟩ := hInformed.forest handle trees hFound
  refine ⟨fun tree => (hTrees tree).mp, fun _ tree => (hTrees tree).mpr, ?_⟩
  rintro hFruitful ⟨depth, hMatch⟩
  obtain ⟨tree, hTree⟩ := hFruitful.exists_within hMatch
  exact ⟨tree, (hTrees tree).mpr ⟨depth, hTree⟩⟩

/-- What a forest query finds, whether or not it was stopped.  A query that was stopped
is on record. -/
theorem Informed.solve_forest (hInformed : engine.Informed)
    (hValid : engine.grammar.Valid handle) {budget : Budget}
    (hSolve : (engine.grammar.emptyMatches engine.tables.forest).solve budget
      (forestLimit engine.configuration) handle = (.ok solution, notes)) :
    engine.grammar.Gathers (∀ root passes, .abandoned root passes ∉ notes) handle []
        solution.value ∧
      (solution.converged = true → ∀ key trees,
        (key, trees) ∈ (handle, solution.value) :: solution.values →
        engine.grammar.Valid key ∧
          ∀ tree, tree ∈ trees ↔ engine.grammar.meaning .trees key [] tree) := by
  obtain ⟨hSound, hExact, hStopped⟩ :=
    (Grammar.emptyMatches_tracks engine.tables.forest).solve
      (fun key trees tree hKey =>
        ((hInformed.forest key trees hKey).2 tree).trans Grammar.emptyStep_lfp_iff.symm)
      hValid hSolve
  refine ⟨⟨fun tree hTree => Grammar.emptyStep_lfp_iff.mp (hSound tree hTree), ?_, ?_⟩, ?_⟩
  · intro hUnstopped tree hTree
    cases hConverged : solution.converged with
    | true => exact ((hExact hConverged).1 tree).mpr (Grammar.emptyStep_lfp_iff.mpr hTree)
    | false =>
        obtain ⟨passes, hNote⟩ := hStopped hConverged
        exact absurd hNote (hUnstopped handle passes)
  · intro hFruitful hNullable
    -- Seen through emptiness alone, the query was not stopped too early.
    have hTracks := engine.grammar.emptyMatches_tracks_nullable engine.tables.forest
    have hLimit (passes : Nat) : forestLimit engine.configuration ≠ .fixed passes := by
      unfold forestLimit
      split <;> simp [PassLimit.ofFloor]
    obtain ⟨assignment, covered, hSolves, hView⟩ :=
      hTracks.monotone.solve ⟨hValid, hFruitful⟩ hLimit hSolve
    have hKnown (key : Handle) (trees : Forest Λ.Token) (item : Unit)
        (hInside : engine.grammar.Valid key ∧ engine.grammar.Fruitful key)
        (hKey : engine.tables.forest.peek? key = some trees)
        (hLeast : (engine.grammar.emptyStep .language).lfp key item) :
        (!trees.isEmpty) = true := by
      rw [Bool.not_eq_true', Forest.isEmpty_eq_false_iff]
      exact (hInformed.gathers hKey True).fruitful hInside.2
        (Grammar.nullable_lfp_iff.mp hLeast)
    have hRoot := hTracks.has_of_lfp hKnown hSolves ⟨hValid, hFruitful⟩
      (Grammar.nullable_lfp_iff.mpr hNullable)
    have hValue := hView hRoot
    rw [Bool.not_eq_true', Forest.isEmpty_eq_false_iff] at hValue
    exact hValue
  · intro hConverged key trees hEntry
    obtain ⟨hRoot, hValues⟩ := hExact hConverged
    rcases List.mem_cons.mp hEntry with hHead | hTail
    · cases hHead
      exact ⟨hValid, fun tree => (hRoot tree).trans Grammar.emptyStep_lfp_iff⟩
    · obtain ⟨hKey, hTrees⟩ := hValues key trees hTail
      exact ⟨hKey, fun tree => (hTrees tree).trans Grammar.emptyStep_lfp_iff⟩

/-- A limited forest query ends within the engine's budget. -/
theorem exists_solve_forest (known : Memo Handle (Forest Λ.Token))
    (hValid : engine.grammar.Valid handle)
    (hLimit : engine.configuration.forestPassLimit ≠ 0) :
    ∃ solution notes, (engine.grammar.emptyMatches known).solve
      (forestBudget engine) (forestLimit engine.configuration) handle =
        (.ok solution, notes) := by
  have hLength := engine.grammar.length_handles_le
  have hTracks := engine.grammar.emptyMatches_tracks known
  unfold forestLimit forestBudget
  split
  · next hZero => exact absurd hZero hLimit
  · refine System.exists_solve_eq_ok_of_scaled
      (fun key hInside _ => hTracks.safe key hInside) (fun _ h => h.mem_handles) hValid ?_ ?_
    · show engine.grammar.handles.length < engine.grammar.capacity + 2
      omega
    · show max (max _ 1) (engine.grammar.handles.length + 2) ≤
        max _ (engine.grammar.capacity + 2)
      omega

/-- A forest query gives up only if the configuration does not limit it. -/
theorem solve_forest_error {known : Memo Handle (Forest Λ.Token)} {fault : Fault Handle}
    (hValid : engine.grammar.Valid handle)
    (hSolve : (engine.grammar.emptyMatches known).solve (forestBudget engine)
      (forestLimit engine.configuration) handle = (.error fault, notes)) :
    fault = .exhausted ∧ engine.configuration.forestPassLimit = 0 := by
  have hSafe := (engine.grammar.emptyMatches_tracks known).safe
  refine ⟨System.solve_error (fun key hInside _ => hSafe key hInside) hValid hSolve, ?_⟩
  by_contra hLimit
  obtain ⟨_, _, hOk⟩ := exists_solve_forest known hValid hLimit
  exact nomatch hOk.symm.trans hSolve

/-- Solving for a forest leaves notes in the journal, and changes nothing else. -/
theorem run_solveForest_eq_ok (hRun : (solveForest handle).run engine = .ok solution after) :
    ∃ notes, (engine.grammar.emptyMatches engine.tables.forest).solve (forestBudget engine)
        (forestLimit engine.configuration) handle = (.ok solution, notes) ∧
      after = { engine with journal := notes.map Event.solved ++ engine.journal } := by
  have hSolve : (solve (fun engine => engine.grammar.emptyMatches engine.tables.forest)
      forestBudget (forestLimit engine.configuration) handle).run engine =
        .ok solution after := hRun
  exact run_solve_eq_ok hSolve

theorem attains_solveForest {post : Solution Handle (Forest Λ.Token) → Engine Λ → Prop}
    (hSolve : (engine.grammar.emptyMatches engine.tables.forest).solve (forestBudget engine)
      (forestLimit engine.configuration) handle = (.ok solution, notes)) :
    Attains excused (solveForest handle) engine post ↔
      post solution { engine with journal := notes.map Event.solved ++ engine.journal } := by
  unfold solveForest
  rw [attains_bind, attains_get, attains_solve hSolve]

/-- A forest query that gives up because a bound was used up needs an excuse. -/
theorem attains_solveForest_of_error
    {post : Solution Handle (Forest Λ.Token) → Engine Λ → Prop}
    (hSolve : (engine.grammar.emptyMatches engine.tables.forest).solve (forestBudget engine)
      (forestLimit engine.configuration) handle = (.error .exhausted, notes))
    (hExcused : excused) : Attains excused (solveForest handle) engine post := by
  unfold solveForest
  rw [attains_bind, attains_get]
  exact attains_solve_of_error hSolve hExcused

/-- A forest query answers with trees of empty matches.  It may give up only if the
configuration does not limit it. -/
theorem attains_forestOf (hInformed : engine.Informed)
    (hValid : engine.grammar.Valid handle)
    (hExcused : engine.configuration.forestPassLimit = 0 → excused) :
    Attains excused (forestOf handle) engine fun trees after =>
      engine.Consulted after ∧
        engine.grammar.Gathers after.Untruncated handle [] trees := by
  simp only [forestOf, Manner.forestOf, liftM_self, plain_solveForest]
  rw [attains_bind, attains_remember, Memo.lookup_fst]
  have hPeek := engine.tables.forest.peek?_lookup handle
  have hCounted : engine.Consulted { engine with
      tables := { engine.tables with
        forest := (engine.tables.forest.lookup handle).2 } } :=
    ⟨rfl, rfl, fun _ => rfl, fun _ => rfl, List.suffix_rfl, hInformed.nullable,
      hInformed.inhabited, hInformed.consuming,
      fun other trees h => hInformed.forest other trees (by rw [← hPeek other, h])⟩
  cases hFound : engine.tables.forest.peek? handle with
  | some trees => exact attains_pure.mpr ⟨hCounted, hInformed.gathers hFound _⟩
  | none =>
      have hMiddle := hCounted.informed
      rw [attains_bind]
      cases hSolve : (engine.grammar.emptyMatches
          (engine.tables.forest.lookup handle).2).solve (forestBudget engine)
          (forestLimit engine.configuration) handle with
      | mk outcome notes =>
          cases outcome with
          | error fault =>
              obtain ⟨rfl, hLimit⟩ := solve_forest_error hValid hSolve
              exact attains_solveForest_of_error hSolve (hExcused hLimit)
          | ok solution =>
              obtain ⟨hGathers, hEntries⟩ := hMiddle.solve_forest hValid hSolve
              rw [attains_solveForest hSolve]
              have hJournal : engine.journal <:+ notes.map Event.solved ++ engine.journal :=
                List.suffix_append _ _
              cases hConverged : solution.converged with
              | false =>
                  -- A forest that was cut short is not remembered.
                  exact attains_pure.mpr ⟨⟨rfl, rfl, fun _ => rfl, fun _ => rfl, hJournal,
                    hMiddle.nullable, hMiddle.inhabited, hMiddle.consuming,
                    hMiddle.forest⟩, hGathers.mono fun h => h.not_mem_notes rfl⟩
              | true =>
                  refine attains_bind.mpr (attains_remember.mpr (attains_pure.mpr
                    ⟨⟨rfl, rfl, fun _ => rfl, fun _ => rfl, hJournal, hMiddle.nullable,
                      hMiddle.inhabited, hMiddle.consuming, ?_⟩,
                      hGathers.mono fun h => h.not_mem_notes rfl⟩))
                  intro other trees hOther
                  rw [Memo.peek?_insert] at hOther
                  split at hOther
                  · next hSame =>
                      rw [hSame, ← Option.some.inj hOther]
                      exact hEntries hConverged handle _ List.mem_cons_self
                  · rcases Memo.peek?_extend_eq_some hOther with hNew | hOld
                    · exact hEntries hConverged other trees (List.mem_cons_of_mem _ hNew)
                    · exact hMiddle.forest other trees hOld

/-- A forest query that the table answers leaves the table as it is. -/
theorem attains_forestOf_of_peek {found : Forest Λ.Token}
    (hPeek : engine.tables.forest.peek? handle = some found) :
    Attains False (forestOf handle) engine fun trees after =>
      trees = found ∧ after.tables.forest.peek? handle = some found := by
  simp only [forestOf, Manner.forestOf, liftM_self, plain_solveForest]
  rw [attains_bind, attains_remember, Memo.lookup_fst, hPeek]
  refine attains_pure.mpr ⟨rfl, ?_⟩
  exact (engine.tables.forest.peek?_lookup handle handle).trans hPeek

/-- A forest query that the table does not answer finds what the solver finds, and
remembers it unless it was stopped. -/
theorem attains_forestOf_of_solve (hPeek : engine.tables.forest.peek? handle = none)
    (hSolve : (engine.grammar.emptyMatches engine.tables.forest).solve
      (forestBudget engine) (forestLimit engine.configuration) handle =
        (.ok solution, notes)) :
    Attains False (forestOf handle) engine fun trees after =>
      trees = solution.value ∧ after.tables.forest.peek? handle =
        if solution.converged then some solution.value else none := by
  have hSystem : engine.grammar.emptyMatches (engine.tables.forest.lookup handle).2 =
      engine.grammar.emptyMatches engine.tables.forest := by
    have hSame : (engine.tables.forest.lookup handle).2.peek? =
        engine.tables.forest.peek? := funext (engine.tables.forest.peek?_lookup handle)
    simp only [Grammar.emptyMatches, hSame]
  have hCounted : (engine.grammar.emptyMatches (engine.tables.forest.lookup handle).2).solve
      (forestBudget engine) (forestLimit engine.configuration) handle =
        (.ok solution, notes) := by
    rw [hSystem]
    exact hSolve
  simp only [forestOf, Manner.forestOf, liftM_self, plain_solveForest]
  rw [attains_bind, attains_remember, Memo.lookup_fst, hPeek, attains_bind,
    attains_solveForest hCounted]
  cases solution.converged with
  | false =>
      refine attains_pure.mpr ⟨rfl, ?_⟩
      exact (engine.tables.forest.peek?_lookup handle handle).trans hPeek
  | true =>
      refine attains_bind.mpr (attains_remember.mpr (attains_pure.mpr ⟨rfl, ?_⟩))
      rw [Memo.peek?_insert]
      simp

/-- A limited forest query gives trees of the least solution, and all of them if they are
remembered. -/
theorem exists_forestOf (hInformed : engine.Informed) (hValid : engine.grammar.Valid handle)
    (hLimit : engine.configuration.forestPassLimit ≠ 0) :
    ∃ trees after, (forestOf handle).run engine = .ok trees after ∧
      (∀ tree, tree ∈ trees → engine.grammar.Bears handle tree) ∧
      (after.tables.forest.peek? handle ≠ none →
        ∀ tree, engine.grammar.Bears handle tree → tree ∈ trees) := by
  obtain ⟨trees, after, hRun, hConsulted, hGathers⟩ :=
    (attains_forestOf hInformed hValid id).exists_run hLimit
  have hOwn (hKept : after.tables.forest.peek? handle ≠ none) :
      after.tables.forest.peek? handle = some trees := by
    cases hPeek : engine.tables.forest.peek? handle with
    | some found =>
        obtain ⟨rfl, hFound⟩ := (attains_forestOf_of_peek hPeek).of_run hRun
        exact hFound
    | none =>
        obtain ⟨solution, notes, hSolve⟩ :=
          exists_solve_forest engine.tables.forest hValid hLimit
        obtain ⟨rfl, hFound⟩ := (attains_forestOf_of_solve hPeek hSolve).of_run hRun
        rw [hFound] at hKept ⊢
        cases hConverged : solution.converged with
        | true => rfl
        | false => simp [hConverged] at hKept
  refine ⟨trees, after, hRun, fun tree hTree => ?_, fun hKept tree hBears => ?_⟩
  · exact Grammar.bears_iff.mpr (hGathers.sound tree hTree)
  · obtain ⟨-, hExact⟩ := hConsulted.informed.forest handle trees (hOwn hKept)
    rw [hConsulted.grammar] at hExact
    exact (hExact tree).mpr (Grammar.bears_iff.mp hBears)

end Forest

end Engine

end DerivativeParsing
