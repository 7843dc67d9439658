import DerivativeParsing.Engine.Run
import DerivativeParsing.Proofs.Engine.Compaction
import DerivativeParsing.Proofs.Engine.Derivation

namespace DerivativeParsing

/-!
# Coherent engines stay coherent

Everything that a coherent engine remembers is right.  Derivation, compaction, queries,
collections and growth of the grammar keep it coherent.

`Consumes` says what a run needs of an action: it leads from a coherent engine to another
one, and from a node to what the node leaves after a word.  Such actions follow one
another (`Consumes.trans`), although the node that was left may be collected.
-/

open Fixpoint

section Sweep

variable {Λ : Lexicon} (tables : Tables Λ) (live : Handle → Bool)

/-- The entries that a sweep keeps are those that mention live handles only. -/
theorem Memo.peek?_sweep_eq_some {κ ν : Type} [Ord κ] [Std.TransOrd κ] [Std.LawfulEqOrd κ]
    [Anchored Handle κ] [Anchored Handle ν] {memo : Memo κ ν} {live : Handle → Bool}
    {key : κ} {value : ν} :
    (memo.sweep live).2.peek? key = some value ↔
      memo.peek? key = some value ∧
        (∀ handle ∈ (anchors key : List Handle), live handle = true) ∧
          ∀ handle ∈ (anchors value : List Handle), live handle = true := by
  rw [peek?_sweep, Option.filter_eq_some_iff, survives, Bool.and_eq_true, isAnchored,
    isAnchored, List.all_eq_true, List.all_eq_true]

/-- After a sweep the tables about nodes speak of live nodes only. -/
theorem Tables.retains_sweep :
    tables.Retains (fun handle => live handle = true) (tables.sweep live).2.2 := by
  refine ⟨fun handle value hFound => ?_, fun handle value hFound => ?_,
    fun handle value hFound => ?_, fun handle trees hFound => ?_⟩ <;>
  · obtain ⟨hBefore, hKey, -⟩ := Memo.peek?_sweep_eq_some.mp hFound
    exact ⟨hBefore, hKey handle (List.mem_singleton_self handle)⟩

theorem Task.remembered_sweep {task : Task Λ} {node result : Handle}
    (hFound : task.remembered (tables.sweep live).2.2 node = some result) :
    task.remembered tables node = some result ∧ live node = true ∧ live result = true := by
  cases task with
  | derive token =>
      obtain ⟨hBefore, hKey, hValue⟩ := Memo.peek?_sweep_eq_some.mp hFound
      exact ⟨hBefore, hKey node (List.mem_singleton_self node),
        hValue result (List.mem_singleton_self result)⟩
  | compact =>
      obtain ⟨hBefore, hKey, hValue⟩ := Memo.peek?_sweep_eq_some.mp hFound
      exact ⟨hBefore, hKey node (List.mem_singleton_self node),
        hValue result (List.mem_singleton_self result)⟩

end Sweep

namespace Engine

variable {Λ : Lexicon} {excused : Prop} {task : Task Λ} {engine before after : Engine Λ}
  {word : List Λ.Token} {token : Λ.Token} {node result : Handle}

/-- An engine goes on from a node to what it leaves after a word. -/
structure Consumes (word : List Λ.Token) (before : Engine Λ) (node : Handle)
    (after : Engine Λ) (result : Handle) : Prop where
  coherent : after.Coherent
  configuration : after.configuration = before.configuration
  journal : before.journal <:+ after.journal
  residual : before.grammar.Residual after.Untruncated after.grammar word node result

theorem Consumes.trans {middle : Engine Λ} {between : Handle} {word' : List Λ.Token}
    (hFirst : Consumes word before node middle between)
    (hSecond : Consumes word' middle between after result) :
    Consumes (word ++ word') before node after result where
  coherent := hSecond.coherent
  configuration := hSecond.configuration.trans hFirst.configuration
  journal := hFirst.journal.trans hSecond.journal
  residual := (hFirst.residual.mono fun h => h.of_suffix hSecond.journal).trans hSecond.residual

/-- A node that is valid and alive is consumed as it is. -/
theorem Consumes.of_agrees (hCoherent : after.Coherent)
    (hConfiguration : after.configuration = before.configuration)
    (hJournal : before.journal <:+ after.journal) (hValid : before.grammar.Valid node)
    (hAgrees : before.grammar.Agrees after.grammar node) :
    Consumes [] before node after node where
  coherent := hCoherent
  configuration := hConfiguration
  journal := hJournal
  residual := (Grammar.Residual.refl hValid).agrees_result hAgrees

section Change

variable (hCoherent : before.Coherent)

include hCoherent

/-- What remains remembered stays right if the grammar that has changed agrees about the
nodes. -/
theorem Coherent.retain (alive : Handle → Prop)
    (hFounded : after.grammar.Founded) (hJournal : before.journal <:+ after.journal)
    (hInformed : after.Informed)
    (hRecalled : ∀ (task : Task Λ) node result,
      task.remembered after.tables node = some result →
      task.remembered before.tables node = some result ∧ alive node ∧ alive result)
    (hAgrees : ∀ handle, before.grammar.Valid handle → alive handle →
      before.grammar.Agrees after.grammar handle) : after.Coherent where
  founded := hFounded
  informed := hInformed
  recalled task node result hFound := by
    obtain ⟨hBefore, hNode, hResult⟩ := hRecalled task node result hFound
    obtain ⟨hValid, hResidual⟩ := hCoherent.recalled task node result hBefore
    have hSame := hAgrees node hValid hNode
    refine ⟨hSame.valid hValid, ?_⟩
    exact ((hResidual.agrees_result (hAgrees result hResidual.valid hResult)).agrees_node
      hSame).mono fun h => h.of_suffix hJournal

/-- Queries keep an engine coherent. -/
theorem Coherent.consulted (hConsulted : before.Consulted after) : after.Coherent := by
  have hGrammar := hConsulted.grammar
  refine hCoherent.retain (fun _ => True) ?_ hConsulted.journal hConsulted.informed
    (fun task node result hFound => ?_) fun handle _ _ => ?_
  · rw [hGrammar]
    exact hCoherent.founded
  · rw [hConsulted.remembered] at hFound
    exact ⟨hFound, trivial, trivial⟩
  · rw [hGrammar]
    exact fun _ _ => rfl

/-- Growth of the grammar keeps an engine coherent. -/
theorem Coherent.grows {grammar : Grammar Λ} (hFounded : grammar.Founded)
    (hGrows : before.grammar.Grows grammar) :
    Coherent { before with grammar := grammar } :=
  hCoherent.retain (fun _ => True) hFounded List.suffix_rfl
    (hCoherent.informed.grows hGrows (Tables.Retains.refl _))
    (fun _ _ _ hFound => ⟨hFound, trivial, trivial⟩) fun _ hValid _ => hValid.agrees hGrows

/-- Whatever is reported, an engine stays coherent. -/
theorem Coherent.report (journal : List (Event Λ)) (hJournal : before.journal <:+ journal) :
    Coherent { before with journal := journal } := by
  refine hCoherent.retain (fun _ => True) hCoherent.founded hJournal ?_
    (fun _ _ _ hFound => ⟨hFound, trivial, trivial⟩) fun _ _ _ _ _ => rfl
  exact hCoherent.informed.retain (Tables.Retains.refl _) fun _ _ _ _ _ => rfl

/-- A collection keeps an engine coherent: every result that mentions a freed node is
forgotten. -/
theorem Coherent.collect (roots : List Handle) (journal : List (Event Λ))
    (hJournal : before.journal <:+ journal) :
    Coherent
      { before with
        grammar := (before.grammar.collect roots).2
        tables := (before.tables.sweep (before.grammar.collect roots).2.contains).2.2
        journal := journal } := by
  -- A node that is still live was reached from a root, and so was all it reaches.
  have hAgrees (handle : Handle) (hValid : before.grammar.Valid handle)
      (hAlive : (before.grammar.collect roots).2.contains handle = true) :
      before.grammar.Agrees (before.grammar.collect roots).2 handle := by
    obtain ⟨node, hNode⟩ := Grammar.contains_eq_true_iff.mp hAlive
    exact hValid.agrees_collect (Grammar.kept_of_collect_get? hNode)
  refine hCoherent.retain
    (fun handle => (before.grammar.collect roots).2.contains handle = true)
    (hCoherent.founded.collect roots) hJournal ?_ ?_ hAgrees
  · exact hCoherent.informed.retain (Tables.retains_sweep _ _) hAgrees
  · exact fun task node result hFound => Task.remembered_sweep _ _ hFound

end Change

section Tasks

/-- A coherent engine may begin a task. -/
theorem Coherent.underway (hCoherent : engine.Coherent) (task : Task Λ) :
    Underway task engine (fun _ _ => False) engine where
  configuration := rfl
  keeps := Grammar.Keeps.refl _
  journal := List.suffix_rfl
  informed := hCoherent.informed
  recalled node result hFound := by
    obtain ⟨hValid, hResidual⟩ := hCoherent.recalled task node result hFound
    exact ⟨hValid, .settled hResidual⟩
  others _ _ _ := rfl
  placeholders _ _ := False.elim

/-- When a task has ended all its knots are tied, so what it has built are residuals. -/
theorem Yields.consumes (hCoherent : before.Coherent)
    (hYields : Yields task before (.residual node) (fun _ _ => False) before result after) :
    Consumes task.word before node after result := by
  obtain ⟨knots, hUnderway, hAdvances, hResult⟩ := hYields
  have hGrows := hUnderway.keeps.grows
  -- No knot was open when the task began, so every knot was tied since.
  have hTied (node handle : Handle) (hKnot : knots node handle) :=
    (hAdvances.tied node handle hKnot).resolve_left id
  refine ⟨⟨hCoherent.founded.keeps hUnderway.keeps, hUnderway.informed, ?_⟩,
    hUnderway.configuration, hUnderway.journal, hResult.residual hGrows hTied⟩
  intro other source found hFound
  by_cases hOther : other = task
  · subst hOther
    obtain ⟨hValid, hRepresents⟩ := hUnderway.recalled source found hFound
    have hAgrees := hValid.agrees hGrows
    exact ⟨hAgrees.valid hValid, (hRepresents.residual hGrows hTied).agrees_node hAgrees⟩
  · -- The results of other tasks are those of before, in a grammar that has grown.
    rw [hUnderway.others other hOther] at hFound
    obtain ⟨hValid, hResidual⟩ := hCoherent.recalled other source found hFound
    have hAgrees := hValid.agrees hGrows
    refine ⟨hAgrees.valid hValid, ?_⟩
    exact ((hResidual.agrees_result (hResidual.valid.agrees hGrows)).agrees_node hAgrees).mono
      fun h => h.of_suffix hUnderway.journal

variable (hCoherent : engine.Coherent) (hValid : engine.grammar.Valid node)
  (hExcused : engine.configuration.forestPassLimit = 0 → excused)
  (hGuarded : ¬ engine.grammar.Guarded node → excused)

include hCoherent hValid hExcused hGuarded

/-- A derivation builds a residual, and ties every knot that it has opened. -/
theorem yields_derive :
    Attains excused (derive node token) engine
      (Yields (.derive token) engine (.residual node) (fun _ _ => False) engine) := by
  have hServes : Serves excused (.derive token) engine
      (plain.deriveWithin token (engine.grammar.descentBound + 1)) engine.grammar.capacity node :=
    serves_deriveWithin hCoherent.founded hExcused hValid fun hNot =>
      fuelled_descentBound (not_not.mp fun h => hNot (hGuarded h))
  simp only [derive, Manner.derive, liftM_self]
  rw [attains_bind, attains_get]
  exact hServes _ engine (hCoherent.underway _) (Task.unmet_le _ _ _)

theorem attains_derive :
    Attains excused (derive node token) engine fun result after =>
      Consumes [token] engine node after result :=
  (yields_derive hCoherent hValid hExcused hGuarded).mono
    fun _ _ hYields => hYields.consumes hCoherent

/-- A compaction builds a residual by the empty word, and ties every knot that it has
opened. -/
theorem yields_compact :
    Attains excused (compact node) engine
      (Yields .compact engine (.residual node) (fun _ _ => False) engine) := by
  have hServes : Serves excused .compact engine
      (plain.compactWithin (engine.grammar.descentBound + 1)) engine.grammar.capacity node :=
    serves_compactWithin hCoherent.founded hExcused hValid fun hNot =>
      fuelled_descentBound (not_not.mp fun h => hNot (hGuarded h))
  simp only [compact, Manner.compact, liftM_self]
  rw [attains_bind, attains_get]
  exact hServes _ engine (hCoherent.underway _) (Task.unmet_le _ _ _)

theorem attains_compact :
    Attains excused (compact node) engine fun result after =>
      Consumes [] engine node after result :=
  (yields_compact hCoherent hValid hExcused hGuarded).mono
    fun _ _ hYields => hYields.consumes hCoherent

end Tasks

section Collection

/-- A collection leaves its roots as they are. -/
theorem attains_collectGarbage (hCoherent : engine.Coherent) (roots : List Handle) :
    Attains excused (collectGarbage roots) engine fun _ after =>
      after.Coherent ∧ ∀ root ∈ roots, engine.grammar.Valid root →
        Consumes [] engine root after root := by
  unfold collectGarbage collectNodes
  simp only [attains_bind, attains_build, attains_report, attains_get, attains_pure,
    attains_modifyGet]
  have hJournal (first last : Event Λ) (events : List (Event Λ)) :
      engine.journal <:+ last :: (events ++ first :: engine.journal) :=
    ((List.suffix_cons _ _).trans (List.suffix_append _ _)).trans (List.suffix_cons _ _)
  have hAfter := fun first last events =>
    hCoherent.collect roots _ (hJournal first last events)
  refine ⟨hAfter _ _ _, fun root hRoot hValid => ?_⟩
  exact Consumes.of_agrees (hAfter _ _ _) rfl (hJournal _ _ _) hValid
    (hValid.agrees_collect ⟨root, List.mem_append_left _ hRoot, Grammar.Reaches.refl root⟩)

/-- Collecting now and then leaves the current node as it is. -/
theorem attains_collectAfter (hCoherent : engine.Coherent)
    (hValid : engine.grammar.Valid node) (steps : Nat) :
    Attains excused (collectAfter steps node) engine fun _ after =>
      Consumes [] engine node after node := by
  unfold collectAfter
  rw [attains_bind, attains_get]
  dsimp only
  split
  · refine (attains_collectGarbage hCoherent [node]).bind ?_
    rintro freed after ⟨-, hRoots⟩
    exact attains_pure.mpr (hRoots node (List.mem_singleton_self node) hValid)
  · exact attains_pure.mpr
      (Consumes.of_agrees hCoherent rfl List.suffix_rfl hValid fun _ _ => rfl)

end Collection

end Engine

end DerivativeParsing
