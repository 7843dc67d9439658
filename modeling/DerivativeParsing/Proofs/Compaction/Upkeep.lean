import DerivativeParsing.Proofs.Compaction.Drafting
import DerivativeParsing.Proofs.Compaction.Trim
import DerivativeParsing.Proofs.Engine.Turn

namespace DerivativeParsing

/-!
# Remembered compactions stay condensed

In every state that an engine gets into, whatever is remembered as the compacted form of a
node stands for that node (`Reached.condensed`): growth of the grammar and collections leave
alone the nodes that the table speaks of, and a compaction adds to the table what it has
condensed.

So the result of a compaction stands for its node (`Coherent.condenses_of_run`), however much
of it was remembered, and a node in which every cycle passes through a delegate is compacted to
such a result (`Coherent.exists_shrunk`).
-/

namespace Engine

open Grammar

variable {Λ : Lexicon} {engine before after : Engine Λ} {node result : Handle}

/-- Every compacted node that is remembered stands for its node. -/
def Condensed (engine : Engine Λ) : Prop :=
  engine.draft.Condensed engine.grammar fun _ _ => False

/-- A coherent engine may begin to compact nodes of its grammar. -/
theorem Coherent.drafting (hCoherent : engine.Coherent) : Drafting engine.grammar engine where
  founded := hCoherent.founded
  keeps := Keeps.refl _
  informed := hCoherent.informed
  live node result hFound := by
    obtain ⟨-, hResidual⟩ := hCoherent.recalled .compact node result hFound
    obtain ⟨found, hResult, -⟩ := hResidual.valid.get?
    exact ⟨found, hResult⟩

/-- A compaction that has ended has followed the rules. -/
theorem Coherent.compacts_of_run (hCoherent : engine.Coherent)
    (hValid : engine.grammar.Valid node) (hRun : (compact node).run engine = .ok result after) :
    Draft.Compacts engine.grammar engine.draft node after.draft result := by
  have hDrafts := drafts_compactWithin (engine.grammar.descentBound + 1) hValid engine
    hCoherent.drafting
  have hAttains : Attains True (compact node) engine fun result after =>
      Drafting engine.grammar after ∧
        Draft.Compacts engine.grammar engine.draft node after.draft result ∧
        ∃ found, after.grammar.get? result = some found := by
    simp only [compact, Manner.compact, liftM_self]
    rw [attains_bind, attains_get]
    exact hDrafts
  exact (hAttains.of_run hRun).2.1

/-- A compaction keeps the nodes of the grammar, and remembers valid nodes of it only. -/
theorem Coherent.underway_of_run (hCoherent : engine.Coherent)
    (hValid : engine.grammar.Valid node) (hRun : (compact node).run engine = .ok result after) :
    ∃ knots, Underway .compact engine knots after := by
  obtain ⟨knots, hUnderway, -, -⟩ := hCoherent.yields_of_run hValid hRun
  exact ⟨knots, hUnderway⟩

/-- The result of a compaction stands for its node, and so does everything that is remembered
then. -/
theorem Coherent.condenses_of_run (hCoherent : engine.Coherent) (hCondensed : engine.Condensed)
    (hValid : engine.grammar.Valid node) (hRun : (compact node).run engine = .ok result after) :
    after.Condensed ∧
      after.grammar.Condenses after.grammar (fun _ _ => False) node result := by
  obtain ⟨hAfter, hResult⟩ := (hCoherent.compacts_of_run hValid hRun).condenses hCondensed
    fun _ _ => False.elim
  obtain ⟨knots, hUnderway⟩ := hCoherent.underway_of_run hValid hRun
  -- About its valid nodes the grammar from before agrees with the grammar there is now.
  have hConserves : Conserves engine.grammar after.grammar after.grammar after.grammar
      (fun _ _ => False) engine.grammar.Valid fun _ => True :=
    conserves_of_grows hUnderway.keeps.grows fun _ _ hImage _ => hImage
  refine ⟨fun other found hFound => ?_, hConserves.condenses hValid trivial hResult⟩
  exact hConserves.condenses (hUnderway.recalled other found hFound).1 trivial
    (hAfter other found hFound)

theorem Turns.condensed (hCoherent : before.Coherent) (hTurns : Turns before after)
    (hCondensed : before.Condensed) : after.Condensed := by
  have hKey {node result : Handle} (hFound : before.draft.recalled node = some result) :
      before.grammar.Valid node := (hCoherent.recalled .compact node result hFound).1
  cases hTurns with
  | grown _ hGrows hPeek =>
      have hConserves : Conserves before.grammar after.grammar before.grammar after.grammar
          (fun _ _ => False) before.grammar.Valid fun _ => True :=
        conserves_of_grows hGrows fun _ _ hImage hOpen =>
          hGrows _ _ hImage fun hUnset => (hOpen hUnset).elim fun _ => id
      intro node result hFound
      have hBefore : before.draft.recalled node = some result := (hPeek node).symm.trans hFound
      exact hConserves.condenses (hKey hBefore) trivial (hCondensed node result hBefore)
  | compacted hValid hRun => exact (hCoherent.condenses_of_run hCondensed hValid hRun).1
  | collected roots hJournal =>
      -- A node that is kept is reached from a root, and so is all it reaches.
      have hKept (node : Handle) (hNode : before.grammar.Kept roots node) (child : Handle)
          (hChild : child ∈ before.grammar.successors node) : before.grammar.Kept roots child := by
        obtain ⟨root, hRoot, hReaches⟩ := hNode
        exact ⟨root, hRoot, hReaches.tail hChild⟩
      have hConserves : Conserves before.grammar (before.grammar.collect roots).2 before.grammar
          (before.grammar.collect roots).2 (fun _ _ => False)
          (fun node => before.grammar.Valid node ∧ before.grammar.Kept roots node)
          (before.grammar.Kept roots) :=
        ⟨fun _ hNode => hNode.1.agrees_collect hNode.2,
          fun node hNode child hChild => ⟨hNode.1.mono (Relation.ReflTransGen.single hChild),
            hKept node hNode.2 child hChild⟩,
          fun _ _ hResult hImage _ => get?_collect.mpr ⟨hImage, hResult⟩, hKept⟩
      have hAlive {handle : Handle}
          (hContains : (before.grammar.collect roots).2.contains handle = true) :
          before.grammar.Kept roots handle := by
        obtain ⟨found, hFound⟩ := contains_eq_true_iff.mp hContains
        exact kept_of_collect_get? hFound
      intro node result hFound
      obtain ⟨hBefore, hNode, hResult⟩ := Task.remembered_sweep _ _
        (show Task.compact.remembered _ node = some result from hFound)
      exact hConserves.condenses ⟨hKey hBefore, hAlive hNode⟩ (hAlive hResult)
        (hCondensed node result hBefore)

/-- In every state that an engine gets into, compacted nodes stand for their nodes. -/
theorem Reached.condensed (hReached : Reached engine) : engine.Condensed :=
  hReached.of_turns (fun _ _ _ _ _ hFound => nomatch hFound)
    fun _ _ hCoherent hTurns => hTurns.condensed hCoherent

/-- What is known of a compaction that has ended. -/
structure Shrunk (before : Engine Λ) (node : Handle) (after : Engine Λ) (result : Handle) :
    Prop where
  consumes : Consumes [] before node after result
  condensed : after.Condensed
  keeps : before.grammar.Keeps after.grammar
  shrinks : after.grammar.Shrinks node result

theorem Coherent.shrunk (hCoherent : engine.Coherent) (hCondensed : engine.Condensed)
    (hValid : engine.grammar.Valid node) (hRun : (compact node).run engine = .ok result after) :
    Shrunk engine node after result := by
  obtain ⟨hAfter, hCondenses⟩ := hCoherent.condenses_of_run hCondensed hValid hRun
  obtain ⟨_, hUnderway⟩ := hCoherent.underway_of_run hValid hRun
  have hYields := hCoherent.yields_of_run hValid hRun
  exact ⟨hYields.consumes hCoherent, hAfter, hUnderway.keeps, shrinks_iff.mpr hCondenses⟩

/-- Every valid node in which no cycle avoids the delegates is compacted. -/
theorem Coherent.exists_shrunk (hCoherent : engine.Coherent) (hCondensed : engine.Condensed)
    (hLimit : 1 ≤ engine.configuration.forestPassLimit) (hValid : engine.grammar.Valid node)
    (hGuarded : engine.grammar.Guarded node) :
    ∃ compacted after, (compact node).run engine = .ok compacted after ∧
      Shrunk engine node after compacted := by
  obtain ⟨compacted, after, hRun, -⟩ :=
    (yields_compact hCoherent hValid id (absurd hGuarded)).exists_run
      (Nat.one_le_iff_ne_zero.mp hLimit)
  exact ⟨compacted, after, hRun, hCoherent.shrunk hCondensed hValid hRun⟩

end Engine

end DerivativeParsing
