import DerivativeParsing.Proofs.Engine.Logged

namespace DerivativeParsing

/-!
# The openings of a task

To say how often a delegate is entered, there is a manner that notes it: whenever a task
enters a delegate, it notes the delegate with the placeholder it has opened (`openings`).

The entries go with how the engine has changed (`Opens`).  No delegate is entered for which a
result is remembered, and a result is remembered before the recursion goes on, so no delegate
is entered twice; and a placeholder is pointed at its target before the recursion returns to
where it was opened.
-/

open Fixpoint

namespace Engine

/-- A delegate that was entered, and the placeholder that was opened for it. -/
structure Opening where
  delegate : Handle
  placeholder : Handle

/-- The manner of an engine that notes the delegates it enters. -/
def openings {Λ : Lexicon} : Manner Λ (Logged Opening Λ) where
  fallback := .solving
  solveForest handle := solveForest (Λ := Λ) handle
  openKnot delegate := do
    let placeholder ← build (Λ := Λ) Grammar.placeholder
    log ⟨delegate, placeholder.handle⟩
    return placeholder

variable {Λ : Lexicon} {task : Task Λ} {engine before middle after : Engine Λ}
  {entries : List Opening} {node : Handle}

/-- The derivative of a node by a token, with the delegates that were entered. -/
def deriveLogged (handle : Handle) (token : Λ.Token) : Logged Opening Λ Handle :=
  openings.derive handle token

/-- The compacted form of a node, with the delegates that were entered. -/
def compactLogged (handle : Handle) : Logged Opening Λ Handle := openings.compact handle

/-- How the engine has changed while a task has noted some openings. -/
structure Opens (task : Task Λ) (before : Engine Λ) (entries : List Opening)
    (after : Engine Λ) : Prop where
  keeps : before.grammar.Keeps after.grammar
  recalled : ∀ node, task.remembered before.tables node ≠ none →
    task.remembered after.tables node ≠ none
  entered : ∀ entry ∈ entries, task.remembered before.tables entry.delegate = none ∧
    task.remembered after.tables entry.delegate ≠ none
  once : (entries.map Opening.delegate).Nodup
  filled : ∀ entry ∈ entries, ∃ target,
    after.grammar.get? entry.placeholder = some (.delegate (some target))
  closed : ∀ handle, after.grammar.get? handle = some (.delegate none) →
    before.grammar.get? handle = some (.delegate none)

/-- Without an opening nodes are at most built, and results at most added. -/
theorem opens_nil (hKeeps : before.grammar.Keeps after.grammar)
    (hRecalled : ∀ node, task.remembered before.tables node ≠ none →
      task.remembered after.tables node ≠ none)
    (hClosed : ∀ handle, after.grammar.get? handle = some (.delegate none) →
      before.grammar.get? handle = some (.delegate none)) : Opens task before [] after :=
  ⟨hKeeps, hRecalled, by simp, List.nodup_nil, by simp, hClosed⟩

/-- What was entered first is remembered, so it is not entered again. -/
theorem Opens.trans {later : List Opening} (hFirst : Opens task before entries middle)
    (hSecond : Opens task middle later after) : Opens task before (later ++ entries) after where
  keeps := hFirst.keeps.trans hSecond.keeps
  recalled node hNode := hSecond.recalled node (hFirst.recalled node hNode)
  entered entry hEntry := by
    rcases List.mem_append.mp hEntry with hLater | hEarlier
    · obtain ⟨hNew, hOld⟩ := hSecond.entered entry hLater
      exact ⟨by_contra fun h => hFirst.recalled _ h hNew, hOld⟩
    · obtain ⟨hNew, hOld⟩ := hFirst.entered entry hEarlier
      exact ⟨hNew, hSecond.recalled _ hOld⟩
  once := by
    rw [List.map_append]
    refine List.nodup_append'.mpr ⟨hSecond.once, hFirst.once, ?_⟩
    intro delegate hLater hEarlier
    obtain ⟨entry, hEntry, rfl⟩ := List.mem_map.mp hLater
    obtain ⟨other, hOther, hSame⟩ := List.mem_map.mp hEarlier
    have hRecalled := (hFirst.entered other hOther).2
    rw [hSame] at hRecalled
    exact hRecalled (hSecond.entered entry hEntry).1
  filled entry hEntry := by
    rcases List.mem_append.mp hEntry with hLater | hEarlier
    · exact hSecond.filled entry hLater
    · obtain ⟨target, hTarget⟩ := hFirst.filled entry hEarlier
      exact ⟨target, hSecond.keeps.get? hTarget⟩
  closed handle hHandle := hFirst.closed handle (hSecond.closed handle hHandle)

/-- A result is added to what is remembered. -/
theorem opens_note (result : Handle) :
    Opens task engine []
      { engine with tables := task.note engine.tables node result } := by
  refine opens_nil (Grammar.Keeps.refl _) (fun other hOther => ?_) fun _ => id
  rw [Task.remembered_note]
  split
  · simp
  · exact hOther

/-- The engine after a placeholder was opened for a node. -/
def opened (task : Task Λ) (engine : Engine Λ) (node : Handle) : Engine Λ :=
  { engine with
    grammar := (engine.grammar.alloc (.delegate none) .derived).2
    tables := task.note engine.tables node engine.grammar.nextHandle }

/-- Once the target of an opened placeholder is there, the opening is over. -/
theorem Opens.fill {result : Handle} (hNew : task.remembered engine.tables node = none)
    (hOpens : Opens task (opened task engine node) entries middle) :
    Opens task engine (entries ++ [⟨node, engine.grammar.nextHandle⟩])
      { middle with
        grammar := middle.grammar.fill ⟨engine.grammar.nextHandle⟩ result } := by
  have hNoted (other : Handle) : task.remembered (opened task engine node).tables other =
      if other = node then some engine.grammar.nextHandle
      else task.remembered engine.tables other := Task.remembered_note _ _ _ _ _
  have hBuilt (handle : Handle) : (opened task engine node).grammar.get? handle =
      if handle = engine.grammar.nextHandle then some (.delegate none)
      else engine.grammar.get? handle := Grammar.get?_alloc _ _ _ _
  have hUnset : middle.grammar.get? engine.grammar.nextHandle = some (.delegate none) :=
    hOpens.keeps.get?_opened
  have hFilled (handle : Handle) :
      (middle.grammar.fill ⟨engine.grammar.nextHandle⟩ result).get? handle =
        if handle = engine.grammar.nextHandle then some (.delegate (some result))
        else middle.grammar.get? handle := Grammar.get?_patch hUnset _ handle
  have hNode : task.remembered middle.tables node ≠ none :=
    hOpens.recalled node (by simp [hNoted])
  refine ⟨hOpens.keeps.patch_opened result, fun other hOther => ?_, fun entry hEntry => ?_, ?_,
    fun entry hEntry => ?_, fun handle hHandle => ?_⟩
  · refine hOpens.recalled other ?_
    rw [hNoted]
    split
    · simp
    · exact hOther
  · rcases List.mem_append.mp hEntry with hLater | hFirst
    · obtain ⟨hUnknown, hKnown⟩ := hOpens.entered entry hLater
      rw [hNoted] at hUnknown
      split at hUnknown
      · cases hUnknown
      · exact ⟨hUnknown, hKnown⟩
    · obtain rfl := List.mem_singleton.mp hFirst
      exact ⟨hNew, hNode⟩
  · rw [List.map_append]
    refine List.nodup_append'.mpr ⟨hOpens.once, List.nodup_singleton _, ?_⟩
    rw [List.map_singleton, List.disjoint_singleton]
    intro hMem
    obtain ⟨entry, hEntry, hSame⟩ := List.mem_map.mp hMem
    have hUnknown := (hOpens.entered entry hEntry).1
    rw [hNoted, if_pos hSame] at hUnknown
    cases hUnknown
  · show ∃ target, (middle.grammar.fill _ result).get? entry.placeholder = _
    rw [hFilled]
    rcases List.mem_append.mp hEntry with hLater | hFirst
    · obtain ⟨target, hTarget⟩ := hOpens.filled entry hLater
      split
      · exact ⟨result, rfl⟩
      · exact ⟨target, hTarget⟩
    · obtain rfl := List.mem_singleton.mp hFirst
      exact ⟨result, if_pos rfl⟩
  · change (middle.grammar.fill _ result).get? handle = some (.delegate none) at hHandle
    rw [hFilled] at hHandle
    split at hHandle
    · cases hHandle
    · next hOther =>
        have hBefore := hOpens.closed handle hHandle
        rwa [hBuilt, if_neg hOther] at hBefore

/-- The delegates that a task enters go with how it changes the engine. -/
def opens (task : Task Λ) : Chronicle Opening Λ where
  tells := Opens task
  idle hIdle := by
    refine opens_nil ?_ (fun node hNode => ?_) (fun handle hHandle => ?_)
    · rw [hIdle.grammar]
      exact Grammar.Keeps.refl _
    · rwa [hIdle.remembered]
    · rwa [hIdle.grammar] at hHandle
  trans := Opens.trans

/-- A placeholder is opened for a delegate without a result, and pointed at what the target
becomes. -/
theorem follows_opening {logged : Logged Opening Λ Handle} {action : Action Λ Handle}
    (hNew : task.remembered engine.tables node = none)
    (hTarget : ∀ engine, Follows (opens task) engine logged action) :
    Follows (opens task) engine
      (do
        let placeholder ← openings.openKnot node
        remember (Λ := Λ) fun tables => ((), task.note tables node placeholder.handle)
        let result ← logged
        build (Λ := Λ) fun grammar => ((), grammar.fill placeholder result)
        return result)
      (do
        let placeholder ← build Grammar.placeholder
        remember fun tables => ((), task.note tables node placeholder.handle)
        let result ← action
        build fun grammar => ((), grammar.fill placeholder result)
        return result) := by
  intro log
  -- From where the target is turned to, both sides do the same.
  let entry : Opening := ⟨node, engine.grammar.nextHandle⟩
  let finish (result : Handle) : Action Λ Handle := do
    build fun grammar => ((), grammar.fill ⟨engine.grammar.nextHandle⟩ result)
    return result
  change Accords (opens task) engine log ((action >>= finish).run (opened task engine node))
    ((logged.run (entry :: log) >>= fun found =>
      finish found.1 >>= fun result => pure (result, found.2)).run (opened task engine node))
  have hLogged := hTarget (opened task engine node) (entry :: log)
  rw [EStateM.run_bind, EStateM.run_bind]
  cases hRun : action.run (opened task engine node) with
  | error fault after =>
      rw [hRun] at hLogged
      rw [show (logged.run _).run _ = .error fault after from hLogged]
      rfl
  | ok result middle =>
      rw [hRun] at hLogged
      obtain ⟨entries, hLogged, hOpens⟩ := hLogged
      rw [hLogged]
      refine ⟨entries ++ [entry], ?_, Opens.fill hNew hOpens⟩
      rw [List.append_assoc]
      rfl

/-- The delegates that are entered are on record, whatever the task. -/
theorem records_openings (task : Task Λ) : openings.Records task (opens task) where
  fallback := rfl
  solveForest engine handle := by
    refine follows_lift fun result after hRun => ?_
    obtain ⟨notes, -, rfl⟩ := run_solveForest_eq_ok hRun
    exact opens_nil (Grammar.Keeps.refl _) (fun _ => id) fun _ => id
  alloc engine found hFound := by
    refine opens_nil (Grammar.keeps_alloc _ _ _) (fun _ => id) fun handle hHandle => ?_
    change (engine.grammar.alloc found .derived).2.get? handle = some (.delegate none) at hHandle
    rw [Grammar.get?_alloc] at hHandle
    split at hHandle
    · exact absurd (Option.some.inj hHandle) hFound
    · exact hHandle
  note engine node result := opens_note result
  opening _ _ _ _ := follows_opening

end Engine

end DerivativeParsing
