import DerivativeParsing.Proofs.Engine.Reached

namespace DerivativeParsing

/-!
# Turns of an engine

Whatever is asked of an engine, seen from the table of compacted nodes only three things
happen to it: its grammar grows while the table stays as it is, a node is compacted, and
nodes are collected.  These are its turns.

Every operation on validated nodes takes a number of turns (`Coherent.attains_trail`), so
every state that an engine gets into is reached by turns from a new one, with a grammar that
may grow in between (`Reached.of_turns`).
-/

namespace Engine

variable {Λ : Lexicon} {α : Type} {excused : Prop} {engine before after : Engine Λ}
  {node root : Handle} {token : Λ.Token} {tokens : List Λ.Token}

section Turns

/-- One thing that happens to a coherent engine. -/
inductive Turns : Engine Λ → Engine Λ → Prop
  | grown {before after : Engine Λ} : after.Coherent → before.grammar.Grows after.grammar →
      (∀ node, after.tables.compact.peek? node = before.tables.compact.peek? node) →
      Turns before after
  | compacted {before after : Engine Λ} {node result : Handle} : before.grammar.Valid node →
      (compact node).run before = .ok result after → Turns before after
  | collected {before : Engine Λ} (roots : List Handle) {journal : List (Event Λ)} :
      before.journal <:+ journal →
      Turns before
        { before with
          grammar := (before.grammar.collect roots).2
          tables := (before.tables.sweep (before.grammar.collect roots).2.contains).2.2
          journal := journal }

/-- A number of things that happen to an engine. -/
def Trail : Engine Λ → Engine Λ → Prop := Relation.ReflTransGen Turns

/-- A compaction that has ended has given a residual by the empty word. -/
theorem Coherent.yields_of_run {node result : Handle} (hCoherent : before.Coherent)
    (hValid : before.grammar.Valid node) (hRun : (compact node).run before = .ok result after) :
    Yields .compact before (.residual node) (fun _ _ => False) before result after := by
  have hAttains : Attains True (compact node) before
      (Yields .compact before (.residual node) (fun _ _ => False) before) :=
    yields_compact hCoherent hValid (fun _ => trivial) fun _ => trivial
  exact hAttains.of_run hRun

theorem Turns.coherent (hCoherent : before.Coherent) (hTurns : Turns before after) :
    after.Coherent := by
  cases hTurns with
  | grown hAfter _ _ => exact hAfter
  | compacted hValid hRun =>
      exact ((hCoherent.yields_of_run hValid hRun).consumes hCoherent).coherent
  | collected roots hJournal => exact hCoherent.collect roots _ hJournal

theorem Trail.coherent (hCoherent : before.Coherent) (hTrail : Trail before after) :
    after.Coherent := by
  induction hTrail with
  | refl => exact hCoherent
  | tail _ hTurns ih => exact hTurns.coherent ih

/-- What every turn of a coherent engine keeps, a trail keeps. -/
theorem Trail.keeps {invariant : Engine Λ → Prop}
    (hTurns : ∀ before after, before.Coherent → Turns before after → invariant before →
      invariant after)
    (hCoherent : before.Coherent) (hTrail : Trail before after) (hBefore : invariant before) :
    invariant after := by
  induction hTrail with
  | refl => exact hBefore
  | tail hTrail hTurn ih => exact hTurns _ _ (Trail.coherent hCoherent hTrail) hTurn ih

theorem trail_consulted (hCoherent : before.Coherent) (hConsulted : before.Consulted after) :
    Trail before after := by
  refine Relation.ReflTransGen.single
    (.grown (hCoherent.consulted hConsulted) ?_ hConsulted.compact)
  rw [hConsulted.grammar]
  exact (Grammar.Keeps.refl _).grows

theorem trail_reported (hCoherent : engine.Coherent) (event : Event Λ) :
    Trail engine { engine with journal := event :: engine.journal } :=
  Relation.ReflTransGen.single
    (.grown (hCoherent.report _ (List.suffix_cons _ _)) (Grammar.Keeps.refl _).grows fun _ => rfl)

end Turns

section Attained

/-- What an action attains in two respects it attains at once. -/
theorem Attains.and {action : Action Λ α} {post post' : α → Engine Λ → Prop}
    (hAttains : Attains excused action engine post)
    (hAttains' : Attains excused action engine post') :
    Attains excused action engine fun result after => post result after ∧ post' result after := by
  unfold Attains at *
  cases hRun : action.run engine with
  | ok result after =>
      rw [hRun] at hAttains hAttains'
      exact ⟨hAttains, hAttains'⟩
  | error fault after =>
      rw [hRun] at hAttains
      exact hAttains

/-- What an action attains is attained by its run. -/
theorem Attains.run_eq {action : Action Λ α} {post : α → Engine Λ → Prop}
    (hAttains : Attains excused action engine post) :
    Attains excused action engine fun result after =>
      action.run engine = .ok result after ∧ post result after := by
  unfold Attains at *
  cases hRun : action.run engine with
  | ok result after =>
      rw [hRun] at hAttains
      exact ⟨rfl, hAttains⟩
  | error fault after =>
      rw [hRun] at hAttains
      exact hAttains

/-- A step of an engine takes turns, and goes on from a node by a word. -/
def Proceeds (word : List Λ.Token) (before : Engine Λ) (node result : Handle)
    (after : Engine Λ) : Prop :=
  Trail before after ∧ Consumes word before node after result

theorem Proceeds.trans {middle : Engine Λ} {between result : Handle} {word word' : List Λ.Token}
    (hFirst : Proceeds word before node between middle)
    (hSecond : Proceeds word' middle between result after) :
    Proceeds (word ++ word') before node result after :=
  ⟨hFirst.1.trans hSecond.1, hFirst.2.trans hSecond.2⟩

theorem attains_trail_collectGarbage (roots : List Handle) :
    Attains True (collectGarbage roots) engine fun _ after => Trail engine after := by
  unfold collectGarbage collectNodes
  simp only [attains_bind, attains_build, attains_report, attains_get, attains_pure,
    attains_modifyGet]
  refine Relation.ReflTransGen.single (.collected roots ?_)
  exact ((List.suffix_cons _ _).trans (List.suffix_append _ _)).trans (List.suffix_cons _ _)

variable (hCoherent : engine.Coherent) (hValid : engine.grammar.Valid node)

include hCoherent hValid

theorem attains_proceeds_derive :
    Attains True (derive node token) engine fun result after =>
      Proceeds [token] engine node result after := by
  refine (yields_derive hCoherent hValid (fun _ => trivial) fun _ => trivial).mono ?_
  intro result after hYields
  have hConsumes := hYields.consumes hCoherent
  obtain ⟨knots, hUnderway, -, -⟩ := hYields
  exact ⟨Relation.ReflTransGen.single (.grown hConsumes.coherent hUnderway.keeps.grows
    (hUnderway.others .compact nofun)), hConsumes⟩

theorem attains_proceeds_compact :
    Attains True (compact node) engine fun result after =>
      Proceeds [] engine node result after := by
  refine (attains_compact hCoherent hValid (fun _ => trivial) fun _ => trivial).run_eq.mono ?_
  rintro result after ⟨hRun, hConsumes⟩
  exact ⟨Relation.ReflTransGen.single (.compacted hValid hRun), hConsumes⟩

theorem attains_proceeds_collectAfter (steps : Nat) :
    Attains True (collectAfter steps node) engine fun _ after =>
      Proceeds [] engine node node after := by
  refine Attains.and ?_ (attains_collectAfter hCoherent hValid steps)
  unfold collectAfter
  rw [attains_bind, attains_get]
  dsimp only
  split
  · exact (attains_trail_collectGarbage [node]).bind fun _ _ hTrail => attains_pure.mpr hTrail
  · exact attains_pure.mpr Relation.ReflTransGen.refl

omit hCoherent hValid in
/-- A step ends with a report and perhaps a collection. -/
theorem Proceeds.attains_concluded {word : List Λ.Token} {result : Handle}
    (hProceeds : Proceeds word before node result engine) (event : Event Λ) (steps : Nat) :
    Attains True
      (do
        report event
        collectAfter steps result
        return result)
      engine fun result after => Proceeds word before node result after := by
  rw [attains_bind, attains_report]
  have hReported := hProceeds.2.reported event
  refine (attains_proceeds_collectAfter hReported.coherent hReported.residual.valid steps).bind
    fun _ after hCollected => ?_
  rw [attains_pure, ← List.append_nil word]
  exact ⟨(hProceeds.1.trans (trail_reported hProceeds.2.coherent event)).trans hCollected.1,
    hReported.trans hCollected.2⟩

theorem attains_proceeds_recogniseStep (steps : Nat) :
    Attains True (plain.recogniseStep steps node token) engine fun result after =>
      Proceeds [token] engine node result after := by
  simp only [Manner.recogniseStep, liftM_self]
  refine (attains_proceeds_derive hCoherent hValid).bind ?_
  intro derived middle hDerived
  rw [attains_bind, attains_get]
  exact hDerived.attains_concluded _ _

theorem attains_proceeds_parseStep (consumed : Nat) :
    Attains True (plain.parseStep consumed node token) engine fun result after =>
      Proceeds [token] engine node result after := by
  have hAdvance : Attains True (plain.advance node token) engine fun result after =>
      Proceeds [token] engine node result after := by
    simp only [Manner.advance, liftM_self]
    refine (attains_proceeds_derive hCoherent hValid).bind ?_
    intro derived middle hDerived
    rw [attains_bind, attains_get]
    split
    · refine (attains_proceeds_compact hDerived.2.coherent hDerived.2.residual.valid).mono ?_
      exact fun compacted after hCompacted => hDerived.trans hCompacted
    · exact attains_pure.mpr hDerived
  simp only [Manner.parseStep, liftM_self]
  refine hAdvance.bind ?_
  intro advanced middle hAdvanced
  rw [attains_bind, attains_get]
  exact hAdvanced.attains_concluded _ _

theorem attains_trail_recogniseFrom (failure : Option CursorError) (steps : Nat) :
    Attains True (plain.recogniseFrom failure tokens steps node) engine fun _ after =>
      Trail engine after := by
  induction tokens generalizing engine node steps with
  | nil =>
      cases failure with
      | some error => exact attains_pure.mpr Relation.ReflTransGen.refl
      | none =>
          refine (attains_isNullable hCoherent.informed hValid).bind ?_
          rintro value after ⟨hConsulted, -⟩
          exact attains_pure.mpr (trail_consulted hCoherent hConsulted)
  | cons token tokens ih =>
      rw [Manner.recogniseFrom]
      refine (attains_proceeds_recogniseStep hCoherent hValid steps).bind ?_
      intro next middle hNext
      refine (ih hNext.2.coherent hNext.2.residual.valid (steps + 1)).mono ?_
      exact fun result after hTrail => hNext.1.trans hTrail

theorem attains_trail_parseFrom (limit : Option Nat) (failure : Option CursorError)
    (consumed : Nat) :
    Attains True (plain.parseFrom limit failure tokens consumed node) engine fun _ after =>
      Trail engine after := by
  have hHalt {engine : Engine Λ} {node : Handle} (hCoherent : engine.Coherent)
      (consumed : Nat) :
      Attains True (halt node consumed) engine fun _ after => Trail engine after :=
    trail_reported hCoherent _
  induction tokens generalizing engine node consumed with
  | nil =>
      cases failure with
      | some error =>
          rw [Manner.parseFrom]
          split
          · exact hHalt hCoherent consumed
          · exact attains_pure.mpr Relation.ReflTransGen.refl
      | none =>
          refine (attains_forestOf hCoherent.informed hValid fun _ => trivial).bind ?_
          rintro trees after ⟨hConsulted, -⟩
          exact attains_pure.mpr (trail_consulted hCoherent hConsulted)
  | cons token tokens ih =>
      rw [Manner.parseFrom]
      split
      · exact hHalt hCoherent consumed
      · refine (attains_proceeds_parseStep hCoherent hValid consumed).bind ?_
        intro next middle hNext
        refine (ih hNext.2.coherent hNext.2.residual.valid (consumed + 1)).mono ?_
        exact fun result after hTrail => hNext.1.trans hTrail

end Attained

section Calls

theorem attains_trail_parseWithLimit (hCoherent : engine.Coherent) (root : Handle)
    (input : Reading Λ.Token) (limit : Option Nat) :
    Attains True (parseWithLimit root input limit) engine fun _ after => Trail engine after :=
  attains_validated (fun hValid => attains_trail_parseFrom hCoherent hValid _ _ 0)
    fun _ _ => Relation.ReflTransGen.refl

/-- An operation on validated nodes takes a number of turns. -/
theorem Coherent.attains_trail (hCoherent : engine.Coherent) (call : Call Λ)
    (hNodes : ∀ node ∈ call.nodes, engine.grammar.Valid node) :
    Attains True call.action engine fun _ after => Trail engine after := by
  have hConsulted {α : Type} {post : α → Engine Λ → Prop} {query : Action Λ α}
      (hQuery : Attains True query engine fun result after =>
        engine.Consulted after ∧ post result after) :
      Attains True (do let _ ← query) engine fun _ after => Trail engine after :=
    hQuery.bind fun _ _ hAfter => attains_pure.mpr (trail_consulted hCoherent hAfter.1)
  have hInformed := hCoherent.informed
  have hSelf {node : Handle} {nodes : List Handle} (hNode : call.nodes = node :: nodes) :
      engine.grammar.Valid node := hNodes node (by rw [hNode]; exact List.mem_cons_self)
  cases call with
  | derive node token =>
      refine (attains_proceeds_derive hCoherent (hSelf rfl)).bind fun _ _ hAfter => ?_
      exact attains_pure.mpr hAfter.1
  | compact node =>
      refine (attains_proceeds_compact hCoherent (hSelf rfl)).bind fun _ _ hAfter => ?_
      exact attains_pure.mpr hAfter.1
  | isNullable node => exact hConsulted (attains_isNullable hInformed (hSelf rfl))
  | isEmpty node => exact hConsulted (attains_isEmpty hInformed (hSelf rfl))
  | isConsuming node => exact hConsulted (attains_isConsuming hInformed (hSelf rfl))
  | isNullOnly node => exact hConsulted (attains_isNullOnly hInformed (hSelf rfl))
  | forestOf node => exact hConsulted (attains_forestOf hInformed (hSelf rfl) fun _ => trivial)
  | collectGarbage roots =>
      exact (attains_trail_collectGarbage roots).bind fun _ _ hAfter => attains_pure.mpr hAfter
  | recognises root input =>
      have hRun : Attains True (Engine.recognises root input) engine
          fun _ after => Trail engine after :=
        attains_validated (fun hValid => attains_trail_recogniseFrom hCoherent hValid _ 0)
          fun _ _ => Relation.ReflTransGen.refl
      exact hRun.bind fun _ _ hAfter => attains_pure.mpr hAfter
  | parse root input =>
      have hRun : Attains True (Engine.parse root input) engine
          fun _ after => Trail engine after := by
        refine (attains_trail_parseWithLimit hCoherent root input none).bind ?_
        -- The outcome is only repackaged.
        rintro (error | (trees | ⟨node, consumed⟩)) after hAfter
        · exact attains_pure.mpr hAfter
        · exact attains_pure.mpr hAfter
        · exact attains_pure.mpr hAfter
      exact hRun.bind fun _ _ hAfter => attains_pure.mpr hAfter
  | parseWithLimit root input limit =>
      refine (attains_trail_parseWithLimit hCoherent root input limit).bind fun _ _ hAfter => ?_
      exact attains_pure.mpr hAfter

/-- What holds of new engines and is kept by every turn holds in every state that an engine
gets into. -/
theorem Reached.of_turns {invariant : Engine Λ → Prop}
    (hFresh : ∀ (grammar : Grammar Λ) (configuration : Configuration) (patience : Nat),
      invariant { grammar := grammar, configuration := configuration, patience := patience })
    (hTurns : ∀ before after, before.Coherent → Turns before after → invariant before →
      invariant after)
    (hReached : Reached engine) : invariant engine := by
  have hGrown {engine : Engine Λ} {grammar : Grammar Λ} (hReached : Reached engine)
      (hAfter : Reached { engine with grammar := grammar })
      (hGrows : engine.grammar.Grows grammar) (hBefore : invariant engine) :
      invariant { engine with grammar := grammar } :=
    hTurns _ _ hReached.coherent (.grown hAfter.coherent hGrows fun _ => rfl) hBefore
  induction hReached with
  | fresh configuration patience _ => exact hFresh _ configuration patience
  | call call hReached hNodes hRun ih =>
      refine Trail.keeps hTurns hReached.coherent ?_ ih
      refine (hReached.coherent.attains_trail call fun node hNode => ?_).of_run hRun
      exact Grammar.validate_eq_ok_iff.mp (hNodes node hNode)
  | @alloc engine node origin hReached ih =>
      exact hGrown hReached (.alloc node origin hReached)
        (engine.grammar.keeps_alloc node origin).grows ih
  | setTarget hReached hSet ih =>
      obtain ⟨hUnset, hPatch⟩ := Grammar.setTarget_eq_ok hSet
      refine hGrown hReached (.setTarget hReached hSet) ?_ ih
      rw [hPatch]
      exact Grammar.grows_patch hUnset _
  | fill target hReached hUnset ih =>
      exact hGrown hReached (.fill target hReached hUnset) (Grammar.grows_patch hUnset _) ih

end Calls

end Engine

end DerivativeParsing
