import DerivativeParsing.Proofs.Engine.Coherence

namespace DerivativeParsing

/-!
# Runs

A run consumes its tokens one after another (`consume`), and every step of it leads to
what the node leaves after one more token (`attains_recogniseStep`, `attains_parseStep`).
So after any part of the input the engine is coherent, and the current node is valid and
stands for what the root leaves after that part (`attains_consume`).

`recogniseFrom_append` and `parseFrom_append` say that a run over some tokens and then
others consumes the first ones and goes on with the others.
-/

namespace Engine

variable {Λ : Lexicon} {excused : Prop} {engine : Engine Λ} {token : Λ.Token}
  {tokens start rest : List Λ.Token} {node root : Handle}
  {failure : Option CursorError} {limit : Option Nat}

/-- Take one step for each token. -/
def consume (step : Nat → Handle → Λ.Token → Action Λ Handle) :
    (tokens : List Λ.Token) → (steps : Nat) → (node : Handle) → Action Λ Handle
  | [], _, node => return node
  | token :: tokens, steps, node => do
      let node ← step steps node token
      consume step tokens (steps + 1) node

theorem recogniseFrom_append (steps : Nat) :
    plain.recogniseFrom failure (start ++ rest) steps node =
      (do
        let node ← consume plain.recogniseStep start steps node
        plain.recogniseFrom failure rest (steps + start.length) node) := by
  induction start generalizing steps node with
  | nil => rfl
  | cons token start ih =>
      rw [List.cons_append, Manner.recogniseFrom, consume, bind_assoc]
      refine congrArg _ (funext fun node => ?_)
      rw [ih, List.length_cons, Nat.add_right_comm, Nat.add_assoc]

/-- A parse goes on after some of its tokens if the limit lets it. -/
theorem parseFrom_append {consumed : Nat}
    (hLimit : ∀ count, count < start.length → isLimit limit (consumed + count) = false) :
    plain.parseFrom limit failure (start ++ rest) consumed node =
      (do
        let node ← consume plain.parseStep start consumed node
        plain.parseFrom limit failure rest (consumed + start.length) node) := by
  induction start generalizing consumed node with
  | nil => rfl
  | cons token start ih =>
      have hFirst := hLimit 0 (Nat.succ_pos _)
      rw [Nat.add_zero] at hFirst
      rw [List.cons_append, Manner.parseFrom, consume, bind_assoc, hFirst,
        if_neg Bool.false_ne_true]
      refine congrArg _ (funext fun node => ?_)
      rw [ih fun count hCount => ?_, List.length_cons, Nat.add_right_comm, Nat.add_assoc]
      rw [Nat.add_right_comm, Nat.add_assoc]
      exact hLimit (count + 1) (Nat.succ_lt_succ hCount)

section Steps

/-- A report consumes no token. -/
theorem Consumes.reported {before : Engine Λ} {word : List Λ.Token} {result : Handle}
    (hConsumes : Consumes word before node engine result) (event : Event Λ) :
    Consumes word before node { engine with journal := event :: engine.journal } result where
  coherent := hConsumes.coherent.report _ (List.suffix_cons _ _)
  configuration := hConsumes.configuration
  journal := hConsumes.journal.trans (List.suffix_cons _ _)
  residual := hConsumes.residual.mono fun h => h.of_suffix (List.suffix_cons _ _)

/-- A step ends with a report and perhaps a collection. -/
theorem Consumes.attains_concluded {before : Engine Λ} {word : List Λ.Token} {result : Handle}
    (hConsumes : Consumes word before node engine result) (event : Event Λ) (steps : Nat) :
    Attains excused
      (do
        report event
        collectAfter steps result
        return result)
      engine fun result after => Consumes word before node after result := by
  rw [attains_bind, attains_report]
  have hReported := hConsumes.reported event
  refine (attains_collectAfter hReported.coherent hReported.residual.valid steps).bind
    fun _ after hCollected => ?_
  -- The collection consumes no token either.
  rw [attains_pure, ← List.append_nil word]
  exact hReported.trans hCollected

variable (hCoherent : engine.Coherent) (hValid : engine.grammar.Valid node)
  (hExcused : engine.configuration.forestPassLimit = 0 → excused)
  (hGuarded : ¬ engine.grammar.Guarded node → excused)

include hCoherent hValid hExcused hGuarded

theorem attains_recogniseStep (steps : Nat) :
    Attains excused (plain.recogniseStep steps node token) engine fun result after =>
      Consumes [token] engine node after result := by
  simp only [Manner.recogniseStep, liftM_self]
  refine (attains_derive hCoherent hValid hExcused hGuarded).bind ?_
  intro derived middle hDerived
  rw [attains_bind, attains_get]
  exact hDerived.attains_concluded _ _

/-- A derivative stands for what is left of the node whether or not it is compacted. -/
theorem attains_advance :
    Attains excused (plain.advance node token) engine fun result after =>
      Consumes [token] engine node after result := by
  simp only [Manner.advance, liftM_self]
  refine (attains_derive hCoherent hValid hExcused hGuarded).bind ?_
  intro derived middle hDerived
  rw [attains_bind, attains_get]
  split
  · -- Compaction goes on from the derivative by the empty word.
    rw [← hDerived.configuration] at hExcused
    refine (attains_compact hDerived.coherent hDerived.residual.valid hExcused
      fun hNot => hGuarded fun h => hNot (hDerived.residual.guarded h)).mono ?_
    exact fun compacted after hCompacted => hDerived.trans hCompacted
  · exact attains_pure.mpr hDerived

theorem attains_parseStep (consumed : Nat) :
    Attains excused (plain.parseStep consumed node token) engine fun result after =>
      Consumes [token] engine node after result := by
  simp only [Manner.parseStep, liftM_self]
  refine (attains_advance hCoherent hValid hExcused hGuarded).bind ?_
  intro advanced middle hAdvanced
  rw [attains_bind, attains_get]
  exact hAdvanced.attains_concluded _ _

end Steps

/-- What every step attains, a run of steps attains for the whole of its tokens. -/
theorem attains_consume {step : Nat → Handle → Λ.Token → Action Λ Handle}
    (hStep : ∀ {engine : Engine Λ} {node : Handle} {token : Λ.Token}, engine.Coherent →
      engine.grammar.Valid node →
      (engine.configuration.forestPassLimit = 0 → excused) →
      (¬ engine.grammar.Guarded node → excused) → ∀ steps,
      Attains excused (step steps node token) engine fun result after =>
        Consumes [token] engine node after result)
    (hCoherent : engine.Coherent) (hValid : engine.grammar.Valid node)
    (hExcused : engine.configuration.forestPassLimit = 0 → excused)
    (hGuarded : ¬ engine.grammar.Guarded node → excused) (steps : Nat) :
    Attains excused (consume step tokens steps node) engine fun result after =>
      Consumes tokens engine node after result := by
  induction tokens generalizing engine node steps with
  | nil =>
      exact attains_pure.mpr
        (Consumes.of_agrees hCoherent rfl List.suffix_rfl hValid fun _ _ => rfl)
  | cons token tokens ih =>
      rw [consume]
      refine (hStep hCoherent hValid hExcused hGuarded steps).bind ?_
      intro next middle hNext
      -- The residual is as guarded as the node, and the configuration is the same, so the
      -- excuses carry over to the rest of the run.
      rw [← hNext.configuration] at hExcused
      refine (ih hNext.coherent hNext.residual.valid hExcused
        (fun hNot => hGuarded fun h => hNot (hNext.residual.guarded h)) (steps + 1)).mono ?_
      exact fun result after hLater => hNext.trans hLater

/-- A parse that has consumed a word and is not limited goes on to the trees of the word and
the tokens that are left. -/
theorem Consumes.attains_parseFrom {before : Engine Λ} {word : List Λ.Token}
    (hConsumes : Consumes word before root engine node)
    (hExcused : before.configuration.forestPassLimit = 0 → excused)
    (hGuarded : ¬ before.grammar.Guarded root → excused) (consumed : Nat) :
    Attains excused (plain.parseFrom none none tokens consumed node) engine fun result after =>
      after.Coherent ∧ ∃ trees, result = .ok (.complete trees) ∧
        before.grammar.Gathers after.Untruncated root (word ++ tokens) trees := by
  rw [← hConsumes.configuration] at hExcused
  rw [← List.append_nil tokens, parseFrom_append fun _ _ => rfl, List.append_nil]
  refine (attains_consume attains_parseStep hConsumes.coherent hConsumes.residual.valid hExcused
    (fun hNot => hGuarded fun h => hNot (hConsumes.residual.guarded h)) consumed).bind ?_
  intro result middle hRest
  rw [← hRest.configuration] at hExcused
  refine (attains_forestOf hRest.coherent.informed hRest.residual.valid hExcused).bind ?_
  rintro trees after ⟨hConsulted, hGathers⟩
  refine attains_pure.mpr ⟨hRest.coherent.consulted hConsulted, trees, rfl, ?_⟩
  have hResidual := (hConsumes.trans hRest).residual
  rw [← List.append_nil (word ++ tokens)]
  exact (hResidual.mono fun h => h.of_suffix hConsulted.journal).gathers hGathers

section Whole

variable (hCoherent : engine.Coherent) (hValid : engine.grammar.Valid node)
  (hExcused : engine.configuration.forestPassLimit = 0 → excused)
  (hGuarded : ¬ engine.grammar.Guarded node → excused)

include hCoherent hValid hExcused hGuarded

/-- Recognition answers whether the node accepts the tokens, unless the input failed. -/
theorem attains_recogniseFrom (steps : Nat) :
    Attains excused (plain.recogniseFrom failure tokens steps node) engine fun result after =>
      after.Coherent ∧ (failure = none → ∃ value, result = .ok value ∧
        (value = true ↔ engine.grammar.meaning .language node tokens ())) := by
  rw [← List.append_nil tokens, recogniseFrom_append, List.append_nil]
  refine (attains_consume attains_recogniseStep hCoherent hValid hExcused hGuarded
    steps).bind ?_
  intro result middle hConsumes
  cases failure with
  | some error => exact attains_pure.mpr ⟨hConsumes.coherent, nofun⟩
  | none =>
      have hResidual := hConsumes.residual
      refine (attains_isNullable hConsumes.coherent.informed hResidual.valid).bind ?_
      rintro value after ⟨hConsulted, hValue⟩
      refine attains_pure.mpr ⟨hConsumes.coherent.consulted hConsulted, fun _ =>
        ⟨value, rfl, hValue.trans ⟨fun hMatch => ?_, fun hMatch => ?_⟩⟩⟩
      · have hWhole := hResidual.sound .language [] () hMatch
        rw [Meaning.after, List.append_nil] at hWhole
        exact hWhole
      · apply hResidual.complete .language trivial [] ()
        rw [Meaning.after, List.append_nil]
        exact hMatch

/-- The trees of a parse that is not limited are those of the tokens. -/
theorem attains_parseFrom_complete (consumed : Nat) :
    Attains excused (plain.parseFrom none none tokens consumed node) engine fun result after =>
      after.Coherent ∧ ∃ trees, result = .ok (.complete trees) ∧
        engine.grammar.Gathers after.Untruncated node tokens trees :=
  (Consumes.of_agrees hCoherent rfl List.suffix_rfl hValid fun _ _ => rfl).attains_parseFrom
    hExcused hGuarded consumed

/-- A parse keeps the engine coherent, and is not refused unless the input failed. -/
theorem attains_parseFrom (consumed : Nat) :
    Attains excused (plain.parseFrom limit failure tokens consumed node) engine fun result after =>
      after.Coherent ∧ (failure = none → ∃ outcome, result = .ok outcome) := by
  have hHalt {engine : Engine Λ} {node : Handle} (hCoherent : engine.Coherent)
      (consumed : Nat) :
      Attains excused (halt node consumed) engine fun result after =>
        after.Coherent ∧ (failure = none → ∃ outcome, result = .ok outcome) :=
    ⟨hCoherent.report _ (List.suffix_cons _ _), fun _ => ⟨_, rfl⟩⟩
  induction tokens generalizing engine node consumed with
  | nil =>
      cases failure with
      | some error =>
          rw [Manner.parseFrom]
          split
          · exact hHalt hCoherent consumed
          · exact attains_pure.mpr ⟨hCoherent, nofun⟩
      | none =>
          refine (attains_forestOf hCoherent.informed hValid hExcused).bind ?_
          rintro trees after ⟨hConsulted, -⟩
          exact attains_pure.mpr ⟨hCoherent.consulted hConsulted, fun _ => ⟨_, rfl⟩⟩
  | cons token tokens ih =>
      rw [Manner.parseFrom]
      split
      · exact hHalt hCoherent consumed
      · refine (attains_parseStep hCoherent hValid hExcused hGuarded consumed).bind ?_
        intro next middle hNext
        rw [← hNext.configuration] at hExcused
        exact ih hNext.coherent hNext.residual.valid hExcused
          (fun hNot => hGuarded fun h => hNot (hNext.residual.guarded h)) (consumed + 1)

end Whole

section Validated

/-- A run goes on only if its root is valid. -/
theorem attains_validated {α : Type} {run : Action Λ (Except ParseError α)}
    {post : Except ParseError α → Engine Λ → Prop}
    (hRun : engine.grammar.Valid root → Attains excused run engine post)
    (hRefused : ∀ error, engine.grammar.validate root = .error error →
      post (.error (.grammar error)) engine) :
    Attains excused (validated (Λ := Λ) root run) engine post := by
  simp only [validated, liftM_self]
  rw [attains_bind, attains_get]
  cases hRoot : engine.grammar.validate root with
  | ok _ => exact hRun (Grammar.validate_eq_ok_iff.mp hRoot)
  | error error => exact attains_pure.mpr (hRefused error hRoot)

/-- A valid root is not refused. -/
theorem run_validated_of_ok {α : Type} (hRoot : engine.grammar.validate root = .ok ())
    (run : Action Λ (Except ParseError α)) :
    (validated (Λ := Λ) root run).run engine = run.run engine := by
  simp only [validated, liftM_self]
  rw [EStateM.run_bind, run_get]
  dsimp only
  rw [hRoot]

/-- A root that is not valid is refused, and nothing else happens. -/
theorem run_validated_of_error {α : Type} {error : GrammarError}
    (hError : engine.grammar.validate root = .error error)
    (run : Action Λ (Except ParseError α)) :
    (validated (Λ := Λ) root run).run engine = .ok (.error (.grammar error)) engine := by
  simp only [validated, liftM_self]
  rw [EStateM.run_bind, run_get]
  dsimp only
  rw [hError]
  rfl

variable (hCoherent : engine.Coherent)
  (hExcused : engine.configuration.forestPassLimit = 0 → excused)
  (hGuarded : ¬ engine.grammar.Guarded root → excused) (input : Reading Λ.Token)

include hCoherent hExcused hGuarded

theorem attains_recognises :
    Attains excused (recognises root input) engine fun result after =>
      after.Coherent ∧ (engine.grammar.Valid root → input.failure = none →
        ∃ value, result = .ok value ∧
          (value = true ↔ engine.grammar.meaning .language root input.tokens ())) := by
  refine attains_validated (fun hValid => ?_) fun error hError => ⟨hCoherent, fun hValid => ?_⟩
  · refine (attains_recogniseFrom hCoherent hValid hExcused hGuarded 0).mono ?_
    rintro result after ⟨hAfter, hResult⟩
    exact ⟨hAfter, fun _ => hResult⟩
  · exact nomatch hError.symm.trans (Grammar.validate_eq_ok_iff.mpr hValid)

theorem attains_parseWithLimit (limit : Option Nat) :
    Attains excused (parseWithLimit root input limit) engine fun result after =>
      after.Coherent ∧ (engine.grammar.Valid root → input.failure = none →
        ∃ outcome, result = .ok outcome) := by
  refine attains_validated (fun hValid => ?_) fun error hError => ⟨hCoherent, fun hValid => ?_⟩
  · refine (attains_parseFrom hCoherent hValid hExcused hGuarded 0).mono ?_
    rintro result after ⟨hAfter, hResult⟩
    exact ⟨hAfter, fun _ => hResult⟩
  · exact nomatch hError.symm.trans (Grammar.validate_eq_ok_iff.mpr hValid)

theorem attains_parse :
    Attains excused (parse root input) engine fun result after =>
      after.Coherent ∧ (engine.grammar.Valid root → input.failure = none →
        ∃ trees, result = .ok trees ∧
          engine.grammar.Gathers after.Untruncated root input.tokens trees) := by
  have hRun : Attains excused (parseWithLimit root input none) engine fun result after =>
      after.Coherent ∧ (engine.grammar.Valid root → input.failure = none →
        ∃ trees, result = .ok (.complete trees) ∧
          engine.grammar.Gathers after.Untruncated root input.tokens trees) := by
    obtain ⟨tokens, failure⟩ := input
    cases failure with
    | some error =>
        -- Nothing is claimed about the trees of an input that failed.
        refine (attains_parseWithLimit hCoherent hExcused hGuarded ⟨tokens, some error⟩
          none).mono ?_
        exact fun result after hAfter => ⟨hAfter.1, fun _ h => nomatch h⟩
    | none =>
        refine attains_validated (fun hValid => ?_)
          fun error hError => ⟨hCoherent, fun hValid => ?_⟩
        · refine (attains_parseFrom_complete hCoherent hValid hExcused hGuarded 0).mono ?_
          exact fun result after hAfter => ⟨hAfter.1, fun _ _ => hAfter.2⟩
        · exact nomatch hError.symm.trans (Grammar.validate_eq_ok_iff.mpr hValid)
  unfold parse
  refine hRun.bind ?_
  rintro result after ⟨hAfter, hResult⟩
  -- A parse without a limit does not halt, and an error is passed on.
  rcases result with error | (trees | ⟨node, consumed⟩)
  · refine attains_pure.mpr ⟨hAfter, fun hValid hFailure => ?_⟩
    obtain ⟨_, hSame, -⟩ := hResult hValid hFailure
    cases hSame
  · refine attains_pure.mpr ⟨hAfter, fun hValid hFailure => ?_⟩
    obtain ⟨_, hSame, hGathers⟩ := hResult hValid hFailure
    cases hSame
    exact ⟨trees, rfl, hGathers⟩
  · refine attains_pure.mpr ⟨hAfter, fun hValid hFailure => ?_⟩
    obtain ⟨_, hSame, -⟩ := hResult hValid hFailure
    cases hSame

end Validated

end Engine

end DerivativeParsing
