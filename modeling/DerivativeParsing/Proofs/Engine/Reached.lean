import DerivativeParsing.Proofs.Engine.Run

namespace DerivativeParsing

/-!
# The states that an engine reaches

A new engine holds a grammar that was built by its author, and remembers nothing.  From
then on its operations are called on validated nodes, in any order, and between the calls
the grammar may grow.  Whatever the order, the engine stays coherent
(`Reached.coherent`).
-/

namespace Engine

variable {Λ : Lexicon} {excused : Prop} {engine after : Engine Λ} {root : Handle}
  {input : Reading Λ.Token}

/-- The operations of an engine. -/
inductive Call (Λ : Lexicon) where
  | derive (node : Handle) (token : Λ.Token)
  | compact (node : Handle)
  | isNullable (node : Handle)
  | isEmpty (node : Handle)
  | isConsuming (node : Handle)
  | isNullOnly (node : Handle)
  | forestOf (node : Handle)
  | collectGarbage (roots : List Handle)
  | recognises (root : Handle) (input : Reading Λ.Token)
  | parse (root : Handle) (input : Reading Λ.Token)
  | parseWithLimit (root : Handle) (input : Reading Λ.Token) (limit : Option Nat)

/-- What an operation does in a manner, without its result. -/
def Call.actionIn {m : Type → Type} [Monad m] [MonadLiftT (Action Λ) m]
    (manner : Manner Λ m) : Call Λ → m Unit
  | derive node token => do let _ ← manner.derive node token
  | compact node => do let _ ← manner.compact node
  | isNullable node => do let _ ← Engine.isNullable (Λ := Λ) node
  | isEmpty node => do let _ ← Engine.isEmpty (Λ := Λ) node
  | isConsuming node => do let _ ← isConsumingOr manner.fallback node
  | isNullOnly node => do let _ ← isNullOnlyOr manner.fallback node
  | forestOf node => do let _ ← manner.forestOf node
  | collectGarbage roots => do let _ ← Engine.collectGarbage (Λ := Λ) roots
  | recognises root input => do let _ ← manner.recognises root input
  | parse root input => do let _ ← manner.parse root input
  | parseWithLimit root input limit => do let _ ← manner.parseWithLimit root input limit

/-- What an operation does, without its result. -/
def Call.action (call : Call Λ) : Action Λ Unit := call.actionIn plain

/-- The nodes that have to be validated before the call.  Runs validate their roots
themselves. -/
def Call.nodes : Call Λ → List Handle
  | derive node _ => [node]
  | compact node => [node]
  | isNullable node => [node]
  | isEmpty node => [node]
  | isConsuming node => [node]
  | isNullOnly node => [node]
  | forestOf node => [node]
  | collectGarbage _ => []
  | recognises _ _ => []
  | parse _ _ => []
  | parseWithLimit _ _ _ => []

/-- The states that an engine gets into. -/
inductive Reached : Engine Λ → Prop
  | fresh {grammar : Grammar Λ} (configuration : Configuration) (patience : Nat) :
      grammar.Built →
      Reached { grammar := grammar, configuration := configuration, patience := patience }
  | call {engine after : Engine Λ} (call : Call Λ) : Reached engine →
      (∀ node ∈ call.nodes, engine.grammar.validate node = .ok ()) →
      call.action.run engine = .ok () after → Reached after
  | alloc {engine : Engine Λ} (node : Node Λ) (origin : Origin) : Reached engine →
      Reached { engine with grammar := (engine.grammar.alloc node origin).2 }
  | setTarget {engine : Engine Λ} {grammar : Grammar Λ} {delegate target : Handle} :
      Reached engine → engine.grammar.setTarget delegate target = .ok grammar →
      Reached { engine with grammar := grammar }
  | fill {engine : Engine Λ} {placeholder : Placeholder} (target : Handle) :
      Reached engine → engine.grammar.get? placeholder.handle = some (.delegate none) →
      Reached { engine with grammar := engine.grammar.fill placeholder target }

/-- An operation on validated nodes keeps an engine coherent. -/
theorem Coherent.attains_call (hCoherent : engine.Coherent) (call : Call Λ)
    (hNodes : ∀ node ∈ call.nodes, engine.grammar.Valid node) :
    Attains True call.action engine fun _ after => after.Coherent := by
  -- Here an operation may run out of fuel or patience, which leads to no state.
  have hConsulted {α : Type} {post : α → Engine Λ → Prop} {query : Action Λ α}
      (hQuery : Attains True query engine fun result after =>
        engine.Consulted after ∧ post result after) :
      Attains True (do let _ ← query) engine fun _ after => after.Coherent :=
    hQuery.bind fun _ _ hAfter => attains_pure.mpr (hCoherent.consulted hAfter.1)
  have hInformed := hCoherent.informed
  cases call with
  | derive node token =>
      refine (attains_derive hCoherent (hNodes node (List.mem_singleton_self node))
        (fun _ => trivial) fun _ => trivial).bind fun _ _ hAfter => ?_
      exact attains_pure.mpr hAfter.coherent
  | compact node =>
      refine (attains_compact hCoherent (hNodes node (List.mem_singleton_self node))
        (fun _ => trivial) fun _ => trivial).bind fun _ _ hAfter => ?_
      exact attains_pure.mpr hAfter.coherent
  | isNullable node =>
      exact hConsulted (attains_isNullable hInformed
        (hNodes node (List.mem_singleton_self node)))
  | isEmpty node =>
      exact hConsulted (attains_isEmpty hInformed
        (hNodes node (List.mem_singleton_self node)))
  | isConsuming node =>
      exact hConsulted (attains_isConsuming hInformed
        (hNodes node (List.mem_singleton_self node)))
  | isNullOnly node =>
      exact hConsulted (attains_isNullOnly hInformed
        (hNodes node (List.mem_singleton_self node)))
  | forestOf node =>
      exact hConsulted (attains_forestOf hInformed
        (hNodes node (List.mem_singleton_self node)) fun _ => trivial)
  | collectGarbage roots =>
      refine (attains_collectGarbage hCoherent roots).bind fun _ _ hAfter => ?_
      exact attains_pure.mpr hAfter.1
  | recognises root input =>
      refine (attains_recognises hCoherent (fun _ => trivial) (fun _ => trivial)
        input).bind fun _ _ hAfter => ?_
      exact attains_pure.mpr hAfter.1
  | parse root input =>
      refine (attains_parse hCoherent (fun _ => trivial) (fun _ => trivial)
        input).bind fun _ _ hAfter => ?_
      exact attains_pure.mpr hAfter.1
  | parseWithLimit root input limit =>
      refine (attains_parseWithLimit hCoherent (fun _ => trivial) (fun _ => trivial)
        input limit).bind fun _ _ hAfter => ?_
      exact attains_pure.mpr hAfter.1

/-- A new engine is coherent, since it remembers nothing. -/
theorem coherent_fresh {grammar : Grammar Λ} (hFounded : grammar.Founded)
    (configuration : Configuration) (patience : Nat) :
    Coherent
      { grammar := grammar, configuration := configuration, patience := patience } := by
  refine ⟨hFounded, ⟨?_, ?_, ?_, ?_⟩, ?_⟩
  · exact fun handle value hFound => nomatch hFound
  · exact fun handle value hFound => nomatch hFound
  · exact fun handle value hFound => nomatch hFound
  · exact fun handle value hFound => nomatch hFound
  · intro task node result hFound
    cases task <;> cases hFound

/-- Every state that an engine gets into is coherent. -/
theorem Reached.coherent (hReached : Reached engine) : engine.Coherent := by
  induction hReached with
  | fresh configuration patience hBuilt =>
      exact coherent_fresh hBuilt.founded configuration patience
  | call call _ hNodes hRun ih =>
      refine (ih.attains_call call fun node hNode => ?_).of_run hRun
      exact Grammar.validate_eq_ok_iff.mp (hNodes node hNode)
  | @alloc engine node origin _ ih =>
      have hKeeps := engine.grammar.keeps_alloc node origin
      exact ih.grows (ih.founded.keeps hKeeps) hKeeps.grows
  | setTarget _ hSet ih =>
      obtain ⟨hUnset, rfl⟩ := Grammar.setTarget_eq_ok hSet
      exact ih.grows (ih.founded.patch hUnset _) (Grammar.grows_patch hUnset _)
  | fill target _ hUnset ih =>
      exact ih.grows (ih.founded.patch hUnset _) (Grammar.grows_patch hUnset _)

/-- The action succeeds. -/
def succeeds {α : Type} (engine : Engine Λ) (action : Action Λ α) : Bool :=
  match action.run engine with
  | .ok _ _ => true
  | .error _ _ => false

/-- An operation on validated nodes that succeeds leads to another state of the engine. -/
theorem Reached.afterwards (hReached : engine.Reached) (call : Call Λ)
    (hNodes : ∀ node ∈ call.nodes, engine.grammar.validate node = .ok ())
    (hSucceeds : engine.succeeds call.action = true) :
    (engine.afterwards call.action).Reached := by
  unfold succeeds at hSucceeds
  unfold Engine.afterwards
  cases hRun : call.action.run engine with
  | ok result after => exact .call call hReached hNodes hRun
  | error fault after =>
      rw [hRun] at hSucceeds
      cases hSucceeds

end Engine

end DerivativeParsing
