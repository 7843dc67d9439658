import DerivativeParsing.Cursor.Basic
import DerivativeParsing.Engine.Compaction

namespace DerivativeParsing

/-!
# Recognition and parsing

A run takes one derivative per token.  In the end the input is accepted exactly if
the node that was reached accepts the empty string, and the parse trees of the
input are the trees of that node's empty matches.

Before the first token the grammar is validated.  On the way derived nodes are
collected after every so many tokens, as the configuration says, with the node
reached so far as the only root.
-/

open Fixpoint

/-- Why a run was refused: by the grammar, or by the input. -/
inductive ParseError where
  | grammar (error : GrammarError)
  | stream (error : CursorError)
deriving DecidableEq

/-- The result of a parse that may be limited. -/
inductive ParseOutcome (Λ : Lexicon) where
  /-- All the input was consumed. -/
  | complete (forest : Forest Λ.Token)
  /-- The limit was reached with input left. -/
  | halted (node : Handle) (consumed : Nat)

namespace Engine

variable {Λ : Lexicon}

/-- Whether so many tokens have reached the limit. -/
def isLimit (limit : Option Nat) (consumed : Nat) : Bool :=
  match limit with
  | some most => most ≤ consumed
  | none => false

/-- Stop at the limit with input left. -/
def halt (node : Handle) (consumed : Nat) :
    Action Λ (Except ParseError (ParseOutcome Λ)) := do
  report (.halted consumed node)
  return .ok (.halted node consumed)

/-- Collect derived nodes if the number of steps is a multiple of the interval. -/
def collectAfter (steps : Nat) (node : Handle) : Action Λ Unit := do
  let interval := (← get).configuration.collectInterval
  if 0 < interval ∧ steps % interval = 0 then
    let _ ← collectGarbage [node]

section Validated

variable {m : Type → Type} [Monad m] [MonadLiftT (Action Λ) m]

/-- Check a root, and go on if nothing is wrong with it. -/
def validated {α : Type} (root : Handle) (run : m (Except ParseError α)) :
    m (Except ParseError α) := do
  match (← (get : Action Λ (Engine Λ))).grammar.validate root with
  | .ok () => run
  | .error error => return .error (.grammar error)

end Validated

namespace Manner

variable {m : Type → Type} [Monad m] [MonadLiftT (Action Λ) m] (manner : Manner Λ m)

/-- Consume one token after so many others: take the derivative. -/
def recogniseStep (steps : Nat) (node : Handle) (token : Λ.Token) : m Handle := do
  let node ← manner.derive node token
  let engine ← (get : Action Λ (Engine Λ))
  report (.recognised (steps + 1) token node engine.grammar.size)
  collectAfter (Λ := Λ) (steps + 1) node
  return node

/-- Take the derivatives by the tokens one after another, and answer whether the
node reached in the end accepts the empty string. -/
def recogniseFrom (failure : Option CursorError) :
    (tokens : List Λ.Token) → (steps : Nat) → (node : Handle) → m (Except ParseError Bool)
  | [], _, node => do
      match failure with
      | some error => return .error (.stream error)
      | none => return .ok (← isNullable (Λ := Λ) node)
  | token :: tokens, steps, node => do
      let node ← manner.recogniseStep steps node token
      recogniseFrom failure tokens (steps + 1) node

/-- Whether the whole input is a string of the language of the root. -/
def recognises (root : Handle) (input : Reading Λ.Token) : m (Except ParseError Bool) :=
  validated (Λ := Λ) root (manner.recogniseFrom input.failure input.tokens 0 root)

/-- Take the derivative by a token, and compact it if the configuration says so. -/
def advance (node : Handle) (token : Λ.Token) : m Handle := do
  let derived ← manner.derive node token
  let engine ← (get : Action Λ (Engine Λ))
  if engine.configuration.compact then manner.compact derived
  else return derived

/-- Consume one token after so many others: advance by it. -/
def parseStep (consumed : Nat) (node : Handle) (token : Λ.Token) : m Handle := do
  let node ← manner.advance node token
  let engine ← (get : Action Λ (Engine Λ))
  report (.parsed (consumed + 1) token node engine.grammar.size)
  collectAfter (Λ := Λ) (consumed + 1) node
  return node

/-- Consume the tokens one after another, and answer the trees of the node reached
in the end. -/
def parseFrom (limit : Option Nat) (failure : Option CursorError) :
    (tokens : List Λ.Token) → (consumed : Nat) → (node : Handle) →
      m (Except ParseError (ParseOutcome Λ))
  | [], consumed, node => do
      match failure with
      | some error =>
          if isLimit limit consumed then halt (Λ := Λ) node consumed
          else return .error (.stream error)
      | none => return .ok (.complete (← manner.forestOf node))
  | token :: tokens, consumed, node => do
      if isLimit limit consumed then halt (Λ := Λ) node consumed
      else do
        let node ← manner.parseStep consumed node token
        parseFrom limit failure tokens (consumed + 1) node

/-- Parse the input, but stop once so many tokens are consumed while input is
left. -/
def parseWithLimit (root : Handle) (input : Reading Λ.Token) (limit : Option Nat) :
    m (Except ParseError (ParseOutcome Λ)) :=
  validated (Λ := Λ) root (manner.parseFrom limit input.failure input.tokens 0 root)

/-- Every parse tree of the input; none if the input is rejected. -/
def parse (root : Handle) (input : Reading Λ.Token) :
    m (Except ParseError (Forest Λ.Token)) := do
  match ← manner.parseWithLimit root input none with
  | .ok (.complete forest) => return .ok forest
  | .ok (.halted _ _) => return .ok ∅
  | .error error => return .error error

end Manner

/-- Whether the whole input is a string of the language of the root. -/
def recognises (root : Handle) (input : Reading Λ.Token) :
    Action Λ (Except ParseError Bool) :=
  plain.recognises root input

/-- Parse the input, but stop once so many tokens are consumed while input is
left. -/
def parseWithLimit (root : Handle) (input : Reading Λ.Token) (limit : Option Nat) :
    Action Λ (Except ParseError (ParseOutcome Λ)) :=
  plain.parseWithLimit root input limit

/-- Every parse tree of the input; none if the input is rejected. -/
def parse (root : Handle) (input : Reading Λ.Token) :
    Action Λ (Except ParseError (Forest Λ.Token)) :=
  plain.parse root input

end Engine

end DerivativeParsing
