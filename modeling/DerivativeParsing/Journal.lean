import DerivativeParsing.Fixpoint.Inquiry
import DerivativeParsing.Handle
import DerivativeParsing.Lexicon

namespace DerivativeParsing

/-!
# Journals

The work of a parser is reported in a journal.  An event says what happened; its
entry says how that is told: how important it is, which part of the parser tells
it, and in which words.
-/

/-- How important an entry is, the most important first. -/
inductive Level where
  | warn
  | debug
  | trace
deriving DecidableEq

namespace Level

/-- The rank of a level, higher for less important ones. -/
def rank : Level → Nat
  | warn => 0
  | debug => 1
  | trace => 2

/-- The name of a level. -/
def name : Level → String
  | warn => "WARN"
  | debug => "DEBUG"
  | trace => "TRACE"

/-- Whether a journal that is kept up to `threshold` takes entries of a level. -/
def isKept (threshold level : Level) : Bool := level.rank ≤ threshold.rank

end Level

/-- An entry of a journal. -/
structure Entry where
  level : Level
  target : String
  message : String

/-- The line of an entry. -/
def Entry.line (entry : Entry) : String :=
  entry.level.name ++ " " ++ entry.target ++ ": " ++ entry.message

namespace Fixpoint.Note

/-- The entry of a solver's note, given the text of a key. -/
def entry {κ : Type} (text : κ → String) : Note κ → Entry
  | pass root number changed evaluated =>
      { level := .trace
        target := "brzo_fixpoint"
        message := "fixpoint pass " ++ Text.ofNat number ++ " from " ++ text root ++
          ": changed = " ++ Text.ofBool changed ++
          ", evaluated " ++ Text.ofNat evaluated ++ " nodes" }
  | abandoned root passes =>
      { level := .warn
        target := "brzo_fixpoint"
        message := "fixpoint from " ++ text root ++ " stopped after " ++
          Text.ofNat passes ++ " passes without converging" }

end Fixpoint.Note

/-- What a parser reports about its work. -/
inductive Event (Λ : Lexicon) where
  /-- A solver reported about a query. -/
  | solved (note : Fixpoint.Note Handle)
  /-- A sweep dropped entries of a table. -/
  | swept (evicted before : Nat)
  /-- A collection freed derived nodes. -/
  | collected (freed live : Nat)
  /-- A collection and the sweep of all tables after it ended. -/
  | reclaimed (freed evicted : Nat)
  /-- Recognition consumed a token. -/
  | recognised (step : Nat) (token : Λ.Token) (node : Handle) (nodes : Nat)
  /-- Parsing consumed a token. -/
  | parsed (step : Nat) (token : Λ.Token) (node : Handle) (nodes : Nat)
  /-- Parsing stopped at the limit with input left. -/
  | halted (consumed : Nat) (node : Handle)

namespace Event

variable {Λ : Lexicon}

/-- The words for a consumed token. -/
def stepMessage (activity : String) (step : Nat) (token : Λ.Token) (node : Handle)
    (nodes : Nat) : String :=
  activity ++ " step " ++ Text.ofNat step ++ ": " ++ Λ.text token ++ " -> " ++
    node.display ++ " (" ++ Text.ofNat nodes ++ " nodes)"

/-- The entry of an event. -/
def entry : Event Λ → Entry
  | solved note => note.entry Handle.describe
  | swept evicted before =>
      { level := .trace
        target := "brzo_memo"
        message := "memo sweep evicted " ++ Text.ofNat evicted ++ " of " ++
          Text.ofNat before ++ " entries" }
  | collected freed live =>
      { level := .debug
        target := "brzo_grammar::grammar"
        message := "collected " ++ Text.ofNat freed ++ " derived nodes, " ++
          Text.ofNat live ++ " live" }
  | reclaimed freed evicted =>
      { level := .debug
        target := "brzo_parse::engine"
        message := "collection freed " ++ Text.ofNat freed ++ " nodes, evicted " ++
          Text.ofNat evicted ++ " memo entries" }
  | recognised step token node nodes =>
      { level := .debug
        target := "brzo_parse::engine"
        message := stepMessage "recognise" step token node nodes }
  | parsed step token node nodes =>
      { level := .debug
        target := "brzo_parse::engine"
        message := stepMessage "parse" step token node nodes }
  | halted consumed node =>
      { level := .debug
        target := "brzo_parse::engine"
        message := "parse halted after " ++ Text.ofNat consumed ++ " tokens at " ++
          node.display }

end Event

end DerivativeParsing
