import DerivativeParsing.Diagnostic
import DerivativeParsing.Handle

namespace DerivativeParsing

/-!
# Errors of grammar construction

A grammar is refused for one of four reasons, each about one node: its handle is
not live, it should be a delegate and is none, it is a delegate that has a target
already, or it is a delegate that never got one.
-/

/-- Why a grammar was refused. -/
inductive GrammarError where
  | staleHandle (node : Handle)
  | notADelegate (node : Handle)
  | delegateAlreadySet (delegate current : Handle)
  | unresolvedDelegate (delegate : Handle)
deriving DecidableEq

namespace GrammarError

/-- The node that the error is about. -/
def node : GrammarError → Handle
  | staleHandle node => node
  | notADelegate node => node
  | delegateAlreadySet delegate _ => delegate
  | unresolvedDelegate delegate => delegate

/-- The target that the delegate in question has already. -/
def current : GrammarError → Option Handle
  | delegateAlreadySet _ current => some current
  | _ => none

/-- The wording of the error. -/
def diagnostic : GrammarError → Diagnostic
  | staleHandle node =>
      { message := "Node " ++ node.display ++ " is not live in this grammar"
        code := "brzo_grammar::stale_handle"
        help := some ("derived nodes are freed by collection; " ++
          "keep the handles you need as collection roots") }
  | notADelegate node =>
      { message := "Node " ++ node.display ++
          " is not a delegate and cannot be back-patched"
        code := "brzo_grammar::not_a_delegate"
        help := none }
  | delegateAlreadySet delegate current =>
      { message := "Delegate " ++ delegate.display ++
          " already points at " ++ current.display
        code := "brzo_grammar::delegate_already_set"
        help := some ("a delegate is back-patched exactly once, " ++
          "when its recursive rule is closed") }
  | unresolvedDelegate delegate =>
      { message := "Delegate " ++ delegate.display ++ " was never given a target"
        code := "brzo_grammar::unresolved_delegate"
        help := some "call `set_target` on every delegate before parsing" }

end GrammarError

end DerivativeParsing
