import DerivativeParsing.Lexicon

namespace DerivativeParsing

/-!
# Token matchers

A matcher accepts one token: either exactly the literal it holds, or whatever its
named predicate accepts.  Matchers are compared by construction.
-/

/-- What a token node accepts. -/
inductive Matcher (Λ : Lexicon) where
  | literal (token : Λ.Token)
  | predicate (name : Λ.Predicate)
deriving DecidableEq

namespace Matcher

variable {Λ : Lexicon}

/-- Whether the matcher accepts a token. -/
def accepts : Matcher Λ → Λ.Token → Bool
  | literal expected, token => expected == token
  | predicate name, token => Λ.accepts name token

/-- The text of a matcher; the name behind a predicate is not shown. -/
def describe : Matcher Λ → String
  | literal token => Λ.text token
  | predicate _ => "pred@*"

/-- The text of a matcher inside a rendered grammar. -/
def render : Matcher Λ → String
  | literal token => Λ.text token
  | predicate _ => "<pred>"

@[simp]
theorem accepts_literal (expected token : Λ.Token) :
    (literal expected).accepts token = true ↔ expected = token := by
  simp [accepts]

@[simp]
theorem accepts_predicate (name : Λ.Predicate) (token : Λ.Token) :
    (predicate name).accepts token = Λ.accepts name token := rfl

end Matcher

end DerivativeParsing
