import DerivativeParsing.Diagnostic
import DerivativeParsing.Text.Quoted

namespace DerivativeParsing

/-!
# Cursors

A cursor is a position in a sequence of tokens.  Pulling a token moves a cursor;
what becomes of the cursor is known whether or not the pull succeeds (`Pull`).  A
parser goes on from a pull that succeeds, with the token and the cursor after it,
and the cursor before it can still be used.

`Reading` is what a parser sees of a cursor that it pulls from for as long as the
cursor says that there is more: the tokens, and the error if a pull failed.
-/

/-- Why a token could not be pulled. -/
inductive CursorError where
  | endOfStream (position : Nat)
deriving DecidableEq

namespace CursorError

/-- The position at which the pull failed. -/
def position : CursorError → Nat
  | endOfStream position => position

/-- The wording of the error. -/
def diagnostic : CursorError → Diagnostic
  | endOfStream position =>
      { message := "End of stream reached at position " ++ Text.ofNat position
        code := "brzo_stream::end_of_stream"
        help := some "check `has_next` before pulling another token" }

end CursorError

/-- The tokens pulled from a cursor, and the error that ended the pulling unless
the cursor itself said that it was at its end. -/
structure Reading (τ : Type) where
  tokens : List τ
  failure : Option CursorError := none

/-- Pulling a token, which may move the cursor even if it fails. -/
abbrev Pull (σ τ : Type) := EStateM CursorError σ τ

/-- The token that is pulled, and the cursor after it. -/
def Pull.forward {σ τ : Type} (pull : Pull σ τ) (cursor : σ) : Except CursorError (τ × σ) :=
  match pull.run cursor with
  | .ok token after => .ok (token, after)
  | .error error _ => .error error

/-- Positions of type `σ` in sequences of tokens of type `τ`. -/
class Cursor (σ : Type) (τ : outParam Type) where
  /-- Whether the cursor says that another token can be pulled. -/
  hasNext : σ → Bool
  /-- Pull the next token. -/
  next : σ → Except CursorError (τ × σ)
  /-- A bound on the number of tokens that can still be pulled. -/
  bound : σ → Nat

namespace Cursor

variable {σ τ : Type} [Cursor σ τ]

/-- Pull at most `fuel` tokens, for as long as the cursor says that there are any.
The cursor after the last token comes with the reading. -/
def readWithin : (fuel : Nat) → σ → Reading τ × σ
  | 0, cursor => (⟨[], none⟩, cursor)
  | fuel + 1, cursor =>
      if hasNext cursor then
        match next cursor with
        | .ok (token, cursor) =>
            let (reading, cursor) := readWithin fuel cursor
            ({ reading with tokens := token :: reading.tokens }, cursor)
        | .error error => (⟨[], some error⟩, cursor)
      else (⟨[], none⟩, cursor)

/-- Pull tokens for as long as the cursor says that there are any. -/
def read (cursor : σ) : Reading τ × σ :=
  readWithin (bound cursor + 1) cursor

end Cursor

end DerivativeParsing
