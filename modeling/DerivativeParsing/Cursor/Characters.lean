import DerivativeParsing.Cursor.Basic

namespace DerivativeParsing

/-!
# Cursors over the characters of a text

The cursor keeps the offset of the next character in bytes of the text's UTF-8
form, beside the number of characters it has passed.  What is left of the text is
found by the offset alone, which is meaningful only on the boundary between two
characters; a cursor that starts at zero and moves by whole characters never
leaves the boundaries.
-/

/-- A position in a text, by bytes and by characters. -/
structure CharacterCursor where
  source : String
  offset : Nat := 0
  position : Nat := 0
deriving DecidableEq

namespace CharacterCursor

/-- The characters after the first `bytes` bytes of a text, if that is a boundary
between characters. -/
def dropBytes : (bytes : Nat) → List Char → Option (List Char)
  | 0, characters => some characters
  | _ + 1, [] => none
  | bytes + 1, character :: characters =>
      if character.utf8Size ≤ bytes + 1 then
        dropBytes (bytes + 1 - character.utf8Size) characters
      else none

/-- The characters not passed yet. -/
def upcoming (cursor : CharacterCursor) : List Char :=
  (dropBytes cursor.offset cursor.source.toList).getD []

/-- The text not passed yet. -/
def rest (cursor : CharacterCursor) : String := String.ofList cursor.upcoming

/-- Whether another character can be pulled. -/
def hasNext (cursor : CharacterCursor) : Bool :=
  cursor.offset < cursor.source.utf8ByteSize

/-- Pull the next character: by its bytes the offset moves, and then the position. -/
def pull : Pull CharacterCursor Char := do
  let cursor ← get
  match cursor.upcoming with
  | [] => throw (.endOfStream cursor.position)
  | character :: _ =>
      modify fun cursor => { cursor with offset := cursor.offset + character.utf8Size }
      modify fun cursor => { cursor with position := cursor.position + 1 }
      return character

/-- The next character, and the cursor after it. -/
def next : CharacterCursor → Except CursorError (Char × CharacterCursor) := pull.forward

/-- A cursor of its own over the text not passed yet. -/
def remaining (cursor : CharacterCursor) : CharacterCursor := { source := cursor.rest }

instance : Cursor CharacterCursor Char where
  hasNext := hasNext
  next := next
  bound cursor := cursor.upcoming.length

/-- The text of a cursor. -/
def describe (cursor : CharacterCursor) : String :=
  "StrStream \x7b source: " ++ Text.ofString cursor.source ++
    ", offset: " ++ Text.ofNat cursor.offset ++
    ", position: " ++ Text.ofNat cursor.position ++ " \x7d"

end CharacterCursor

end DerivativeParsing
