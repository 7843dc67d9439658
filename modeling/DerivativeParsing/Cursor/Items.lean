import DerivativeParsing.Cursor.Basic

namespace DerivativeParsing

/-!
# Cursors over items

The cursor counts the items it has passed.  A cursor over the items left is a new
cursor that starts counting from zero.
-/

/-- A position in a list of items. -/
structure ItemCursor (τ : Type) where
  items : List τ
  position : Nat := 0
deriving DecidableEq

namespace ItemCursor

variable {τ : Type}

/-- Whether another item can be pulled. -/
def hasNext (cursor : ItemCursor τ) : Bool :=
  cursor.position < cursor.items.length

/-- The items not passed yet. -/
def rest (cursor : ItemCursor τ) : List τ :=
  cursor.items.drop cursor.position

/-- Pull the next item. -/
def pull : Pull (ItemCursor τ) τ := do
  let cursor ← get
  match cursor.items[cursor.position]? with
  | none => throw (.endOfStream cursor.position)
  | some item =>
      modify fun cursor => { cursor with position := cursor.position + 1 }
      return item

/-- The next item, and the cursor after it. -/
def next : ItemCursor τ → Except CursorError (τ × ItemCursor τ) := pull.forward

/-- A cursor of its own over the items not passed yet. -/
def remaining (cursor : ItemCursor τ) : ItemCursor τ := ⟨cursor.rest, 0⟩

instance : Cursor (ItemCursor τ) τ where
  hasNext := hasNext
  next := next
  bound cursor := cursor.rest.length

/-- The text of a cursor, given the text of an item. -/
def describe (text : τ → String) (cursor : ItemCursor τ) : String :=
  "SliceStream \x7b items: [" ++ ", ".intercalate (cursor.items.map text) ++
    "], position: " ++ Text.ofNat cursor.position ++ " \x7d"

end ItemCursor

end DerivativeParsing
