import DerivativeParsing.Text.Glyph

namespace DerivativeParsing

/-!
# Quoted text

Characters and strings are shown between quotes.  Inside them

* the tab, the carriage return, the line feed and the zero character are written
  with a backslash and a letter or digit;
* the backslash and the quote in use are written with a backslash before them;
* a character without a glyph of its own is written by its number, in lower-case
  hexadecimal digits between braces after a backslash and the letter `u`;
* every other character stands for itself, the quote not in use included.
-/

namespace Text

/-- The written form of one character between quotes of the given kind. -/
def escape (quote character : Char) : List Char :=
  if character = '\t' then ['\\', 't']
  else if character = '\r' then ['\\', 'r']
  else if character = '\n' then ['\\', 'n']
  else if character = '\x00' then ['\\', '0']
  else if character = '\\' then ['\\', '\\']
  else if character = quote then ['\\', quote]
  else if isGlyphless character then
    ['\\', 'u', '\x7b'] ++ Nat.toDigits 16 character.toNat ++ ['\x7d']
  else [character]

/-- The characters between quotes of the given kind. -/
def quote (mark : Char) (characters : List Char) : String :=
  String.ofList (mark :: characters.flatMap (escape mark) ++ [mark])

/-- The text of a character, in single quotes. -/
def ofChar (character : Char) : String := quote '\'' [character]

/-- The text of a string, in double quotes. -/
def ofString (string : String) : String := quote '"' string.toList

/-- The decimal text of an integer, with a sign only if it is negative. -/
def ofInt : Int → String
  | .ofNat magnitude => String.ofList (Nat.toDigits 10 magnitude)
  | .negSucc magnitude => String.ofList ('-' :: Nat.toDigits 10 (magnitude + 1))

/-- The decimal text of a natural number. -/
def ofNat (number : Nat) : String := String.ofList (Nat.toDigits 10 number)

/-- The text of a truth value. -/
def ofBool (value : Bool) : String := if value then "true" else "false"

end Text

end DerivativeParsing
