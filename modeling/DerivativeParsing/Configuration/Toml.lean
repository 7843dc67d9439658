import DerivativeParsing.Configuration.Basic

namespace DerivativeParsing

/-!
# Configurations as TOML text

A configuration is read from a TOML document.  Every knob is a key at the top of
the document with a truth value or an integer, and no other key is known.  A
document is therefore accepted exactly if each of its lines is blank, a comment,
or an assignment to a knob, and no knob is assigned twice: tables, dotted keys
and values of other types either break the syntax or name something unknown.

* A key is bare, or quoted with or without escapes.
* An integer is decimal, with an optional sign, or hexadecimal, octal or binary
  with its mark in front.  Single underscores may stand between digits, a decimal
  integer has no leading zero, and the value lies between zero and the largest
  signed number of 64 bits.
* A comment runs to the end of its line and holds no control character but the
  tab.  A line ends with a line feed, with or without a carriage return.
-/

namespace Configuration

namespace Toml

/-- A value that a knob can have. -/
inductive Value where
  | flag (value : Bool)
  | number (value : Nat)
deriving DecidableEq

/-- The lines of a text, without their ends. -/
def lines : List Char → List (List Char)
  | [] => [[]]
  | '\n' :: rest => [] :: lines rest
  | '\r' :: '\n' :: rest => [] :: lines rest
  | character :: rest =>
      match lines rest with
      | [] => [[character]]
      | line :: others => (character :: line) :: others

/-- Whether a character is white space within a line. -/
def isBlank (character : Char) : Bool := character == ' ' || character == '\t'

/-- Drop white space. -/
def skipBlanks (line : List Char) : List Char := line.dropWhile isBlank

/-- Whether a character may stand in a comment. -/
def isCommentary (character : Char) : Bool :=
  character == '\t' || (0x20 ≤ character.toNat && character.toNat != 0x7f)

/-- Whether nothing is left of a line but white space and a comment. -/
def isFinished (line : List Char) : Bool :=
  match skipBlanks line with
  | [] => true
  | '#' :: comment => comment.all isCommentary
  | _ => false

/-- The value of a digit in a base. -/
def digit? (base : Nat) (character : Char) : Option Nat :=
  let value :=
    if '0' ≤ character ∧ character ≤ '9' then character.toNat - '0'.toNat
    else if 'a' ≤ character ∧ character ≤ 'f' then character.toNat - 'a'.toNat + 10
    else if 'A' ≤ character ∧ character ≤ 'F' then character.toNat - 'A'.toNat + 10
    else base
  if value < base then some value else none

/-- The number that further digits make of the digits before them, and what comes
after.  An underscore has to stand between two digits. -/
def furtherDigits (base : Nat) : (value : Nat) → List Char → Option (Nat × List Char)
  | value, [] => some (value, [])
  | value, '_' :: character :: rest =>
      match digit? base character with
      | some digit => furtherDigits base (value * base + digit) rest
      | none => none
  | _, ['_'] => none
  | value, character :: rest =>
      match digit? base character with
      | some digit => furtherDigits base (value * base + digit) rest
      | none => some (value, character :: rest)

/-- A number of at least one digit, and what comes after. -/
def digits (base : Nat) : List Char → Option (Nat × List Char)
  | [] => none
  | character :: rest =>
      match digit? base character with
      | some digit => furtherDigits base digit rest
      | none => none

/-- A decimal number without a leading zero, and what comes after. -/
def decimal : List Char → Option (Nat × List Char)
  | '0' :: rest => some (0, rest)
  | characters => digits 10 characters

/-- The largest integer of a document. -/
def largest : Nat := 9223372036854775807

/-- Keep a number that is not too large. -/
def bounded : Nat × List Char → Option (Nat × List Char)
  | (value, rest) => if value ≤ largest then some (value, rest) else none

/-- An integer that is not negative, and what comes after. -/
def integer : List Char → Option (Nat × List Char)
  | '0' :: 'x' :: rest => (digits 16 rest).bind bounded
  | '0' :: 'o' :: rest => (digits 8 rest).bind bounded
  | '0' :: 'b' :: rest => (digits 2 rest).bind bounded
  | '+' :: rest => (decimal rest).bind bounded
  | '-' :: rest =>
      match decimal rest with
      | some (0, rest) => some (0, rest)
      | _ => none
  | characters => (decimal characters).bind bounded

/-- A value, and what comes after. -/
def value : List Char → Option (Value × List Char)
  | 't' :: 'r' :: 'u' :: 'e' :: rest => some (.flag true, rest)
  | 'f' :: 'a' :: 'l' :: 's' :: 'e' :: rest => some (.flag false, rest)
  | characters =>
      (integer characters).map fun (number, rest) => (.number number, rest)

/-- Whether a character may stand in a bare key. -/
def isBare (character : Char) : Bool :=
  character.isAlphanum || character == '_' || character == '-'

/-- The character with the number that hexadecimal digits spell. -/
def scalar? (spelled : List Char) : Option Char :=
  let code := spelled.foldl
    (fun code character => code.bind fun code =>
      (digit? 16 character).map fun digit => code * 16 + digit) (some 0)
  match code with
  | some code => if code.isValidChar then some (Char.ofNat code) else none
  | none => none

/-- Put a character in front of a key. -/
def extendKey (character : Option Char) (key : Option (List Char × List Char)) :
    Option (List Char × List Char) :=
  match character, key with
  | some character, some (name, rest) => some (character :: name, rest)
  | _, _ => none

/-- The rest of a key in double quotes, and what comes after. -/
def escapedKey : List Char → Option (List Char × List Char)
  | [] => none
  | '"' :: rest => some ([], rest)
  | '\\' :: 'u' :: a :: b :: c :: d :: rest =>
      extendKey (scalar? [a, b, c, d]) (escapedKey rest)
  | '\\' :: 'U' :: a :: b :: c :: d :: e :: f :: g :: h :: rest =>
      extendKey (scalar? [a, b, c, d, e, f, g, h]) (escapedKey rest)
  | '\\' :: mark :: rest =>
      let meant : Option Char :=
        if mark = 'b' then some '\x08'
        else if mark = 't' then some '\t'
        else if mark = 'n' then some '\n'
        else if mark = 'f' then some '\x0c'
        else if mark = 'r' then some '\r'
        else if mark = '"' then some '"'
        else if mark = '\\' then some '\\'
        else none
      extendKey meant (escapedKey rest)
  | character :: rest =>
      if isCommentary character && character != '\\' then
        extendKey (some character) (escapedKey rest)
      else none

/-- The rest of a key in single quotes, and what comes after. -/
def literalKey : List Char → Option (List Char × List Char)
  | [] => none
  | '\'' :: rest => some ([], rest)
  | character :: rest =>
      if isCommentary character then
        (literalKey rest).map fun (name, rest) => (character :: name, rest)
      else none

/-- A key, and what comes after. -/
def key : List Char → Option (List Char × List Char)
  | '"' :: rest => escapedKey rest
  | '\'' :: rest => literalKey rest
  | characters =>
      let name := characters.takeWhile isBare
      if name.isEmpty then none else some (name, characters.dropWhile isBare)

/-- The knob and the value that a line assigns. -/
def assignment (line : List Char) : Option (String × Value) := do
  let (name, rest) ← key line
  match skipBlanks rest with
  | '=' :: rest =>
      let (assigned, rest) ← value (skipBlanks rest)
      if isFinished rest then some (String.ofList name, assigned) else none
  | _ => none

/-- The assignments of a document, in order, if all its lines are in order. -/
def assignments : List (List Char) → Option (List (String × Value))
  | [] => some []
  | line :: others =>
      if isFinished line then assignments others
      else do
        let first ← assignment (skipBlanks line)
        let others ← assignments others
        some (first :: others)

/-- Turn one knob of a configuration. -/
def turn (configuration : Configuration) : String × Value → Option Configuration
  | ("compact", .flag compact) => some (configuration.withCompaction compact)
  | ("collect_interval", .number interval) =>
      some (configuration.withCollectInterval interval)
  | ("forest_pass_limit", .number limit) =>
      some (configuration.withForestPassLimit limit)
  | _ => none

/-- The document without a byte order mark at its start. -/
def withoutMark : List Char → List Char
  | '\uFEFF' :: rest => rest
  | characters => characters

/-- Read a document: its assignments have to be to different knobs, each to a value
of the knob's type. -/
def read? (document : List Char) : Option Configuration := do
  let assigned ← assignments (lines (withoutMark document))
  if (assigned.map Prod.fst).Nodup then
    assigned.foldlM turn standard
  else none

end Toml

/-- The configuration that a TOML document describes. -/
def ofToml (document : String) : Except ConfigurationError Configuration :=
  match Toml.read? document.toList with
  | some configuration => .ok configuration
  | none => .error .invalid

end Configuration

end DerivativeParsing
