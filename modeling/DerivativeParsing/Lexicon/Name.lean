import DerivativeParsing.Lexicon.Standard

namespace DerivativeParsing

/-!
# Names of the standard definitions

The standard predicates and rewritings can be given by name.  A name may carry an
argument after a colon: `in:abc` is the class of the characters `a`, `b` and `c`,
and for words `in:if|else` is the class of the two words.
-/

/-- What follows a mark at the start of a name. -/
def nameArgument? (mark name : List Char) : Option (List Char) :=
  match mark, name with
  | [], rest => some rest
  | _ :: _, [] => none
  | expected :: mark, character :: name =>
      if expected = character then nameArgument? mark name else none

/-- The number that one or more decimal digits spell. -/
def nameNatural? (digits : List Char) : Option Nat :=
  if !digits.isEmpty && digits.all Char.isDigit then
    some (digits.foldl (fun value digit => value * 10 + (digit.toNat - '0'.toNat)) 0)
  else none

/-- The integer that decimal digits spell, with an optional sign before them. -/
def nameInteger? (argument : List Char) : Option Int :=
  match argument with
  | '-' :: digits => (nameNatural? digits).map fun magnitude => -(magnitude : Int)
  | '+' :: digits => (nameNatural? digits).map Int.ofNat
  | digits => (nameNatural? digits).map Int.ofNat

/-- The class of characters with a name. -/
def CharacterClass.ofName? (name : String) : Option CharacterClass :=
  match name with
  | "digit" => some .digit
  | "alpha" => some .letter
  | "lower" => some .lower
  | "upper" => some .upper
  | "ascii" => some .ascii
  | "any" => some .anything
  | "none" => some .nothing
  | _ =>
      match nameArgument? ['i', 'n', ':'] name.toList with
      | some characters => some (.oneOf characters)
      | none => (nameArgument? ['n', 'o', 't', ':'] name.toList).map .noneOf

/-- The class of integers with a name. -/
def IntegerClass.ofName? (name : String) : Option IntegerClass :=
  match name with
  | "even" => some .even
  | "neg" => some .negative
  | "any" => some .anything
  | "none" => some .nothing
  | _ =>
      (nameArgument? ['g', 'e', ':'] name.toList).bind fun least =>
        (nameInteger? least).map .atLeast

/-- The class of words with a name. -/
def WordClass.ofName? (name : String) : Option WordClass :=
  match name with
  | "ident" => some .identifier
  | "num" => some .numeral
  | "any" => some .anything
  | "none" => some .nothing
  | _ =>
      (nameArgument? ['i', 'n', ':'] name.toList).map fun words =>
        .oneOf ((String.ofList words).splitOn "|")

/-- The rewriting with a name. -/
def Reshaping.ofName? (name : String) : Option Reshaping :=
  match name with
  | "id" => some .keep
  | "wrap" => some .wrap
  | "nil" => some .drop
  | "dup" => some .duplicate
  | "flat" => some .flatten
  | "rev" => some .reverse
  | "swap" => some .swap
  | "left" => some .left
  | "right" => some .right
  | _ => none

end DerivativeParsing
