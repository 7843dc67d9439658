import DerivativeParsing.Lexicon
import DerivativeParsing.Text.Quoted

namespace DerivativeParsing

/-!
# Standard lexicons

Three lexicons that need nothing beyond their tokens: characters, integers and
words.  Each comes with the predicates that grammars over such tokens commonly
use; all of them share a stock of tree rewritings.

A predicate or rewriting is created by giving a definition a number.  Two
creations of the same definition under different numbers are different names,
although they behave alike.
-/

/-- A definition under a number that tells it from other creations of the same
definition. -/
structure Named (δ : Type) where
  number : Nat
  definition : δ
deriving DecidableEq

/-- Common classes of characters. -/
inductive CharacterClass where
  | digit
  | letter
  | lower
  | upper
  | ascii
  | anything
  | nothing
  | oneOf (characters : List Char)
  | noneOf (characters : List Char)
deriving DecidableEq

/-- Whether a character belongs to a class. -/
def CharacterClass.accepts : CharacterClass → Char → Bool
  | digit, character => character.isDigit
  | letter, character => character.isAlpha
  | lower, character => character.isLower
  | upper, character => character.isUpper
  | ascii, character => character.toNat < 128
  | anything, _ => true
  | nothing, _ => false
  | oneOf characters, character => characters.contains character
  | noneOf characters, character => !characters.contains character

/-- Common classes of integers. -/
inductive IntegerClass where
  | even
  | negative
  | atLeast (least : Int)
  | anything
  | nothing
deriving DecidableEq

/-- Whether an integer belongs to a class. -/
def IntegerClass.accepts : IntegerClass → Int → Bool
  | even, number => number % 2 == 0
  | negative, number => number < 0
  | atLeast least, number => least ≤ number
  | anything, _ => true
  | nothing, _ => false

/-- Common classes of words. -/
inductive WordClass where
  | identifier
  | numeral
  | oneOf (words : List String)
  | anything
  | nothing
deriving DecidableEq

/-- Whether a word belongs to a class. -/
def WordClass.accepts : WordClass → String → Bool
  | identifier, word =>
      match word.toList with
      | character :: _ => character.isAlpha
      | [] => false
  | numeral, word => !word.toList.isEmpty && word.toList.all Char.isDigit
  | oneOf words, word => words.contains word
  | anything, _ => true
  | nothing, _ => false

/-- Common rewritings of parse trees. -/
inductive Reshaping where
  /-- Keep the tree. -/
  | keep
  /-- Put the tree into a list of its own. -/
  | wrap
  /-- Forget the tree. -/
  | drop
  /-- Pair the tree with itself. -/
  | duplicate
  /-- List the leaves. -/
  | flatten
  /-- Reverse a list. -/
  | reverse
  /-- Exchange the parts of a pair. -/
  | swap
  /-- Keep the left part of a pair. -/
  | left
  /-- Keep the right part of a pair. -/
  | right
deriving DecidableEq

/-- What a rewriting makes of a tree.  A rewriting for lists or pairs keeps every
other tree. -/
def Reshaping.apply {τ : Type} : Reshaping → Tree τ → Tree τ
  | keep, tree => tree
  | wrap, tree => .list [tree]
  | drop, _ => .nil
  | duplicate, tree => .pair tree tree
  | flatten, tree => .list (tree.leaves.map .leaf)
  | reverse, .list items => .list items.reverse
  | swap, .pair first second => .pair second first
  | left, .pair first _ => first
  | right, .pair _ second => second
  | _, tree => tree

namespace Lexicon

/-- Characters, shown in single quotes. -/
def characters : Lexicon where
  Token := Char
  Predicate := Named CharacterClass
  Rewriting := Named Reshaping
  orderToken := inferInstance
  transToken := inferInstance
  lawfulToken := inferInstance
  decidePredicate := inferInstance
  decideRewriting := inferInstance
  text := Text.ofChar
  accepts predicate := predicate.definition.accepts
  rewrite rewriting := rewriting.definition.apply

/-- Integers, shown in decimal digits. -/
def integers : Lexicon where
  Token := Int
  Predicate := Named IntegerClass
  Rewriting := Named Reshaping
  orderToken := inferInstance
  transToken := inferInstance
  lawfulToken := inferInstance
  decidePredicate := inferInstance
  decideRewriting := inferInstance
  text := Text.ofInt
  accepts predicate := predicate.definition.accepts
  rewrite rewriting := rewriting.definition.apply

/-- Words, shown in double quotes. -/
def words : Lexicon where
  Token := String
  Predicate := Named WordClass
  Rewriting := Named Reshaping
  orderToken := inferInstance
  transToken := inferInstance
  lawfulToken := inferInstance
  decidePredicate := inferInstance
  decideRewriting := inferInstance
  text := Text.ofString
  accepts predicate := predicate.definition.accepts
  rewrite rewriting := rewriting.definition.apply

end Lexicon

end DerivativeParsing
