import DerivativeParsing.Forest.Basic

namespace DerivativeParsing

/-!
# Lexicons

A lexicon says what a grammar is written over:

* the tokens, with an order that decides their equality and a text for each;
* the named predicates on tokens, with the tokens each of them accepts;
* the named rewritings of parse trees, with what each of them makes of a tree.

Predicates and rewritings are compared by name and never by behaviour, since two
functions cannot be compared.  The behaviour belongs to the name, so equal names
always behave alike.
-/

/-- Tokens, token predicates and tree rewritings, with their meanings. -/
structure Lexicon where
  Token : Type
  Predicate : Type
  Rewriting : Type
  orderToken : Ord Token
  transToken : @Std.TransOrd Token orderToken
  lawfulToken : @Std.LawfulEqOrd Token orderToken
  decidePredicate : DecidableEq Predicate
  decideRewriting : DecidableEq Rewriting
  /-- The text of a token. -/
  text : Token → String
  /-- Whether a predicate accepts a token. -/
  accepts : Predicate → Token → Bool
  /-- What a rewriting makes of a tree. -/
  rewrite : Rewriting → Tree Token → Tree Token

namespace Lexicon

variable {Λ : Lexicon}

instance : Ord Λ.Token := Λ.orderToken

instance : Std.TransOrd Λ.Token := Λ.transToken

instance : Std.LawfulEqOrd Λ.Token := Λ.lawfulToken

instance : DecidableEq Λ.Predicate := Λ.decidePredicate

instance : DecidableEq Λ.Rewriting := Λ.decideRewriting

/-- Equality of tokens is decided by their order. -/
instance : DecidableEq Λ.Token := fun first second =>
  decidable_of_iff (compare first second = .eq)
    ⟨Std.LawfulEqOrd.eq_of_compare, fun h => h ▸ Std.ReflOrd.compare_self⟩

end Lexicon

end DerivativeParsing
