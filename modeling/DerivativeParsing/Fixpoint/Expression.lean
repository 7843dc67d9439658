import DerivativeParsing.Fixpoint.Solver

namespace DerivativeParsing

/-!
# Systems of written equations

A system can be written down as a list of expressions, the equation of key `i` at
place `i`.  Expressions compute with truth values, integers and finite sets of
integers, and refer to each other's values by key.  Integers are signed words of
64 bits, and sums that leave their range wrap around.

* Folds evaluate all their arguments from left to right and combine them from the
  left; one argument stands for itself, and none for the bottom value.
* `any` and `all` stop at the first argument that decides them, and a conditional
  evaluates only the branch it takes.
* A key past the last expression has the bottom value.
-/

namespace Fixpoint

/-- A value of an expression.  The elements of a set are in ascending order. -/
inductive Value where
  | truth (value : Bool)
  | number (value : Int)
  | set (elements : List Int)
deriving DecidableEq

namespace Value

/-- The word that a sum is congruent to. -/
def wrap (sum : Int) : Int := sum.bmod 18446744073709551616

/-- Put a number into its place in an ascending list, unless it is there already. -/
def place (element : Int) : List Int → List Int
  | [] => [element]
  | head :: tail =>
      if element < head then element :: head :: tail
      else if element = head then head :: tail
      else head :: place element tail

/-- The set of the numbers of a list. -/
def ofList (elements : List Int) : Value := set (elements.foldr place [])

/-- Whether a value counts as true: a positive number and a set with an element
do. -/
def isTrue : Value → Bool
  | truth value => value
  | number value => 0 < value
  | set elements => !elements.isEmpty

/-- The number of a value, zero if it is none. -/
def asNumber : Value → Int
  | number value => value
  | _ => 0

/-- The elements of a value, none if it is no set. -/
def asElements : Value → List Int
  | set elements => elements
  | _ => []

/-- Add a number to a number, or to every element of a set. -/
def shift (amount : Int) : Value → Value
  | number value => number (wrap (value + amount))
  | set elements => ofList (elements.map fun element => wrap (element + amount))
  | truth value => truth value

end Value

/-- The operations that combine two values. -/
inductive Operation where
  | or
  | and
  | add
  | max
  | min
  | union
  | inter
deriving DecidableEq

/-- The operation with a name. -/
def Operation.ofName? (name : String) : Option Operation :=
  match name with
  | "or" => some .or
  | "and" => some .and
  | "add" => some .add
  | "max" => some .max
  | "min" => some .min
  | "union" => some .union
  | "inter" => some .inter
  | _ => none

/-- What an operation makes of two values. -/
def Operation.apply : Operation → Value → Value → Value
  | or, first, second => .truth (first.isTrue || second.isTrue)
  | and, first, second => .truth (first.isTrue && second.isTrue)
  | add, first, second => .number (Value.wrap (first.asNumber + second.asNumber))
  | max, first, second => .number (Max.max first.asNumber second.asNumber)
  | min, first, second => .number (Min.min first.asNumber second.asNumber)
  | union, first, second => Value.ofList (first.asElements ++ second.asElements)
  | inter, first, second =>
      .set (first.asElements.filter fun element =>
        second.asElements.contains element)

/-- The right-hand side of a written equation. -/
inductive Expression where
  | literal (value : Value)
  | reference (key : Nat)
  | fold (operation : Operation) (arguments : List Expression)
  | any (arguments : List Expression)
  | all (arguments : List Expression)
  | negation (argument : Expression)
  | conditional (condition consequence : Expression) (alternative : Option Expression)
  | shift (argument : Expression) (amount : Int)

namespace Expression

mutual

/-- The inquiry that evaluates an expression. -/
def inquiry (bottom : Value) : Expression → Inquiry Nat Value Value
  | literal value => return value
  | reference key => .value key
  | fold _ [] => return bottom
  | fold operation (argument :: arguments) => do
      let first ← argument.inquiry bottom
      foldInquiry bottom operation first arguments
  | any arguments => anyInquiry bottom arguments
  | all arguments => allInquiry bottom arguments
  | negation argument => do
      let value ← argument.inquiry bottom
      return .truth !value.isTrue
  | conditional condition consequence none => do
      let value ← condition.inquiry bottom
      if value.isTrue then consequence.inquiry bottom else return bottom
  | conditional condition consequence (some alternative) => do
      let value ← condition.inquiry bottom
      if value.isTrue then consequence.inquiry bottom
      else alternative.inquiry bottom
  | shift argument amount => do
      let value ← argument.inquiry bottom
      return value.shift amount

/-- Combine a value with those of further arguments. -/
def foldInquiry (bottom : Value) (operation : Operation) (before : Value) :
    List Expression → Inquiry Nat Value Value
  | [] => return before
  | argument :: arguments => do
      let next ← argument.inquiry bottom
      foldInquiry bottom operation (operation.apply before next) arguments

/-- Look for an argument that counts as true. -/
def anyInquiry (bottom : Value) : List Expression → Inquiry Nat Value Value
  | [] => return .truth false
  | argument :: arguments => do
      let value ← argument.inquiry bottom
      if value.isTrue then return .truth true else anyInquiry bottom arguments

/-- Look for an argument that does not count as true. -/
def allInquiry (bottom : Value) : List Expression → Inquiry Nat Value Value
  | [] => return .truth true
  | argument :: arguments => do
      let value ← argument.inquiry bottom
      if value.isTrue then allInquiry bottom arguments else return .truth false

end

end Expression

/-- A list of written equations, with the bottom value and the values known. -/
structure WrittenSystem where
  bottom : Value
  known : List (Nat × Value)
  equations : List Expression

namespace WrittenSystem

/-- The system of the written equations.  Of several known values for one key the
last one counts. -/
def system (written : WrittenSystem) : System Nat Value where
  bottom := written.bottom
  known key := written.known.reverse.lookup key
  equation key :=
    match written.equations[key]? with
    | some expression => expression.inquiry written.bottom
    | none => return written.bottom

/-- A budget with the given number of passes that never runs out of depth: only
keys with an equation nest. -/
def budget (written : WrittenSystem) (passes : Nat) : Budget where
  depth := written.equations.length + 2
  passes := passes

end WrittenSystem

end Fixpoint

end DerivativeParsing
