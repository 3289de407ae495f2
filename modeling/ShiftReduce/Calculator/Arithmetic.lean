import ShiftReduce.Calculator.Lexer
import ShiftReduce.Parser.Handlers

/-! Integer arithmetic within 64 bits, and the stack of values on which the
reductions of an expression compute. -/

namespace ShiftReduce.Calculator

inductive Fault where
  | invalidNumber
  | arithmetic
deriving DecidableEq

def Fault.message : Fault → String
  | invalidNumber => "invalid number"
  | arithmetic => "arithmetic error"

def leastValue : Int := -9223372036854775808

def greatestValue : Int := 9223372036854775807

/-- Keeps integers that fit into 64 bits with a sign. -/
def checked (value : Int) : Option Int :=
  if leastValue ≤ value ∧ value ≤ greatestValue then some value else none

inductive Operator where
  | add
  | sub
  | mul
  | div
deriving DecidableEq

/-- Operations fail where the result does not fit, and on division by zero.
Division rounds toward zero. -/
def Operator.apply : Operator → Int → Int → Option Int
  | add, a, b => checked (a + b)
  | sub, a, b => checked (a - b)
  | mul, a, b => checked (a * b)
  | div, a, b => if b = 0 then none else checked (a.tdiv b)

def digitsValue (digits : List Char) : Nat :=
  digits.foldl (fun value c => 10 * value + (c.toNat - '0'.toNat)) 0

def numberValue (token : Token) : Option Int :=
  token.value.bind fun digits => checked (digitsValue digits.toList)

structure Values where
  stack : List Int := []
  fault : Option Fault := none
deriving DecidableEq

namespace Values

def push (value : Int) (values : Values) : Values :=
  { values with stack := value :: values.stack }

def fail (fault : Fault) (values : Values) : Values :=
  { values with fault := values.fault <|> some fault }

def pushNumber : Handler Values := fun arguments values =>
  match arguments.head?.bind numberValue with
  | some value => values.push value
  | none => values.fail .invalidNumber

/-- Replaces the two values on top by the result; they are gone if there is none. -/
def operate (operator : Operator) : Handler Values := fun _ values =>
  let popped := { values with stack := values.stack.drop 2 }
  match values.stack with
  | right :: left :: _ =>
      match operator.apply left right with
      | some value => popped.push value
      | none => popped.fail .arithmetic
  | _ => popped.fail .arithmetic

end Values

end ShiftReduce.Calculator
