import ShiftReduce.Token

/-! The tokens of arithmetic expressions: numbers, the four operators and
parentheses, with blanks anywhere between them. -/

namespace ShiftReduce.Calculator

/-- A range of bytes of the input, its end excluded. -/
structure Span where
  first : Nat
  last : Nat
deriving DecidableEq

def Span.render (span : Span) : String :=
  toString span.first ++ ".." ++ toString span.last

def isBlank (c : Char) : Bool :=
  c = ' ' || c = '\t' || c = '\n' || c = '\x0c'

def isOperator (c : Char) : Bool :=
  c = '(' || c = ')' || c = '+' || c = '-' || c = '*' || c = '/'

def numberName : String := "NUM"

def number (digits : List Char) : Token :=
  { symbol := .terminal numberName, value := some (String.ofList digits) }

/-- The number that ends here, given its digits from the last to the first. -/
def finished (digits : List Char) : List Token :=
  if digits = [] then [] else [number digits.reverse]

/-- The tokens from a byte offset on, `digits` being read of a number. A
character that starts no token and is no blank is refused. -/
def scanFrom (offset : Nat) (digits : List Char) : List Char → Except Span (List Token)
  | [] => .ok (finished digits ++ [.endMarker])
  | c :: rest =>
      if c.isDigit then scanFrom (offset + 1) (c :: digits) rest
      else if isBlank c then
        (scanFrom (offset + 1) [] rest).map (finished digits ++ ·)
      else if isOperator c then
        (scanFrom (offset + 1) [] rest).map
          (finished digits ++ Token.terminal (String.singleton c) :: ·)
      else .error { first := offset, last := offset + c.utf8Size }

def scan (input : List Char) : Except Span (List Token) :=
  scanFrom 0 [] input

end ShiftReduce.Calculator
