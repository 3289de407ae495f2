import ShiftReduce.Keyed
import ShiftReduce.Sorted

/-! Grammar symbols and the tokens that carry them. A token is identified by its
symbol alone: associativity and value are payload, so a token from a lexer
matches the one the grammar was declared with. -/

namespace ShiftReduce

inductive Symbol where
  | nonterminal (name : String)
  | terminal (name : String)
deriving DecidableEq

namespace Symbol

def name : Symbol → String
  | nonterminal name => name
  | terminal name => name

def isTerminal : Symbol → Bool
  | nonterminal _ => false
  | terminal _ => true

def endMarker : Symbol := terminal "$"

/-- The empty string: the whole right-hand side of an empty production, and
the mark of nullable symbols in FIRST sets. -/
def epsilon : Symbol := terminal "ε"

/-- Symbols are ordered by name; a nonterminal stands before the terminal of its name. -/
instance : Ord Symbol :=
  ⟨compareLex (compareOn name) (compareOn isTerminal)⟩

theorem eq_of_name_of_isTerminal {a b : Symbol} (names : a.name = b.name)
    (kinds : a.isTerminal = b.isTerminal) : a = b := by
  cases a <;> cases b <;> simp_all [name, isTerminal]

instance : Std.TransOrd Symbol :=
  inferInstanceAs (Std.TransCmp (compareLex (compareOn name) (compareOn isTerminal)))

instance : Std.LawfulEqOrd Symbol where
  compare_self := Std.ReflCmp.compare_self
  eq_of_compare {a b} equal := by
    have parts : compareLex (compareOn name) (compareOn isTerminal) a b = .eq := equal
    simp only [compareLex, Ordering.then_eq_eq, compareOn] at parts
    exact eq_of_name_of_isTerminal (Std.LawfulEqOrd.eq_of_compare parts.1)
      (Std.LawfulEqOrd.eq_of_compare parts.2)

end Symbol

/-- How an operator groups with its neighbours: a binary one to the left or to
the right, a unary one with what follows it or with what it follows. -/
inductive Assoc where
  | left
  | right
  | pre
  | post
deriving DecidableEq

namespace Assoc

/-- Whether a choice between shifting and reducing on this operator falls on reducing. -/
def prefersReduce : Assoc → Bool
  | left => true
  | post => true
  | right => false
  | pre => false

def label : Assoc → String
  | left => "left"
  | right => "right"
  | pre => "pre"
  | post => "post"

end Assoc

structure Token where
  symbol : Symbol
  assoc : Option Assoc := none
  value : Option String := none
deriving DecidableEq

namespace Token

def terminal (name : String) : Token :=
  { symbol := .terminal name }

def nonterminal (name : String) : Token :=
  { symbol := .nonterminal name }

def operator (name : String) (assoc : Assoc) : Token :=
  { symbol := .terminal name, assoc := some assoc }

def endMarker : Token :=
  { symbol := .endMarker }

def epsilon : Token :=
  { symbol := .epsilon }

def isTerminal (token : Token) : Bool :=
  token.symbol.isTerminal

def isEndMarker (token : Token) : Bool :=
  token.symbol = .endMarker

def isEpsilon (token : Token) : Bool :=
  token.symbol = .epsilon

theorem symbol_ne_epsilon {token : Token} (nonterminal : token.isTerminal = false) :
    token.symbol ≠ .epsilon := by
  intro same
  rw [isTerminal, same] at nonterminal
  cases nonterminal

def render (token : Token) : String :=
  token.symbol.name

def cmp : Token → Token → Ordering :=
  compareOn symbol

instance : Std.TransCmp cmp :=
  inferInstanceAs (Std.TransCmp (compareOn symbol))

def renderAll (separator : String) (tokens : List Token) : String :=
  separator.intercalate (tokens.map render)

/-- The increasing list of the tokens given; of equal tokens the last one stays. -/
def sorted (tokens : List Token) : List Token :=
  Sorted.ofList cmp tokens

end Token

/-- Tokens with distinct symbols, in the order in which they were added. -/
abbrev TokenSet := List Token

namespace TokenSet

def insert (set : TokenSet) (token : Token) : TokenSet :=
  Keyed.insert Token.symbol token set

def union (set : TokenSet) (tokens : List Token) : TokenSet :=
  tokens.foldl insert set

def ofList (tokens : List Token) : TokenSet :=
  union [] tokens

end TokenSet

end ShiftReduce
