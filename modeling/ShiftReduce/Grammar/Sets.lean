import ShiftReduce.Rule
import ShiftReduce.Saturation

/-! Nullable symbols, FIRST sets and FOLLOW sets, each the least solution of the
conditions that the rules impose. The sets list their tokens in the order in
which repeated passes over these conditions, in rule order, bring them in. -/

namespace ShiftReduce

abbrev Family := List (Symbol × TokenSet)

namespace Family

def get? (family : Family) (symbol : Symbol) : Option TokenSet :=
  (Keyed.find? Prod.fst symbol family).map Prod.snd

def extend (family : Family) (symbol : Symbol) (tokens : List Token) : Family :=
  Keyed.upsert Prod.fst symbol (symbol, [])
    (fun entry => (entry.1, TokenSet.union entry.2 tokens)) family

def size (family : Family) : Nat :=
  family.foldr (fun entry total => entry.2.length + total) 0

end Family

/-- The condition that the set of one symbol includes the set of another. -/
structure Inclusion where
  superset : Symbol
  subset : Symbol
deriving DecidableEq

namespace Inclusion

def apply (family : Family) (inclusion : Inclusion) : Family :=
  match family.get? inclusion.subset with
  | none => family
  | some tokens => family.extend inclusion.superset tokens

def pass (inclusions : List Inclusion) (family : Family) : Family :=
  inclusions.foldl apply family

end Inclusion

/-- Adds the left-hand side of each rule whose production is known to be nullable. -/
def nullablePass (rules : List Rule) (known : List Symbol) : List Symbol :=
  rules.foldl
    (fun known rule =>
      if rule.left.symbol ∉ known ∧ ∀ symbol ∈ rule.symbols, symbol ∈ known then
        rule.left.symbol :: known
      else known)
    known

/-- The symbols that derive the empty string. A pass that adds none is the last,
and no more symbols than rules can be added. -/
def nullableSymbols (rules : List Rule) : List Symbol :=
  saturate (nullablePass rules) List.length (rules.length + 1) []

/-- The symbols up to and including the first one that is not nullable. -/
def throughNullable (nullable : List Symbol) : List Symbol → List Symbol
  | [] => []
  | symbol :: rest =>
      if symbol ∈ nullable then symbol :: throughNullable nullable rest else [symbol]

/-- For `X -> Y1 … Yn`, FIRST of `X` includes FIRST of each `Yi` that only
nullable symbols precede. -/
def firstInclusions (nullable : List Symbol) (rules : List Rule) : List Inclusion :=
  rules.flatMap fun rule =>
    ((throughNullable nullable rule.symbols).filter (· ≠ rule.left.symbol)).map
      (Inclusion.mk rule.left.symbol)

/-- FIRST of a terminal is the terminal itself; that of a nonterminal starts empty. -/
def firstSeed (tokens : List Token) : Family :=
  (tokens.filter (!·.isEpsilon)).map
      (fun token => (token.symbol, if token.isTerminal then [token] else [])) ++
    [(.epsilon, [Token.epsilon])]

/-- Passes that suffice for sets of tokens indexed by tokens, ε included: each
pass but the last adds a token to one of the sets. -/
def passLimit (tokens : List Token) : Nat :=
  (tokens.length + 1) * (tokens.length + 1) + 1

/-- FIRST sets; ε stands last in those of nullable symbols. -/
def firstFamily (nullable : List Symbol) (tokens : List Token) (rules : List Rule) : Family :=
  (saturate (Inclusion.pass (firstInclusions nullable rules)) Family.size (passLimit tokens)
      (firstSeed tokens)).map fun entry =>
    (entry.1, if entry.1 ∈ nullable then TokenSet.insert entry.2 .epsilon else entry.2)

structure FirstSets where
  nullable : List Symbol
  family : Family
deriving DecidableEq

namespace FirstSets

def of (tokens : List Token) (rules : List Rule) : FirstSets :=
  let nullable := nullableSymbols rules
  { nullable, family := firstFamily nullable tokens rules }

def isNullable (sets : FirstSets) (symbol : Symbol) : Bool :=
  symbol = .epsilon ∨ symbol ∈ sets.nullable

def first? (sets : FirstSets) (symbol : Symbol) : Option TokenSet :=
  sets.family.get? symbol

/-- Adds to `found` what a sequence of symbols can begin with, and says whether
the whole sequence is nullable. -/
def leadingFrom (sets : FirstSets) (found : TokenSet) : List Symbol → TokenSet × Bool
  | [] => (found, true)
  | symbol :: rest =>
      let found := TokenSet.union found
        (((sets.first? symbol).getD []).filter (!·.isEpsilon))
      if sets.isNullable symbol then leadingFrom sets found rest else (found, false)

def leading (sets : FirstSets) (sequence : List Symbol) : TokenSet × Bool :=
  sets.leadingFrom [] sequence

def firstOf (sets : FirstSets) (sequence : List Symbol) (next : Symbol) : TokenSet :=
  match sets.leading (sequence ++ [next]) with
  | (found, true) => TokenSet.insert found .epsilon
  | (found, false) => found

end FirstSets

/-- A nonterminal in the production of a rule, with the symbols after it. -/
structure Occurrence where
  left : Symbol
  symbol : Symbol
  after : List Symbol
deriving DecidableEq

namespace Occurrence

def inSequence (left : Symbol) : List Symbol → List Occurrence
  | [] => []
  | symbol :: rest =>
      if symbol.isTerminal then inSequence left rest
      else ⟨left, symbol, rest⟩ :: inSequence left rest

def all (rules : List Rule) : List Occurrence :=
  rules.flatMap fun rule => inSequence rule.left.symbol rule.symbols

end Occurrence

def followSeed (tokens : List Token) (start : Rule) : Family :=
  Family.extend ((tokens.filter (!·.isTerminal)).map fun token => (token.symbol, []))
    start.left.symbol [.endMarker]

/-- For `X -> α A β`, FOLLOW of `A` includes FIRST of `β` without ε. -/
def followBase (firsts : FirstSets) (tokens : List Token) (rules : List Rule) (start : Rule) :
    Family :=
  (Occurrence.all rules).foldl
    (fun family occurrence =>
      family.extend occurrence.symbol (firsts.leading occurrence.after).1)
    (followSeed tokens start)

/-- For `X -> α A β` with `β` nullable, FOLLOW of `A` includes FOLLOW of `X`. -/
def followInclusions (firsts : FirstSets) (rules : List Rule) : List Inclusion :=
  ((Occurrence.all rules).filter fun occurrence =>
      (firsts.leading occurrence.after).2 && occurrence.symbol ≠ occurrence.left).map
    fun occurrence => ⟨occurrence.symbol, occurrence.left⟩

def followFamily (firsts : FirstSets) (tokens : List Token) (rules : List Rule) (start : Rule) :
    Family :=
  saturate (Inclusion.pass (followInclusions firsts rules)) Family.size (passLimit tokens)
    (followBase firsts tokens rules start)

structure SymbolSets extends FirstSets where
  follow : Family
deriving DecidableEq

namespace SymbolSets

def of (tokens : List Token) (rules : List Rule) (start : Rule) : SymbolSets :=
  let firsts := FirstSets.of tokens rules
  { firsts with follow := followFamily firsts tokens rules start }

def follow? (sets : SymbolSets) (nonterminal : Symbol) : Option TokenSet :=
  sets.follow.get? nonterminal

end SymbolSets

end ShiftReduce
