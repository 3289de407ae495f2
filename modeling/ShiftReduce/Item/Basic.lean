import ShiftReduce.Grammar.Basic

/-! LR items: a rule, a position in its production and, for LR(1), the terminal
that may follow the rule. -/

namespace ShiftReduce

structure Item where
  rule : RuleId
  dot : Nat
  lookahead : Option Token := none
deriving DecidableEq

namespace Item

/-- What identifies an item: the payload of the lookahead does not count. -/
def key (item : Item) : RuleId × Nat × Option Symbol :=
  (item.rule, item.dot, item.lookahead.map Token.symbol)

def cmp : Item → Item → Ordering :=
  compareLex (compareOn rule)
    (compareLex (compareOn dot) (compareOn fun item => item.lookahead.map Token.symbol))

instance : Std.TransCmp cmp :=
  inferInstanceAs (Std.TransCmp (compareLex (compareOn rule)
    (compareLex (compareOn dot) (compareOn fun item => item.lookahead.map Token.symbol))))

theorem cmp_eq_eq_iff {a b : Item} : cmp a b = .eq ↔ a.key = b.key := by
  simp only [cmp, compareLex, compareOn, Ordering.then_eq_eq, Std.LawfulEqOrd.compare_eq_iff_eq,
    key, Prod.mk.injEq]

def advance (item : Item) : Item :=
  { item with dot := item.dot + 1 }

variable (g : Grammar) (item : Item)

def rule? : Option Rule :=
  g.rule? item.rule

def rest : List Token :=
  match item.rule? g with
  | none => []
  | some rule => rule.production.drop item.dot

def next? : Option Token :=
  (item.rest g).head?

def isComplete : Bool :=
  (item.next? g).isNone

/-- Whether this is the start rule read up to its end marker. The end marker is
never shifted, so this is the item that accepts. -/
def isAccepting : Bool :=
  item.rule = g.start.id && (item.next? g).any Token.isEndMarker

/-- The lookaheads of items that this one brings in, `after` being the symbols
between the nonterminal at the dot and the end of the production. -/
def inherited (after : List Symbol) : List (Option Token) :=
  match item.lookahead with
  | none => [none]
  | some token => ((g.firstOf after token.symbol).filter (!·.isEpsilon)).map some

/-- One closure step: the initial items of the productions of the nonterminal
at the dot, each with the terminals that can follow it there. -/
def expand : List Item :=
  match item.rest g with
  | [] => []
  | next :: after =>
      if next.isTerminal then []
      else (g.productionsOf next.symbol).flatMap fun rule =>
        (item.inherited g (after.map Token.symbol)).map fun lookahead =>
          { rule := rule.id, dot := 0, lookahead }

/-- A dot beyond the end of the production leaves no remainder to take
lookaheads from; without a lookahead such an item just counts as complete. -/
def inRange : Bool :=
  match item.lookahead, item.rule? g with
  | some _, some rule => item.dot ≤ rule.production.length
  | _, _ => true

def expand? : Option (List Item) :=
  if item.inRange g then some (item.expand g) else none

def renderCore : String :=
  match item.rule? g with
  | none => "<unknown rule " ++ RuleId.render item.rule ++ ">"
  | some rule =>
      let spaced (tokens : List Token) := String.join (tokens.map fun token => " " ++ token.render)
      let marker := if item.dot ≤ rule.production.length then " ." else ""
      rule.left.render ++ " ->" ++ spaced (rule.production.take item.dot) ++ marker ++
        spaced (rule.production.drop item.dot)

def render : String :=
  match item.lookahead with
  | none => item.renderCore g
  | some token => "[" ++ item.renderCore g ++ ", " ++ token.render ++ "]"

end Item

end ShiftReduce
