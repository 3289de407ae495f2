import ShiftReduce.Grammar.Basic

/-! Defining a grammar one declaration at a time. A declaration gives a result and leaves a
draft, whether it is accepted or refused. -/

namespace ShiftReduce

inductive Declaration where
  | terminal (name : String)
  | operator (name : String) (assoc : Assoc)
  | nonterminal (name : String)
  | rule (left : Token) (right : List Token)
  | start (symbol : Token)
deriving DecidableEq

/-- What a declaration gives back: the token declared, the number of the rule. -/
inductive Declared where
  | token (token : Token)
  | rule (id : RuleId)
  | start
deriving DecidableEq

structure Draft where
  tokens : List Token := []
  rules : List Rule := []
  start : Option Token := none
  nextRuleId : RuleId := 1
deriving DecidableEq

namespace Draft

/-- The left-hand side of the start rule, which the draft adds by itself. -/
def startName : String := "$start"

def isReserved (name : String) : Bool :=
  name = Symbol.endMarker.name ∨ name = Symbol.epsilon.name ∨ name = startName

/-- The largest number of sixteen bits. The counter of rules does not move past it. -/
def ruleLimit : Nat := 65535

variable (draft : Draft)

def declareToken (token : Token) : Except GrammarFault Declared × Draft :=
  let name := token.symbol.name
  if name = "" then (.error .emptySymbol, draft)
  else if isReserved name then (.error (.reservedSymbol name), draft)
  else if draft.tokens.any (·.symbol.name = name) then (.error (.declaredTwice name), draft)
  else (.ok (.token token), { draft with tokens := draft.tokens ++ [token] })

/-- A rule takes its number from the counter; an empty right-hand side stands for ε. -/
def declareRule (left : Token) (right : List Token) : Except GrammarFault Declared × Draft :=
  let id := draft.nextRuleId
  let rule : Rule := { id, left, right := if right = [] then [.epsilon] else right }
  if left.isTerminal || draft.tokens.all (·.symbol ≠ left.symbol) then
    (.error (.notANonterminal left), draft)
  else if draft.rules.any (·.sameSides rule) then (.error .duplicateProduction, draft)
  else if ruleLimit ≤ id then (.error .tooManyRules, draft)
  else (.ok (.rule id), { draft with nextRuleId := id + 1, rules := draft.rules ++ [rule] })

def declareStart (symbol : Token) : Except GrammarFault Declared × Draft :=
  if symbol.isTerminal then (.error (.terminalStart symbol), draft)
  else (.ok .start, { draft with start := some symbol })

def declare : Declaration → Except GrammarFault Declared × Draft
  | .terminal name => draft.declareToken (.terminal name)
  | .operator name assoc => draft.declareToken (.operator name assoc)
  | .nonterminal name => draft.declareToken (.nonterminal name)
  | .rule left right => draft.declareRule left right
  | .start symbol => draft.declareStart symbol

/-- The start symbol: the one chosen, or else the first declared nonterminal. -/
def startSymbol? : Option Token :=
  draft.start <|> draft.tokens.find? (!·.isTerminal)

def startRule (symbol : Token) : Rule :=
  { id := 0, left := .nonterminal startName, right := [symbol, .endMarker] }

def finish : Except GrammarFault Grammar :=
  match draft.startSymbol? with
  | none => .error .noNonterminal
  | some symbol =>
      Grammar.build (startRule symbol) (startRule symbol :: draft.rules)
        (draft.tokens ++ [.nonterminal startName, .endMarker])

/-- Makes the declarations up to the first that is refused. -/
def declareAll (draft : Draft) : List Declaration → Except GrammarFault Draft
  | [] => .ok draft
  | declaration :: rest =>
      match draft.declare declaration with
      | (.error fault, _) => .error fault
      | (.ok _, next) => next.declareAll rest

/-- Makes all declarations, each on the draft that the one before it leaves, and reports on
each of them. -/
def attemptAll (draft : Draft) :
    List Declaration → List (Except GrammarFault Declared) × Draft
  | [] => ([], draft)
  | declaration :: rest =>
      let (result, next) := draft.declare declaration
      let (results, final) := next.attemptAll rest
      (result :: results, final)

end Draft

def Grammar.define (declarations : List Declaration) : Except GrammarFault Grammar :=
  match Draft.declareAll {} declarations with
  | .error fault => .error fault
  | .ok draft => draft.finish

end ShiftReduce
