import ShiftReduce.Action

/-! The errors of grammar construction, table lookup and parsing, by cause, and
their wording. -/

namespace ShiftReduce

inductive GrammarFault where
  | duplicateRule (id : RuleId)
  | terminalLeft (rule : Rule)
  | emptyRight (rule : Rule)
  | misplacedEpsilon (rule : Rule)
  | undeclaredToken (token : Token)
  | startNotAmongRules (start : Rule)
  | startWithoutEndMarker (start : Rule)
  | emptySymbol
  | reservedSymbol (name : String)
  | declaredTwice (name : String)
  | notANonterminal (left : Token)
  | duplicateProduction
  | tooManyRules
  | terminalStart (start : Token)
  | noNonterminal
deriving DecidableEq

def GrammarFault.message : GrammarFault → String
  | duplicateRule id => "duplicate rule index " ++ RuleId.render id
  | terminalLeft rule => "the left-hand side of `" ++ rule.render ++ "' is a terminal"
  | emptyRight rule =>
      "the rule `" ++ rule.render ++ "' has an empty right-hand side (use ε)"
  | misplacedEpsilon rule => "ε must be the only symbol of `" ++ rule.render ++ "'"
  | undeclaredToken token => "the token `" ++ token.render ++ "' is not part of the token set"
  | startNotAmongRules start =>
      "the start rule `" ++ start.render ++ "' is not part of the rules"
  | startWithoutEndMarker start =>
      "the start rule `" ++ start.render ++ "' must end with " ++ Token.endMarker.render
  | emptySymbol => "empty token symbol"
  | reservedSymbol name => "the symbol `" ++ name ++ "' is reserved"
  | declaredTwice name => "the symbol `" ++ name ++ "' has already been declared"
  | notANonterminal left => "`" ++ left.render ++ "' is not a declared nonterminal"
  | duplicateProduction => "Duplicate production rule detected"
  | tooManyRules => "too many rules"
  | terminalStart start =>
      "the start symbol `" ++ start.render ++ "' must be a nonterminal"
  | noNonterminal => "empty nonterminal symbols"

/-- Why a reduction is impossible: the table does not describe an automaton. -/
inductive TableFault where
  | unknownRule (id : RuleId)
  | stackTooShort (rule : Rule)
  | noGoto (left : Token) (state : StateId)
  | emptyStack
deriving DecidableEq

def TableFault.message : TableFault → String
  | unknownRule id => "reduction by unknown rule " ++ RuleId.render id
  | stackTooShort rule => "the stack is too short to reduce `" ++ rule.render ++ "'"
  | noGoto left state => "no goto on " ++ left.render ++ " from state " ++ StateId.render state
  | emptyStack => "the parse stack is empty"

inductive Error where
  | invalidGrammar (fault : GrammarFault)
  | unexpectedToken (received : Token) (expected : List Token)
  | notAccepted
  | unresolvableConflict (token : Token) (actions : List Action)
  | inconsistentTable (fault : TableFault)
deriving DecidableEq

def Error.message : Error → String
  | invalidGrammar fault => "invalid grammar: " ++ fault.message
  | unexpectedToken received expected =>
      "received token: " ++ received.render ++ "; expected one of: [" ++
        Token.renderAll ", " expected ++ "]"
  | notAccepted => "the input was exhausted before it was accepted"
  | unresolvableConflict token actions =>
      "cannot resolve conflict for actions [" ++
        String.intercalate ", " (actions.map Action.render) ++ "]; token " ++ token.render ++
        " cannot associate"
  | inconsistentTable fault => "inconsistent parsing table: " ++ fault.message

end ShiftReduce
