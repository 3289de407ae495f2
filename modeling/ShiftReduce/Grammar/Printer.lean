import ShiftReduce.Grammar.Basic

/-! The text of a grammar: its terminals, its nonterminals and its rules. -/

namespace ShiftReduce.Grammar

variable (g : Grammar)

def renderTerminal (token : Token) : String :=
  match token.assoc with
  | none => token.render ++ "\n"
  | some assoc => token.render ++ " (assoc=" ++ assoc.label ++ ")\n"

def renderNonterminal (token : Token) : String :=
  if token.symbol = g.start.left.symbol then token.render ++ " (start)\n"
  else token.render ++ "\n"

def renderRule (rule : Rule) : String :=
  toString rule.id ++ ". " ++ rule.render ++ "\n"

def render : String :=
  "## terminals:\n" ++ String.join (g.terminals.map renderTerminal) ++
    "\n## nonterminals:\n" ++ String.join (g.nonterminals.map g.renderNonterminal) ++
    "\n## rules:\n" ++ String.join (g.rules.map renderRule)

end ShiftReduce.Grammar
