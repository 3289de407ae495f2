import ShiftReduce.Item.Closure

/-! The three methods of table construction. They differ in the initial item and
in the terminals on which a complete item reduces. -/

namespace ShiftReduce

inductive Method where
  | lr0
  | slr
  | lr1
deriving DecidableEq

namespace Method

def name : Method → String
  | lr0 => "LR(0)"
  | slr => "SLR"
  | lr1 => "LR(1)"

def shortName : Method → String
  | lr0 => "LR0"
  | slr => "SLR"
  | lr1 => "LR1"

def describe (method : Method) : String :=
  "Generator \x7b method: \"" ++ method.name ++ "\", .. \x7d"

/-- The start rule with the dot in front; LR(1) expects the end of input after it. -/
def initialItem (method : Method) (g : Grammar) : Item :=
  match method with
  | lr0 => { rule := g.start.id, dot := 0 }
  | slr => { rule := g.start.id, dot := 0 }
  | lr1 => { rule := g.start.id, dot := 0, lookahead := some .endMarker }

def initialItems (method : Method) (g : Grammar) : ItemSet :=
  ItemSet.closure g [method.initialItem g]

/-- The terminals on which a complete item reduces: all of them, those that can
follow its left-hand side anywhere, or its own lookahead. -/
def reduceLookaheads (method : Method) (g : Grammar) (item : Item) : List Token :=
  match method with
  | lr0 => g.terminals.filter (!·.isEpsilon)
  | slr => ((item.rule? g).bind fun rule => g.follow? rule.left.symbol).getD []
  | lr1 => item.lookahead.toList

end Method

/-- The choice of a method, LR(1) unless another one is chosen. -/
structure Config where
  method : Method := .lr1
deriving DecidableEq

def Config.use (_config : Config) (method : Method) : Config :=
  { method }

def Config.history (config : Config) : List Method → List Config
  | [] => [config]
  | method :: rest => config :: (config.use method).history rest

end ShiftReduce
