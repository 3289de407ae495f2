import ShiftReduce.Rule

/-! What a parser does in a state on a token. -/

namespace ShiftReduce

abbrev StateId := Nat

namespace StateId

/-- States are numbered from 1, the first one being the initial state. -/
def initial : StateId := 1

def render (state : StateId) : String :=
  toString state

/-- The long form of a state number, padded with zeros to three digits. -/
def label (state : StateId) : String :=
  let digits := toString state
  "S#" ++ "".pushn '0' (3 - digits.length) ++ digits

end StateId

inductive Action where
  | shift (target : StateId)
  | reduce (rule : RuleId)
  | accept
deriving DecidableEq

def Action.render : Action → String
  | shift target => "shift(" ++ StateId.render target ++ ")"
  | reduce rule => "reduce(" ++ RuleId.render rule ++ ")"
  | accept => "accept"

end ShiftReduce
