import ShiftReduce.Parser.Machine

/-! What a run reports: each choice between actions, each move and acceptance. -/

namespace ShiftReduce.Table

variable (table : Table)

def reductionEvents (id : RuleId) (stack : List Frame) : List Event :=
  match table.rule? id with
  | none => []
  | some rule =>
      if stack.length ≤ rule.production.length then []
      else match stack.drop rule.production.length with
        | [] => []
        | uncovered :: _ => table.lookupEvents uncovered.state rule.left

def actionEvents (configuration : Configuration) (state : StateId) (token : Token) :
    Action → List Event
  | .shift target => [.shifted token target]
  | .accept => [.accepted state]
  | .reduce id =>
      table.reductionEvents id configuration.stack ++
        match table.reduction id configuration.stack with
        | .error _ => []
        | .ok reduction => [.reduced reduction.rule reduction.target]

def stepEvents (configuration : Configuration) : List Event :=
  match configuration.input, configuration.stack with
  | token :: _, top :: _ =>
      table.lookupEvents top.state token ++
        match table.lookup top.state token with
        | .ok (some action) => table.actionEvents configuration top.state token action
        | _ => []
  | _, _ => []

def traceFrom : Nat → Configuration → List Event
  | 0, _ => []
  | limit + 1, configuration =>
      table.stepEvents configuration ++
        match table.step configuration with
        | .move _ next => traceFrom limit next
        | _ => []

def trace (limit : Nat) (input : List Token) : List Event :=
  table.traceFrom limit (table.start input)

end ShiftReduce.Table
