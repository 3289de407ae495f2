import ShiftReduce.Table.Lookup

/-! The shift-reduce machine of a table. One step looks at the state on top of
the stack and at the first token of the input that is left. -/

namespace ShiftReduce

/-- A state on the stack and the token over which it was entered, which the
initial state does not have. -/
structure Frame where
  state : StateId
  token : Option Token := none
deriving DecidableEq

/-- The stack, its top first, and the input left, its first token being looked at. -/
structure Configuration where
  stack : List Frame
  input : List Token
deriving DecidableEq

inductive Move where
  | shift (token : Token) (target : StateId)
  | reduce (rule : Rule) (arguments : List Token) (target : StateId)
deriving DecidableEq

inductive Step where
  | move (move : Move) (next : Configuration)
  | accept
  | fail (error : Error)
deriving DecidableEq

/-- A reduction that can be made: what it takes from the stack, where it goes,
and the frames it leaves. -/
structure Reduction where
  rule : Rule
  arguments : List Token
  target : StateId
  remaining : List Frame
deriving DecidableEq

namespace Table

variable (table : Table)

/-- The reduction by a rule. The tokens of its production are taken off the
stack, and the state uncovered says where its left-hand side leads. -/
def reduction (id : RuleId) (stack : List Frame) : Except Error Reduction :=
  match table.rule? id with
  | none => .error (.inconsistentTable (.unknownRule id))
  | some rule =>
      let count := rule.production.length
      if stack.length ≤ count then .error (.inconsistentTable (.stackTooShort rule))
      else match stack.drop count with
        | [] => .error (.inconsistentTable .emptyStack)
        | uncovered :: below =>
            match table.lookup uncovered.state rule.left with
            | .error error => .error error
            | .ok (some (.shift target)) =>
                .ok {
                  rule
                  arguments := (stack.take count).reverse.filterMap Frame.token
                  target
                  remaining := uncovered :: below }
            | .ok _ => .error (.inconsistentTable (.noGoto rule.left uncovered.state))

def step (configuration : Configuration) : Step :=
  match configuration.input with
  | [] => .fail .notAccepted
  | token :: rest =>
      match configuration.stack with
      | [] => .fail (.inconsistentTable .emptyStack)
      | top :: below =>
          match table.lookup top.state token with
          | .error error => .fail error
          | .ok none => .fail (.unexpectedToken token (table.expectedTokens top.state))
          | .ok (some (.shift target)) =>
              .move (.shift token target)
                { stack := { state := target, token := some token } :: top :: below
                  input := rest }
          | .ok (some (.reduce id)) =>
              match table.reduction id (top :: below) with
              | .error error => .fail error
              | .ok reduction =>
                  .move (.reduce reduction.rule reduction.arguments reduction.target)
                    { stack :=
                        { state := reduction.target, token := some reduction.rule.left } ::
                          reduction.remaining
                      input := token :: rest }
          | .ok (some .accept) => .accept

def start (input : List Token) : Configuration :=
  { stack := [{ state := table.initial }], input }

end Table

/-- How a run ended. Unfinished means that its step limit was reached. -/
inductive Outcome where
  | accepted
  | failed (error : Error)
  | unfinished
deriving DecidableEq

structure Run where
  moves : List Move
  outcome : Outcome
  last : Configuration
deriving DecidableEq

namespace Table

variable (table : Table)

/-- Steps until the machine accepts or fails, `limit` moves at most. -/
def runFrom : Nat → Configuration → Run
  | 0, configuration => { moves := [], outcome := .unfinished, last := configuration }
  | limit + 1, configuration =>
      match table.step configuration with
      | .accept => { moves := [], outcome := .accepted, last := configuration }
      | .fail error => { moves := [], outcome := .failed error, last := configuration }
      | .move move next =>
          let run := runFrom limit next
          { run with moves := move :: run.moves }

def run (limit : Nat) (input : List Token) : Run :=
  table.runFrom limit (table.start input)

end Table

/-- How many tokens were taken from the input, the one looked at included. -/
def Configuration.pulled (configuration : Configuration) (input : List Token) : Nat :=
  input.length - configuration.input.tail.length

end ShiftReduce
