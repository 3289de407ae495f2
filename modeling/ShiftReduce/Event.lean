import ShiftReduce.Error

/-! What the construction of a parser and its runs report on the way. -/

namespace ShiftReduce

inductive Event where
  | grammarBuilt (rules tokens : Nat)
  | stateDiscovered (state : StateId) (via : Token) (source : StateId)
  | statesDiscovered (count : Nat)
  | conflictsKept (cells : Nat)
  | entriesGenerated (count : Nat)
  | conflictResolved (token : Token) (state : StateId) (action : Action)
  | shifted (token : Token) (target : StateId)
  | reduced (rule : Rule) (target : StateId)
  | accepted (state : StateId)
  | handlerReplaced (rule : RuleId)
deriving DecidableEq

namespace Event

inductive Level where
  | debug
  | trace
deriving DecidableEq

def Level.label : Level → String
  | debug => "DEBUG"
  | trace => "TRACE"

def level : Event → Level
  | grammarBuilt .. => .debug
  | stateDiscovered .. => .trace
  | statesDiscovered .. => .debug
  | conflictsKept .. => .debug
  | entriesGenerated .. => .debug
  | conflictResolved .. => .trace
  | shifted .. => .trace
  | reduced .. => .trace
  | accepted .. => .trace
  | handlerReplaced .. => .debug

def message : Event → String
  | grammarBuilt rules tokens =>
      "grammar: " ++ toString rules ++ " rules, " ++ toString tokens ++ " tokens"
  | stateDiscovered state via source =>
      "discovered state " ++ StateId.render state ++ " via " ++ via.render ++ " from " ++
        StateId.render source
  | statesDiscovered count => toString count ++ " states discovered"
  | conflictsKept cells => toString cells ++ " conflicting cells, resolved on lookup"
  | entriesGenerated count => toString count ++ " entries generated"
  | conflictResolved token state action =>
      "resolved conflict on " ++ token.render ++ " at state " ++ StateId.render state ++
        " in favor of " ++ action.render
  | shifted token target =>
      "shift " ++ token.render ++ " and go to state " ++ StateId.render target
  | reduced rule target =>
      "reduce by `" ++ rule.render ++ "' and go to state " ++ StateId.render target
  | accepted state => "accept at state " ++ StateId.render state
  | handlerReplaced rule => "replaced the action registered for rule " ++ RuleId.render rule

def render (event : Event) : String :=
  event.level.label ++ " " ++ event.message

end Event

end ShiftReduce
