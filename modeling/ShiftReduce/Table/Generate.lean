import ShiftReduce.Automaton.Basic
import ShiftReduce.Table.Basic

/-! The table of a grammar: each item of each state enters its actions. Actions
that conflict stay side by side. -/

namespace ShiftReduce

namespace Method

variable (method : Method) (g : Grammar) (a : Automaton)

/-- What an item of a state entails: acceptance, reductions if it is complete,
or the shift to where its next symbol leads. -/
def itemEntries (state : StateId) (item : Item) : List Entry :=
  if item.isAccepting g then [{ state, token := .endMarker, action := .accept }]
  else match item.next? g with
    | none =>
        (method.reduceLookaheads g item).map fun token =>
          { state, token, action := .reduce item.rule }
    | some token =>
        match a.target? state token.symbol with
        | none => []
        | some target => [{ state, token, action := .shift target }]

def stateEntries (state : State) : List Entry :=
  match state.number with
  | none => []
  | some number => state.items.flatMap (method.itemEntries g a number)

end Method

namespace Table

def ofAutomaton (method : Method) (g : Grammar) (a : Automaton) : Table :=
  ofEntries .initial g.rules (a.states.flatMap (method.stateEntries g a))

def generate (method : Method) (g : Grammar) : Table :=
  ofAutomaton method g (Automaton.build method g)

def summary (table : Table) : List Event :=
  let conflicts := table.conflicts.length
  (if 0 < conflicts then [.conflictsKept conflicts] else []) ++
    [.entriesGenerated table.entries.length]

end Table

end ShiftReduce
