import ShiftReduce.Item.Closure

/-! The states of an automaton: closed item sets. -/

namespace ShiftReduce

structure State where
  items : ItemSet
  number : Option StateId := none
  isFinal : Bool := false
deriving DecidableEq

namespace State

/-- A state that is not part of an automaton yet. It is final if it holds the
item that accepts. -/
def ofClosed (g : Grammar) (items : ItemSet) : State :=
  { items, isFinal := items.any (·.isAccepting g) }

def ofItems? (g : Grammar) (items : List Item) : Option State :=
  (ItemSet.closure? g items).map (ofClosed g)

def sameItems (a b : State) : Bool :=
  a.items.keys = b.items.keys

def render (g : Grammar) (state : State) : String :=
  let number := match state.number with
    | none => "-"
    | some number => StateId.render number
  let mark := if state.isFinal then " (accept)" else ""
  "#### State " ++ number ++ mark ++ "\n" ++
    String.join (state.items.map fun item => "- " ++ item.render g ++ "\n")

end State

end ShiftReduce
