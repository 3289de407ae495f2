import ShiftReduce.Automaton.State
import ShiftReduce.Method

/-! The automaton of item sets that can be reached from the initial one. States
are numbered in the order of their discovery, breadth first and token by
token. -/

namespace ShiftReduce

structure Edge where
  token : Token
  target : StateId
deriving DecidableEq

/-- The states in the order of their numbers and, for each state explored so
far, its outgoing edges. -/
structure Automaton where
  states : List State := []
  transitions : List (List Edge) := []
deriving DecidableEq

namespace Automaton

variable (a : Automaton)

def size : Nat :=
  a.states.length

def state? : StateId → Option State
  | 0 => none
  | index + 1 => a.states[index]?

def find? (state : State) : Option StateId :=
  (a.states.find? fun known => known.sameItems state).bind State.number

def edges? : StateId → Option (List Edge)
  | 0 => none
  | index + 1 => a.transitions[index]?

def target? (state : StateId) (symbol : Symbol) : Option StateId :=
  ((a.edges? state).bind (Keyed.find? (·.token.symbol) symbol)).map Edge.target

/-- The number of a state, which is added as the last one if it is new. -/
def intern (state : State) : StateId × Automaton :=
  match a.find? state with
  | some number => (number, a)
  | none =>
      let number := a.states.length + 1
      (number, { a with states := a.states ++ [{ state with number := some number }] })

def explore (g : Grammar) (items : ItemSet) (a : Automaton) :
    List Token → List Edge × Automaton
  | [] => ([], a)
  | token :: rest =>
      let next := items.goto g token.symbol
      if next = [] then explore g items a rest
      else
        let (target, a) := a.intern (.ofClosed g next)
        let (edges, a) := explore g items a rest
        ({ token, target } :: edges, a)

/-- The tokens that edges are labelled with. Reaching the end marker accepts. -/
def labels (g : Grammar) : List Token :=
  g.tokens.filter fun token => !token.isEndMarker && !token.isEpsilon

def discover (g : Grammar) : Nat → Automaton → Automaton
  | 0, a => a
  | fuel + 1, a =>
      match a.states[a.transitions.length]? with
      | none => a
      | some state =>
          let (edges, a) := explore g state.items a (labels g)
          discover g fuel { a with transitions := a.transitions ++ [edges] }

/-- The number of items: a dot in each place of each rule, and a token or
nothing for lookahead. -/
def itemCount (g : Grammar) : Nat :=
  g.rules.foldr (fun rule total => rule.production.length + 1 + total) 0 *
    (g.tokens.length + 1)

/-- There are no more states than sets of items. -/
def stateLimit (g : Grammar) : Nat :=
  Nat.pow 2 (itemCount g)

def build (method : Method) (g : Grammar) : Automaton :=
  discover g (stateLimit g) (intern {} (.ofClosed g (method.initialItems g))).2

def allEdges : List (StateId × Edge) :=
  (a.transitions.zipIdx 1).flatMap fun entry => entry.1.map fun edge => (entry.2, edge)

/-- The edges over which the states were first reached, `known` being the
highest number so far. -/
def discoveries (known : StateId) : List (StateId × Edge) → List Event
  | [] => []
  | (source, edge) :: rest =>
      if known < edge.target then
        .stateDiscovered edge.target edge.token source :: discoveries edge.target rest
      else discoveries known rest

def events : List Event :=
  discoveries .initial a.allEdges ++ [.statesDiscovered a.size]

end Automaton

end ShiftReduce
