import ShiftReduce.Error
import ShiftReduce.Event

/-! Parsing tables. A cell keeps all actions entered for it, in order; which one
is taken is decided when it is looked up. -/

namespace ShiftReduce

structure Entry where
  state : StateId
  token : Token
  action : Action
deriving DecidableEq

/-- The actions of a state on a token. The token is the first one entered. -/
structure Cell where
  token : Token
  actions : List Action := []
deriving DecidableEq

namespace Cell

def symbol (cell : Cell) : Symbol :=
  cell.token.symbol

def add (cell : Cell) (action : Action) : Cell :=
  { cell with actions := Keyed.insert id action cell.actions }

end Cell

structure Row where
  state : StateId
  cells : List Cell := []
deriving DecidableEq

def Row.add (row : Row) (token : Token) (action : Action) : Row :=
  { row with cells := Keyed.upsert Cell.symbol token.symbol { token } (·.add action) row.cells }

structure Table where
  initial : StateId
  rules : List Rule
  rows : List Row := []
deriving DecidableEq

namespace Table

/-- A table without entries. Of rules with one number the last one counts. -/
def empty (initial : StateId) (rules : List Rule) : Table :=
  { initial, rules := rules.foldl (fun known rule => Keyed.replace Rule.id rule known) [] }

variable (table : Table)

def add (entry : Entry) : Table :=
  { table with
    rows := Keyed.upsert Row.state entry.state { state := entry.state }
      (·.add entry.token entry.action) table.rows }

def addAll (entries : List Entry) : Table :=
  entries.foldl add table

def ofEntries (initial : StateId) (rules : List Rule) (entries : List Entry) : Table :=
  (empty initial rules).addAll entries

def rule? (id : RuleId) : Option Rule :=
  Keyed.find? Rule.id id table.rules

def states : List StateId :=
  table.rows.map Row.state

def cells? (state : StateId) : Option (List Cell) :=
  (Keyed.find? Row.state state table.rows).map Row.cells

def cell? (state : StateId) (symbol : Symbol) : Option Cell :=
  (table.cells? state).bind (Keyed.find? Cell.symbol symbol)

def actions? (state : StateId) (symbol : Symbol) : Option (List Action) :=
  (table.cell? state symbol).map Cell.actions

def holds (entry : Entry) : Bool :=
  ((table.actions? entry.state entry.token.symbol).getD []).contains entry.action

/-- Adds an entry and says whether it was new. -/
def insert (entry : Entry) : Bool × Table :=
  (!table.holds entry, table.add entry)

def entries : List Entry :=
  table.rows.flatMap fun row =>
    row.cells.flatMap fun cell =>
      cell.actions.map fun action => { state := row.state, token := cell.token, action }

def conflicts : List (StateId × Cell) :=
  table.rows.flatMap fun row =>
    (row.cells.filter (1 < ·.actions.length)).map fun cell => (row.state, cell)

/-- The terminals with an action in a state, in increasing order. Columns of
nonterminals are gotos and never come from the input. -/
def expectedTokens (state : StateId) : List Token :=
  Token.sorted ((((table.cells? state).getD []).map Cell.token).filter Token.isTerminal)

end Table

end ShiftReduce
