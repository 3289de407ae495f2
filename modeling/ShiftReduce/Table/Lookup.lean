import ShiftReduce.Table.Basic

/-! Taking one action out of a cell. A choice between one shift and one reduction
falls by associativity: that of the token entered, or else that of the input. -/

namespace ShiftReduce

/-- The shift and the reduction of a cell that has one of each and nothing else. -/
def shiftReduce? : List Action → Option (StateId × RuleId)
  | [.shift target, .reduce rule] => some (target, rule)
  | [.reduce rule, .shift target] => some (target, rule)
  | _ => none

namespace Cell

def assocFor (cell : Cell) (input : Token) : Option Assoc :=
  cell.token.assoc <|> input.assoc

/-- The action on an input token with the symbol of the cell. -/
def resolve (cell : Cell) (input : Token) : Except Error (Option Action) :=
  match cell.actions with
  | [] => .ok none
  | [action] => .ok (some action)
  | actions =>
      match shiftReduce? actions, cell.assocFor input with
      | some (target, rule), some assoc =>
          .ok (some (if assoc.prefersReduce then .reduce rule else .shift target))
      | _, _ => .error (.unresolvableConflict cell.token actions)

end Cell

namespace Table

variable (table : Table)

def lookup (state : StateId) (token : Token) : Except Error (Option Action) :=
  match table.cell? state token.symbol with
  | none => .ok none
  | some cell => cell.resolve token

def lookupEvents (state : StateId) (token : Token) : List Event :=
  match table.cell? state token.symbol with
  | none => []
  | some cell =>
      match cell.resolve token with
      | .ok (some action) =>
          if 1 < cell.actions.length then [.conflictResolved token state action] else []
      | _ => []

end Table

end ShiftReduce
