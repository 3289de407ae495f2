import ShiftReduce.Table.Basic

/-! The text of a table, state by state. -/

namespace ShiftReduce.Table

variable (table : Table)

/-- Reductions are shown with their rules, as far as these are known. -/
def renderAction (action : Action) : String :=
  match action with
  | .reduce id =>
      match table.rule? id with
      | none => action.render
      | some rule => "reduce(" ++ rule.render ++ ")"
  | _ => action.render

def renderCell (cell : Cell) : String :=
  "- " ++ cell.token.render ++ " => " ++
    String.intercalate " | " (cell.actions.map table.renderAction) ++ "\n"

def renderRow (row : Row) : String :=
  "#### State " ++ StateId.render row.state ++ "\n" ++
    String.join (row.cells.map table.renderCell)

def render : String :=
  String.intercalate "\n" (table.rows.map table.renderRow)

end ShiftReduce.Table
