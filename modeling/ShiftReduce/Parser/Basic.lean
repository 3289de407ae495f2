import ShiftReduce.Parser.Handlers
import ShiftReduce.Table.Generate

/-! Parsers: a table together with the handlers of its rules. -/

namespace ShiftReduce

variable {σ : Type}

structure Parser (σ : Type) where
  table : Table
  handlers : Handlers σ := {}

structure Parse (σ : Type) where
  run : Run
  state : σ

namespace Parser

variable (parser : Parser σ)

def ofGrammar (method : Method) (g : Grammar) : Parser σ :=
  { table := .generate method g }

def on (rule : RuleId) (handler : Handler σ) : Parser σ :=
  { parser with handlers := (parser.handlers.register rule handler).2 }

def onAll (handlers : List (RuleId × Handler σ)) : Parser σ :=
  handlers.foldl (fun parser entry => parser.on entry.1 entry.2) parser

theorem onAll_table (handlers : List (RuleId × Handler σ)) :
    (parser.onAll handlers).table = parser.table := by
  induction handlers generalizing parser with
  | nil => rfl
  | cons entry rest ih => exact ih (parser.on entry.1 entry.2)

def parseFrom : Nat → Configuration → σ → Parse σ
  | 0, configuration, state =>
      { run := { moves := [], outcome := .unfinished, last := configuration }, state }
  | limit + 1, configuration, state =>
      match parser.table.step configuration with
      | .accept => { run := { moves := [], outcome := .accepted, last := configuration }, state }
      | .fail error =>
          { run := { moves := [], outcome := .failed error, last := configuration }, state }
      | .move move next =>
          let parse := parseFrom limit next (parser.handlers.observe move state)
          { parse with run := { parse.run with moves := move :: parse.run.moves } }

def parse (limit : Nat) (input : List Token) (state : σ) : Parse σ :=
  parser.parseFrom limit (parser.table.start input) state

/-- Handlers see a parse but do not steer it: its run is that of the table. -/
theorem parseFrom_run (limit : Nat) (configuration : Configuration) (state : σ) :
    (parser.parseFrom limit configuration state).run =
      parser.table.runFrom limit configuration := by
  induction limit generalizing configuration state with
  | zero => rfl
  | succ limit ih =>
      simp only [parseFrom, Table.runFrom]
      cases parser.table.step configuration <;> simp only [ih]

end Parser

end ShiftReduce
