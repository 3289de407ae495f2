import ShiftReduce.Calculator.Arithmetic
import ShiftReduce.Grammar.Draft
import ShiftReduce.Parser.Basic

/-! A calculator: expressions are parsed with an SLR table, and the handlers of
its rules compute on a stack of values. -/

namespace ShiftReduce.Calculator

/-- The rules `E -> E + T | E - T | T`, `T -> T * F | T / F | F`, `F -> NUM | ( E )`. -/
def declarations : List Declaration :=
  let e := Token.nonterminal "E"
  let t := Token.nonterminal "T"
  let f := Token.nonterminal "F"
  [ .terminal "(", .terminal ")", .terminal "+", .terminal "-", .terminal "*", .terminal "/",
    .terminal numberName, .nonterminal "E", .nonterminal "T", .nonterminal "F",
    .rule e [e, .terminal "+", t],
    .rule e [e, .terminal "-", t],
    .rule e [t],
    .rule t [t, .terminal "*", f],
    .rule t [t, .terminal "/", f],
    .rule t [f],
    .rule f [.terminal numberName],
    .rule f [.terminal "(", e, .terminal ")"] ]

/-- What the rules compute, by their numbers. Rules that only pass a value on
have no handler. -/
def handlers : List (RuleId × Handler Values) :=
  [ (1, Values.operate .add), (2, Values.operate .sub), (4, Values.operate .mul),
    (5, Values.operate .div), (7, Values.pushNumber) ]

theorem isOk_define_declarations : (Grammar.define declarations).isOk = true := by
  decide +kernel

def grammar : Grammar :=
  match defined : Grammar.define declarations with
  | .ok g => g
  | .error _ => absurd isOk_define_declarations (by simp [defined, Except.isOk, Except.toBool])

def parser : Parser Values :=
  (Parser.ofGrammar .slr grammar).onAll handlers

inductive Failure where
  | missingInput
  | lexical (span : Span)
  | parsing (error : Error)
  | evaluation (fault : Fault)
  | unfinished
  | nothingEvaluated
deriving DecidableEq

def Failure.message : Failure → String
  | missingInput => "missing input"
  | lexical span => "lexer error at " ++ span.render
  | parsing error => "parser error\n\nCaused by:\n    " ++ error.message
  | evaluation fault => "evaluation error: " ++ fault.message
  | unfinished => "parser error"
  | nothingEvaluated => "nothing evaluated"

/-- Each token is shifted once and takes part in a few reductions only: a
number or a parenthesis in at most three, an operator in one. -/
def moveLimit (tokens : List Token) : Nat :=
  16 * (tokens.length + 1)

def evaluateTokens (tokens : List Token) : Except Failure Int :=
  let parse := parser.parse (moveLimit tokens) tokens {}
  match parse.run.outcome with
  | .failed error => .error (.parsing error)
  | .unfinished => .error .unfinished
  | .accepted =>
      match parse.state.fault, parse.state.stack with
      | some fault, _ => .error (.evaluation fault)
      | none, [] => .error .nothingEvaluated
      | none, value :: _ => .ok value

/-- The value of an expression. All of it is read before any of it is parsed. -/
def evaluate (input : List Char) : Except Failure Int :=
  match scan input with
  | .error span => .error (.lexical span)
  | .ok tokens => evaluateTokens tokens

def trim (input : List Char) : List Char :=
  ((input.dropWhile isBlank).reverse.dropWhile isBlank).reverse

structure Report where
  code : Nat
  output : String
  errors : String
deriving DecidableEq

def Report.ofFailure (failure : Failure) : Report :=
  { code := 1, output := "", errors := "Error: " ++ failure.message ++ "\n" }

def report : Option String → Report
  | none => .ofFailure .missingInput
  | some input =>
      match evaluate input.toList with
      | .error failure => .ofFailure failure
      | .ok value =>
          { code := 0
            output := String.ofList (trim input.toList) ++ " = " ++ toString value ++ "\n"
            errors := "" }

end ShiftReduce.Calculator
