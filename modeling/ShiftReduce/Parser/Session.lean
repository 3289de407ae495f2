import ShiftReduce.Parser.Recorder
import ShiftReduce.Parser.Trace

/-! Sessions with one parser: registering recording handlers, taking them away,
calling those given back, and parsing. -/

namespace ShiftReduce

variable {τ : Type}

inductive Command (τ : Type) where
  | on (rule : RuleId) (tag : τ)
  | register (rule : RuleId) (tag : τ)
  | unregister (rule : RuleId)
  | contains (rule : RuleId)
  | clear
  | call (index : Nat) (arguments : List Token)
  | parse (input : List Token)
  | rule (id : RuleId)
deriving DecidableEq

structure Transcript (τ : Type) where
  outcome : Outcome
  calls : List (Call τ)
  pulled : Nat
deriving DecidableEq

inductive Reply (τ : Type) where
  | done
  | flag (value : Bool)
  | called (calls : Option (List (Call τ)))
  | parsed (transcript : Transcript τ)
  | text (text : Option String)
deriving DecidableEq

/-- The parser, the handlers that were given back, and the recorder. -/
structure Session (τ : Type) where
  parser : Parser (Recorder τ)
  held : List (Handler (Recorder τ)) := []
  recorder : Recorder τ := {}

structure Response (τ : Type) where
  reply : Reply τ
  events : List Event := []
  session : Session τ

namespace Session

variable (session : Session τ)

def parse (limit : Nat) (input : List Token) : Response τ :=
  let parse := session.parser.parse limit input session.recorder
  let (calls, recorder) := parse.state.take
  { reply := .parsed {
      outcome := parse.run.outcome
      calls
      pulled := parse.run.last.pulled input }
    events := session.parser.table.trace limit input
    session := { session with recorder } }

def register (rule : RuleId) (tag : τ) (keep : Bool) : Response τ :=
  let (handler, recorder) := session.recorder.create tag
  let (replaced, handlers) := session.parser.handlers.register rule handler
  { reply := if keep then .flag replaced.isSome else .done
    events := session.parser.handlers.registerEvents rule
    session := {
      parser := { session.parser with handlers }
      held := if keep then session.held ++ replaced.toList else session.held
      recorder } }

def unregister (rule : RuleId) : Response τ :=
  let (removed, handlers) := session.parser.handlers.unregister rule
  { reply := .flag removed.isSome
    session := {
      session with
      parser := { session.parser with handlers }
      held := session.held ++ removed.toList } }

def call (index : Nat) (arguments : List Token) : Response τ :=
  match session.held[index]? with
  | none => { reply := .called none, session }
  | some handler =>
      let (calls, recorder) := (handler arguments session.recorder).take
      { reply := .called (some calls), session := { session with recorder } }

/-- Executes a command; a parse makes `limit` moves at most. -/
def execute (limit : Nat) : Command τ → Response τ
  | .on rule tag => session.register rule tag false
  | .register rule tag => session.register rule tag true
  | .unregister rule => session.unregister rule
  | .contains rule => { reply := .flag (session.parser.handlers.contains rule), session }
  | .clear =>
      { reply := .done
        session := { session with parser := { session.parser with handlers := {} } } }
  | .call index arguments => session.call index arguments
  | .parse input => session.parse limit input
  | .rule id => { reply := .text ((session.parser.table.rule? id).map Rule.render), session }

def executeAll (limit : Nat) (session : Session τ) : List (Command τ) → List (Response τ)
  | [] => []
  | command :: rest =>
      let response := session.execute limit command
      response :: executeAll limit response.session rest

end Session

end ShiftReduce
