import ShiftReduce.Parser.Machine

/-! Handlers that run when their rules are reduced. A rule has at most one. -/

namespace ShiftReduce

variable {σ : Type}

/-- A handler gets the tokens matched by the production, from left to right,
and changes a state of the caller's. -/
abbrev Handler (σ : Type) := List Token → σ → σ

/-- Handlers by rule, in the order in which the rules got their first one. -/
structure Handlers (σ : Type) where
  entries : List (RuleId × Handler σ) := []

namespace Handlers

variable (handlers : Handlers σ)

def get? (rule : RuleId) : Option (Handler σ) :=
  (Keyed.find? Prod.fst rule handlers.entries).map Prod.snd

def rules : List RuleId :=
  handlers.entries.map Prod.fst

def size : Nat :=
  handlers.entries.length

def contains (rule : RuleId) : Bool :=
  (handlers.get? rule).isSome

def register (rule : RuleId) (handler : Handler σ) : Option (Handler σ) × Handlers σ :=
  (handlers.get? rule, { entries := Keyed.replace Prod.fst (rule, handler) handlers.entries })

def registerEvents (rule : RuleId) : List Event :=
  if handlers.contains rule then [.handlerReplaced rule] else []

def unregister (rule : RuleId) : Option (Handler σ) × Handlers σ :=
  (handlers.get? rule, { entries := Keyed.erase Prod.fst rule handlers.entries })

def invoke (rule : RuleId) (arguments : List Token) (state : σ) : σ :=
  match handlers.get? rule with
  | none => state
  | some handler => handler arguments state

def observe (move : Move) (state : σ) : σ :=
  match move with
  | .shift _ _ => state
  | .reduce rule arguments _ => handlers.invoke rule.id arguments state

def describe : String :=
  "ActionRegistry \x7b rules: [" ++
    String.intercalate ", "
      (handlers.rules.map fun rule => "RuleID \x7b raw: " ++ toString rule ++ " \x7d") ++
    "] \x7d"

end Handlers

end ShiftReduce
