import ShiftReduce.Grammar.Samples
import ShiftReduce.Proofs.Parser.Forest
import ShiftReduce.Proofs.Table.Associativity
import ShiftReduce.Proofs.Table.Justified

/-! Runs on two inputs side by side. The tokens may differ as long as no look-up tells
them apart; then the stacks differ in payload only and the moves are the same. -/

namespace ShiftReduce

/-- The token without its payload. -/
def Token.bare (token : Token) : Token :=
  { symbol := token.symbol }

def Frame.bare (frame : Frame) : Frame :=
  { frame with token := frame.token.map Token.bare }

def Reduction.bare (reduction : Reduction) : Reduction :=
  { reduction with
    arguments := reduction.arguments.map Token.bare
    remaining := reduction.remaining.map Frame.bare }

def Move.bare : Move → Move
  | .shift token target => .shift token.bare target
  | .reduce rule arguments target => .reduce rule (arguments.map Token.bare) target

/-- The error without the payload of the input. Its other tokens come from the table. -/
def Error.bare : Error → Error
  | .unexpectedToken received expected => .unexpectedToken received.bare expected
  | error => error

def Outcome.bare : Outcome → Outcome
  | .failed error => .failed error.bare
  | outcome => outcome

namespace Table

variable {table : Table} {first second : Configuration}

/-- Payload on the stack does not count in a reduction. -/
theorem reduction_bare (table : Table) (id : RuleId) (stack : List Frame) :
    table.reduction id (stack.map Frame.bare) = (table.reduction id stack).map Reduction.bare := by
  unfold reduction
  cases table.rule? id with
  | none => rfl
  | some rule =>
      have arguments : ((stack.map Frame.bare).take rule.production.length).reverse.filterMap
          Frame.token = ((stack.take rule.production.length).reverse.filterMap Frame.token).map
            Token.bare := by
        rw [← List.map_take, ← List.map_reverse, List.filterMap_map, List.map_filterMap]
        rfl
      simp only [List.length_map, ← List.map_drop, arguments]
      split
      · rfl
      · cases stack.drop rule.production.length with
        | nil => rfl
        | cons uncovered below =>
            have state : uncovered.bare.state = uncovered.state := rfl
            simp only [List.map_cons, state]
            split <;> rfl

theorem reduction_cases (table : Table) {stack otherStack : List Frame}
    (frames : stack.map Frame.bare = otherStack.map Frame.bare) (id : RuleId) :
    (∃ error, table.reduction id stack = .error error ∧
      table.reduction id otherStack = .error error) ∨
    ∃ made other, table.reduction id stack = .ok made ∧
      table.reduction id otherStack = .ok other ∧ made.bare = other.bare := by
  have same : (table.reduction id stack).map Reduction.bare =
      (table.reduction id otherStack).map Reduction.bare := by
    rw [← reduction_bare, ← reduction_bare, frames]
  cases reduced : table.reduction id stack with
  | error error =>
      cases otherReduced : table.reduction id otherStack with
      | error other =>
          rw [reduced, otherReduced] at same
          exact Or.inl ⟨error, rfl, congrArg Except.error (Except.error.inj same).symm⟩
      | ok other =>
          rw [reduced, otherReduced] at same
          cases same
  | ok made =>
      cases otherReduced : table.reduction id otherStack with
      | error other =>
          rw [reduced, otherReduced] at same
          cases same
      | ok other =>
          rw [reduced, otherReduced] at same
          exact Or.inr ⟨made, other, rfl, rfl, Except.ok.inj same⟩

/-- Tokens that no state tells apart. -/
def Indistinct (table : Table) (token other : Token) : Prop :=
  token.symbol = other.symbol ∧ ∀ state, table.lookup state token = table.lookup state other

/-- Configurations of two runs that have come to the same place. -/
structure Parallel (table : Table) (first second : Configuration) : Prop where
  stack : first.stack.map Frame.bare = second.stack.map Frame.bare
  input : List.Forall₂ table.Indistinct first.input second.input

inductive ParallelSteps (table : Table) : Step → Step → Prop
  | move {move other : Move} {next another : Configuration} : move.bare = other.bare →
      table.Parallel next another → ParallelSteps table (.move move next) (.move other another)
  | accept : ParallelSteps table .accept .accept
  | fail {error other : Error} : error.bare = other.bare →
      ParallelSteps table (.fail error) (.fail other)

theorem Parallel.step (parallel : table.Parallel first second) :
    table.ParallelSteps (table.step first) (table.step second) := by
  obtain ⟨stack, input⟩ := first
  obtain ⟨otherStack, otherInput⟩ := second
  obtain ⟨frames, inputs⟩ := parallel
  dsimp only at frames inputs
  cases inputs with
  | nil => exact .fail rfl
  | @cons token other rest otherRest indistinct rests =>
      cases stack with
      | nil =>
          obtain rfl := List.map_eq_nil_iff.mp frames.symm
          exact .fail rfl
      | cons top below =>
          obtain ⟨otherTop, otherBelow, rfl, tops, _⟩ := List.map_eq_cons_iff.mp frames.symm
          obtain ⟨state, _⟩ := Frame.mk.inj tops
          have tokens : token.bare = other.bare := congrArg (Token.mk · none none) indistinct.1
          simp only [Table.step, state, ← indistinct.2 top.state]
          cases table.lookup top.state token with
          | error error => exact .fail rfl
          | ok found =>
              cases found with
              | none => exact .fail (by simp only [Error.bare, tokens])
              | some action =>
                  cases action with
                  | accept => exact .accept
                  | shift target =>
                      refine .move (by simp only [Move.bare, tokens]) ⟨?_, rests⟩
                      simpa [Frame.bare, tokens] using frames
                  | reduce id =>
                      rcases reduction_cases table frames id with
                        ⟨error, failed, otherFailed⟩ | ⟨made, another, reduced, otherReduced, same⟩
                      · simp only [failed, otherFailed]
                        exact .fail rfl
                      · obtain ⟨rules, arguments, targets, remaining⟩ := Reduction.mk.inj same
                        simp only [reduced, otherReduced]
                        refine .move ?_ ⟨?_, .cons indistinct rests⟩
                        · simp only [Move.bare, rules, arguments, targets]
                        · simp only [List.map_cons, Frame.bare, rules, targets, remaining]

theorem Parallel.runFrom (parallel : table.Parallel first second) (limit : Nat) :
    (table.runFrom limit first).outcome.bare = (table.runFrom limit second).outcome.bare ∧
      (table.runFrom limit first).last.input.length =
        (table.runFrom limit second).last.input.length ∧
      (table.runFrom limit first).moves.map Move.bare =
        (table.runFrom limit second).moves.map Move.bare := by
  induction limit generalizing first second with
  | zero => exact ⟨rfl, parallel.input.length_eq, rfl⟩
  | succ limit ih =>
      have steps := parallel.step
      simp only [Table.runFrom]
      generalize table.step first = step at steps
      generalize table.step second = other at steps
      cases steps with
      | accept => exact ⟨rfl, parallel.input.length_eq, rfl⟩
      | fail same => exact ⟨congrArg Outcome.failed same, parallel.input.length_eq, rfl⟩
      | move same next =>
          obtain ⟨outcome, input, moves⟩ := ih next
          exact ⟨outcome, input, by rw [List.map_cons, List.map_cons, same, moves]⟩

end Table

/-- Runs that do the same on their inputs, whatever payload the tokens carry. -/
structure Run.Mirrored (input other : List Token) (first second : Run) : Prop where
  outcome : first.outcome.bare = second.outcome.bare
  pulled : first.last.pulled input = second.last.pulled other
  reductions :
    first.reductions.map (fun made => (made.1, made.2.map Token.symbol)) =
      second.reductions.map (fun made => (made.1, made.2.map Token.symbol))

theorem Run.reductions_of_bare {first second : Run}
    (moves : first.moves.map Move.bare = second.moves.map Move.bare) :
    first.reductions.map (fun made => (made.1, made.2.map Token.symbol)) =
      second.reductions.map (fun made => (made.1, made.2.map Token.symbol)) := by
  have bare (moves : List Move) :
      (moves.filterMap Move.reduction?).map (fun made => (made.1, made.2.map Token.symbol)) =
        ((moves.map Move.bare).filterMap Move.reduction?).map
          fun made => (made.1, made.2.map Token.symbol) := by
    rw [List.filterMap_map, List.map_filterMap, List.map_filterMap]
    congr
    funext move
    cases move with
    | shift token target => rfl
    | reduce rule arguments target => simp [Move.bare, Move.reduction?, Token.bare]
  rw [Run.reductions, Run.reductions, bare, moves, ← bare]

/-- Tokens that differ in nothing but their values. -/
def Token.Agrees (token other : Token) : Prop :=
  token.symbol = other.symbol ∧ token.assoc = other.assoc

/-- Tokens with one symbol and, where the grammar declares it without an associativity,
with one associativity. -/
def Grammar.Agrees (g : Grammar) (token other : Token) : Prop :=
  token.symbol = other.symbol ∧ ∀ declared ∈ g.tokens, declared.symbol = token.symbol →
    declared.assoc = none → token.assoc = other.assoc

namespace Table

theorem indistinct_of_agrees (table : Table) {token other : Token} (agrees : token.Agrees other) :
    table.Indistinct token other := by
  refine ⟨agrees.1, fun state => ?_⟩
  rw [lookup, lookup, agrees.1]
  cases table.cell? state other.symbol with
  | none => rfl
  | some cell =>
      apply Cell.resolve_congr
      rw [Cell.assocFor, Cell.assocFor, agrees.2]

/-- The end marker is never shifted, so there is no choice on it to be made. -/
theorem resolve_endMarker {method : Method} {g : Grammar} {state : StateId} {cell : Cell}
    (found : (generate method g).cell? state .endMarker = some cell) (token other : Token) :
    cell.resolve token = cell.resolve other := by
  have unpaired : shiftReduce? cell.actions = none := by
    cases pair : shiftReduce? cell.actions with
    | none => rfl
    | some choice =>
        have shifts := (actions_of_shiftReduce? pair).1
        exact absurd rfl (proper_of_shift ⟨cell, found, shifts⟩).1
  unfold Cell.resolve
  split
  · rfl
  · rfl
  · rw [unpaired]

theorem indistinct_generate (method : Method) {g : Grammar} {token other : Token}
    (agrees : g.Agrees token other) : (generate method g).Indistinct token other := by
  obtain ⟨symbols, associates⟩ := agrees
  refine ⟨symbols, fun state => ?_⟩
  rw [lookup, lookup, ← symbols]
  cases found : (generate method g).cell? state token.symbol with
  | none => rfl
  | some cell =>
      by_cases marked : token.symbol = .endMarker
      · rw [marked] at found
        exact resolve_endMarker found token other
      · obtain ⟨_, _, _, _, same⟩ := mem_of_cell? found
        apply Cell.resolve_congr
        rw [Cell.assocFor, Cell.assocFor]
        cases declares : cell.token.assoc with
        | some assoc => rfl
        | none => rw [associates cell.token (mem_tokens_of_cell found marked) same declares]

end Table

namespace Parser

variable {σ : Type}

theorem mirrored (parser : Parser σ) {input other : List Token}
    (indistinct : List.Forall₂ parser.table.Indistinct input other) (limit : Nat)
    (state another : σ) :
    Run.Mirrored input other (parser.parse limit input state).run
      (parser.parse limit other another).run := by
  have parallel : parser.table.Parallel (parser.table.start input) (parser.table.start other) :=
    ⟨rfl, indistinct⟩
  obtain ⟨outcome, left, moves⟩ := parallel.runFrom limit
  rw [parse, parse, parser.parseFrom_run, parser.parseFrom_run]
  refine ⟨outcome, ?_, Run.reductions_of_bare moves⟩
  simp only [Configuration.pulled, List.length_tail, left, indistinct.length_eq]

/-- What a parser does depends on the symbols and the associativity of its input, and in a
generated table on the associativity of tokens declared without one only. -/
theorem parse_mirrored (handlers : Handlers σ) (limit : Nat) (input other : List Token)
    (state another : σ) :
    (∀ table, List.Forall₂ Token.Agrees input other →
      Run.Mirrored input other (Parser.parse { table, handlers } limit input state).run
        (Parser.parse { table, handlers } limit other another).run) ∧
    ∀ method g, List.Forall₂ (Grammar.Agrees g) input other →
      Run.Mirrored input other
        (Parser.parse { table := .generate method g, handlers } limit input state).run
        (Parser.parse { table := .generate method g, handlers } limit other another).run := by
  constructor
  · intro table agree
    have indistinct : List.Forall₂ table.Indistinct input other :=
      agree.imp fun _ _ => table.indistinct_of_agrees
    exact mirrored { table, handlers } indistinct limit state another
  · intro method g agree
    have indistinct : List.Forall₂ (Table.generate method g).Indistinct input other :=
      agree.imp fun _ _ => Table.indistinct_generate method
    exact mirrored { table := .generate method g, handlers } indistinct limit state another

/-- A sum of other numbers is reduced alike by every table, and by the generated one also if
its operator comes without the associativity that was declared for it. -/
theorem parse_mirrored_sum :
    let number (value : String) : Token := { symbol := .terminal "NUM", value := some value }
    let input := [number "1", .operator "+" .right, number "2", .endMarker]
    let renumbered := [number "3", .operator "+" .right, number "4", .endMarker]
    let other := [number "3", .terminal "+", number "4", .endMarker]
    (∀ table, Run.Mirrored input renumbered
      (Parser.parse { table } 20 input ()).run (Parser.parse { table } 20 renumbered ()).run) ∧
    ∃ g, Grammar.define Samples.operators = .ok g ∧
      (Parser.parse (.ofGrammar .slr g) 20 input ()).run.outcome = .accepted ∧
      Run.Mirrored input other (Parser.parse (.ofGrammar .slr g) 20 input ()).run
        (Parser.parse (.ofGrammar .slr g) 20 other ()).run := by
  intro number input renumbered other
  constructor
  · intro table
    refine (parse_mirrored {} 20 input renumbered () ()).1 table ?_
    exact .cons ⟨rfl, rfl⟩ (.cons ⟨rfl, rfl⟩ (.cons ⟨rfl, rfl⟩ (.cons ⟨rfl, rfl⟩ .nil)))
  · have evaluated : (Grammar.define Samples.operators).toOption.any (fun g =>
        (g.tokens.all fun token => token.symbol ≠ .terminal "+" ∨ token.assoc ≠ none) ∧
          ((Table.generate .slr g).run 20 input).outcome = .accepted) = true := by
      decide +kernel
    cases defined : Grammar.define Samples.operators with
    | error fault =>
        rw [defined] at evaluated
        cases evaluated
    | ok g =>
        rw [defined] at evaluated
        obtain ⟨associates, accepted⟩ := of_decide_eq_true evaluated
        have run : (Parser.parse (.ofGrammar .slr g) 20 input ()).run =
            (Table.generate .slr g).run 20 input := parseFrom_run _ _ _ _
        refine ⟨g, rfl, by rw [run, accepted], (parse_mirrored {} 20 input other () ()).2 .slr g ?_⟩
        have operator : g.Agrees (.operator "+" .right) (.terminal "+") := by
          refine ⟨rfl, fun declared member same undeclared => ?_⟩
          rcases of_decide_eq_true (List.all_eq_true.mp associates declared member) with
            different | associated
          · exact absurd same different
          · exact absurd undeclared associated
        have same {token other : Token} (agrees : token.Agrees other) : g.Agrees token other :=
          ⟨agrees.1, fun _ _ _ _ => agrees.2⟩
        exact .cons (same ⟨rfl, rfl⟩) (.cons operator
          (.cons (same ⟨rfl, rfl⟩) (.cons (same ⟨rfl, rfl⟩) .nil)))

end Parser

end ShiftReduce
