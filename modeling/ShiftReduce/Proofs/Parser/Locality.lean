import ShiftReduce.Calculator.Basic
import ShiftReduce.Proofs.Parser.Forest

/-! A parse depends only on the tokens it has pulled. What comes after the token looked
at last can be replaced; and input that runs out without being accepted can go
on, with everything done so far left as it is. -/

namespace ShiftReduce

namespace Table

variable {table : Table} {limit : Nat} {input : List Token} {moves : List Move}
  {first last : Configuration}

theorem Steps.extend (steps : table.Steps first moves last) (more : List Token) :
    table.Steps { first with input := first.input ++ more } moves
      { last with input := last.input ++ more } := by
  induction steps with
  | refl => exact Steps.refl
  | move _ transition ih =>
      refine ih.move ?_
      cases transition with
      | shift found => exact Transition.shift found
      | reduce found reduced => exact Transition.reduce found reduced

theorem outcome_of_head (table : Table) (stack : List Frame) (token : Token)
    (rest other : List Token) :
    (table.step { stack, input := token :: rest }).outcome =
      (table.step { stack, input := token :: other }).outcome := by
  cases stack with
  | nil => rfl
  | cons top below =>
      simp only [step]
      cases table.lookup top.state token with
      | error error => rfl
      | ok found =>
          cases found with
          | none => rfl
          | some action =>
              cases action with
              | shift target => rfl
              | accept => rfl
              | reduce id =>
                  dsimp only
                  cases table.reduction id (top :: below) <;> rfl

theorem input_of_notAccepted (failed : table.step last = .fail .notAccepted) :
    last.input = [] := by
  rcases fail_cause failed with ⟨empty, _⟩ | ⟨_, same⟩ | ⟨different, _⟩
  · exact empty
  · cases same
  · exact absurd rfl different

/-- A parse that ended before its input did has shifted some tokens and looked at one more;
any input that begins with these is parsed in the same way. -/
theorem Parses.pulled {run : Run} (parses : table.Parses input run)
    (read : run.outcome ≠ .failed .notAccepted) :
    ∃ consumed token, run.last.pulled input = consumed.length + 1 ∧
      input.take (consumed.length + 1) = consumed ++ [token] ∧
      ∀ rest, table.Parses (consumed ++ token :: rest)
        { run with last := { run.last with input := token :: rest } } := by
  have outcome := parses.outcome_eq
  have steps := parses.steps
  have ended := parses.1
  obtain ⟨moves, result, stack, left⟩ := run
  dsimp only at read outcome steps ended ⊢
  cases left with
  | nil => exact absurd outcome read
  | cons token left =>
      obtain ⟨consumed, whole, replaced⟩ := steps.consumed
      simp only [start] at whole
      refine ⟨consumed, token, ?_, ?_, fun rest => ?_⟩
      · rw [whole, Configuration.pulled, List.length_append, List.tail_cons, List.length_cons]
        omega
      · rw [whole, List.take_length_add_append]
        rfl
      · have again := replaced (token :: rest) rfl
        rw [outcome_of_head table stack token left rest] at outcome
        rw [outcome] at ended ⊢
        exact parses_of_steps again ended

theorem parses_run (ended : (table.run limit input).outcome ≠ .unfinished) :
    table.Parses input (table.run limit input) :=
  ⟨ended, limit, rfl⟩

theorem run_of_take (ended : (table.run limit input).outcome ≠ .unfinished)
    (read : (table.run limit input).outcome ≠ .failed .notAccepted) {other : List Token}
    (same : other.take ((table.run limit input).last.pulled input) =
      input.take ((table.run limit input).last.pulled input)) :
    (table.run limit other).moves = (table.run limit input).moves ∧
      (table.run limit other).outcome = (table.run limit input).outcome ∧
      (table.run limit other).last.pulled other = (table.run limit input).last.pulled input := by
  obtain ⟨consumed, token, count, taken, replaced⟩ := (parses_run ended).pulled read
  rw [count, taken] at same
  have whole : other = consumed ++ token :: other.drop (consumed.length + 1) := by
    have halves := List.take_append_drop (consumed.length + 1) other
    rw [same, List.append_assoc] at halves
    exact halves.symm
  rw [whole, (replaced _).run_eq limit (length_lt_of_ended ended), count]
  refine ⟨rfl, rfl, ?_⟩
  rw [Configuration.pulled, List.length_append, List.tail_cons, List.length_cons]
  omega

theorem notAccepted_of_append {more : List Token}
    (failed : (table.run limit (input ++ more)).outcome = .failed .notAccepted) :
    (table.run limit input).outcome = .failed .notAccepted := by
  have longer : table.Parses (input ++ more) (table.run limit (input ++ more)) :=
    parses_run (by rw [failed]; decide)
  by_contra read
  by_cases unfinished : (table.run limit input).outcome = .unfinished
  · -- The longer run would make as many moves as the limit allows.
    have steps := (runFrom_steps table limit (table.start input)).extend more
    have moved := length_of_unfinished unfinished
    have bound := longer.length_le steps
    have short := length_lt_of_ended longer.1
    rw [Table.run] at bound
    omega
  · have begins : (input ++ more).take ((table.run limit input).last.pulled input) =
        input.take ((table.run limit input).last.pulled input) :=
      List.take_append_of_le_length (Nat.sub_le _ _)
    obtain ⟨_, same, _⟩ := run_of_take unfinished read begins
    exact read (same.symm.trans failed)

end Table

namespace Parser

variable {σ : Type}

/-- Input that went on would have been parsed in the same way as far as it came, and from
there on with the stack and the state that the parse left. -/
theorem parse_append (parser : Parser σ) {limit : Nat} {input : List Token}
    (exhausted : (parser.table.run limit input).last.input = []) (more : List Token)
    (extra : Nat) (state : σ) :
    let parse := parser.parse limit input state
    let rest := parser.parseFrom extra { stack := parse.run.last.stack, input := more } parse.state
    let longer := parser.parse (parse.run.moves.length + extra) (input ++ more) state
    longer.run = { rest.run with moves := parse.run.moves ++ rest.run.moves } ∧
      longer.state = rest.state := by
  intro parse rest longer
  have steps := (Table.runFrom_steps parser.table limit (parser.table.start input)).extend more
  rw [← Table.run, exhausted, List.nil_append] at steps
  have run : parse.run = parser.table.run limit input := parser.parse_run limit input state
  have whole : longer.run = { rest.run with moves := parse.run.moves ++ rest.run.moves } := by
    rw [parser.parse_run, parser.parseFrom_run, run]
    exact Table.runFrom_of_steps steps extra
  refine ⟨whole, ?_⟩
  have reductions : longer.run.reductions = parse.run.reductions ++ rest.run.reductions := by
    rw [whole, Run.reductions, List.filterMap_append]
    rfl
  rw [parser.parse_run, parser.parseFrom_run] at reductions
  rw [parser.parse_state, reductions, List.foldl_append, parser.parseFrom_state, run,
    parser.parse_state]

/-- What a parse does is settled by the tokens it pulls. If it ended before its input did, it
does the same on every input that begins with them; if its input ran out, it does the
same at the beginning of every longer one. -/
theorem parse_local (parser : Parser σ) (limit : Nat) (input : List Token) (state : σ) :
    let parse := parser.parse limit input state
    let count := parse.run.last.pulled input
    (parse.run.outcome ≠ .unfinished → parse.run.outcome ≠ .failed .notAccepted →
      0 < count ∧ count ≤ input.length ∧
      ∀ other : List Token, other.take count = input.take count →
        let again := parser.parse limit other state
        again.run.outcome = parse.run.outcome ∧ again.run.moves = parse.run.moves ∧
          again.state = parse.state ∧ again.run.last.pulled other = count) ∧
    (parse.run.outcome = .failed .notAccepted →
      count = input.length ∧
      ∀ more extra,
        let rest :=
          parser.parseFrom extra { stack := parse.run.last.stack, input := more } parse.state
        let longer := parser.parse (parse.run.moves.length + extra) (input ++ more) state
        longer.run = { rest.run with moves := parse.run.moves ++ rest.run.moves } ∧
          longer.state = rest.state) ∧
    ∀ more, (parser.parse limit (input ++ more) state).run.outcome = .failed .notAccepted →
      parse.run.outcome = .failed .notAccepted := by
  intro parse count
  have run : parse.run = parser.table.run limit input := parser.parse_run limit input state
  have counted : count = (parser.table.run limit input).last.pulled input :=
    congrArg (·.last.pulled input) run
  refine ⟨?_, ?_, ?_⟩
  · intro ended read
    rw [run] at ended read
    obtain ⟨consumed, _, pulled, _⟩ := (Table.parses_run ended).pulled read
    refine ⟨by omega, Nat.sub_le _ _, fun other same => ?_⟩
    rw [counted] at same
    obtain ⟨moves, outcome, again⟩ := Table.run_of_take ended read same
    have reductions : (parser.table.run limit other).reductions =
        (parser.table.run limit input).reductions := by
      rw [Run.reductions, moves, Run.reductions]
    intro next
    have otherRun : next.run = parser.table.run limit other := parser.parse_run limit other state
    rw [otherRun, run, counted]
    refine ⟨outcome, moves, ?_, again⟩
    rw [parser.parse_state, parser.parse_state, reductions]
  · intro failed
    rw [run] at failed
    have exhausted := Table.input_of_notAccepted (Table.step_of_failed failed)
    refine ⟨?_, fun more extra => parser.parse_append exhausted more extra state⟩
    rw [counted, Configuration.pulled, Table.run, exhausted]
    rfl
  · intro more failed
    rw [parser.parse_run] at failed
    rw [run]
    exact Table.notAccepted_of_append failed

/-- A number and the end marker are accepted whatever follows, and a number alone begins
longer inputs. -/
theorem parse_local_number :
    let parser : Parser Unit := .ofGrammar .slr Calculator.grammar
    let number := Token.terminal Calculator.numberName
    (∀ more, (parser.parse 20 (number :: .endMarker :: more) ()).run.outcome = .accepted) ∧
      ∀ more, (parser.parse 20 [number] ()).run.moves <+:
        (parser.parse 20 (number :: more) ()).run.moves := by
  intro parser number
  have accepted : (parser.parse 20 [number, .endMarker] ()).run.outcome = .accepted := by
    rw [parser.parse_run]
    decide +kernel
  have pulled : (parser.parse 20 [number, .endMarker] ()).run.last.pulled [number, .endMarker] =
      2 := by
    rw [parser.parse_run]
    decide +kernel
  have failed : (parser.parse 20 [number] ()).run.outcome = .failed .notAccepted := by
    rw [parser.parse_run]
    decide +kernel
  have moved : (parser.parse 20 [number] ()).run.moves.length = 1 := by
    rw [parser.parse_run]
    decide +kernel
  constructor
  · intro more
    obtain ⟨_, _, again⟩ := (parser.parse_local 20 [number, .endMarker] ()).1
      (by rw [accepted]; decide) (by rw [accepted]; decide)
    rw [pulled] at again
    exact (again (number :: .endMarker :: more) rfl).1.trans accepted
  · intro more
    obtain ⟨_, longer⟩ := (parser.parse_local 20 [number] ()).2.1 failed
    have begins := (longer more 19).1
    rw [moved, List.singleton_append] at begins
    rw [begins]
    exact List.prefix_append _ _

end Parser

end ShiftReduce
