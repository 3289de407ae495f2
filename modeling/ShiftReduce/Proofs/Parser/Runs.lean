import ShiftReduce.Parser.Machine
import ShiftReduce.Proofs.Table.Cells

/-! Runs of the machine as sequences of moves. A parse is a run that ended; it
depends on the input only as far as the input was looked at. -/

namespace ShiftReduce

def Step.outcome : Step → Outcome
  | .move _ _ => .unfinished
  | .accept => .accepted
  | .fail error => .failed error

theorem Step.outcome_eq_accepted {step : Step} : step.outcome = .accepted ↔ step = .accept := by
  cases step <;> simp [outcome]

theorem Step.outcome_eq_failed {step : Step} {error : Error} :
    step.outcome = .failed error ↔ step = .fail error := by
  cases step <;> simp [outcome]

namespace Table

variable {table : Table} {configuration next : Configuration} {move : Move}

/-- The moves of the machine, with the look-ups that lead to them. -/
inductive Transition (table : Table) : Configuration → Move → Configuration → Prop
  | shift {top : Frame} {below : List Frame} {token : Token} {rest : List Token}
      {target : StateId} : table.lookup top.state token = .ok (some (.shift target)) →
      Transition table { stack := top :: below, input := token :: rest } (.shift token target)
        { stack := { state := target, token := some token } :: top :: below, input := rest }
  | reduce {top : Frame} {below : List Frame} {token : Token} {rest : List Token}
      {id : RuleId} {reduction : Reduction} :
      table.lookup top.state token = .ok (some (.reduce id)) →
      table.reduction id (top :: below) = .ok reduction →
      Transition table { stack := top :: below, input := token :: rest }
        (.reduce reduction.rule reduction.arguments reduction.target)
        { stack := { state := reduction.target, token := some reduction.rule.left } ::
            reduction.remaining
          input := token :: rest }

theorem step_of_transition (transition : table.Transition configuration move next) :
    table.step configuration = .move move next := by
  cases transition with
  | shift found => simp only [step, found]
  | reduce found reduced => simp only [step, found, reduced]

theorem transition_of_step (stepped : table.step configuration = .move move next) :
    table.Transition configuration move next := by
  obtain ⟨stack, input⟩ := configuration
  unfold step at stepped
  cases input with
  | nil => cases stepped
  | cons token rest =>
      cases stack with
      | nil => cases stepped
      | cons top below =>
          dsimp only at stepped
          split at stepped
          · cases stepped
          · cases stepped
          · rename_i target found
            cases stepped
            exact Transition.shift found
          · rename_i id found
            split at stepped
            · cases stepped
            · rename_i reduction reduced
              cases stepped
              exact Transition.reduce found reduced
          · cases stepped

theorem accept_of_step (stepped : table.step configuration = .accept) :
    ∃ top below token rest, configuration = { stack := top :: below, input := token :: rest } ∧
      table.lookup top.state token = .ok (some .accept) := by
  obtain ⟨stack, input⟩ := configuration
  unfold step at stepped
  cases input with
  | nil => cases stepped
  | cons token rest =>
      cases stack with
      | nil => cases stepped
      | cons top below =>
          dsimp only at stepped
          split at stepped
          · cases stepped
          · cases stepped
          · cases stepped
          · split at stepped <;> cases stepped
          · rename_i found
            exact ⟨top, below, token, rest, rfl, found⟩

theorem fail_of_step {error : Error} (stepped : table.step configuration = .fail error) :
    configuration.input = [] ∧ error = .notAccepted ∨
      configuration.stack = [] ∧ error = .inconsistentTable .emptyStack ∨
      ∃ top below token rest, configuration = { stack := top :: below, input := token :: rest } ∧
        (table.lookup top.state token = .error error ∨
          table.lookup top.state token = .ok none ∧
            error = .unexpectedToken token (table.expectedTokens top.state) ∨
          ∃ id, table.lookup top.state token = .ok (some (.reduce id)) ∧
            table.reduction id (top :: below) = .error error) := by
  obtain ⟨stack, input⟩ := configuration
  unfold step at stepped
  cases input with
  | nil =>
      cases stepped
      exact Or.inl ⟨rfl, rfl⟩
  | cons token rest =>
      cases stack with
      | nil =>
          cases stepped
          exact Or.inr (Or.inl ⟨rfl, rfl⟩)
      | cons top below =>
          refine Or.inr (Or.inr ⟨top, below, token, rest, rfl, ?_⟩)
          dsimp only at stepped
          split at stepped
          · rename_i found
            cases stepped
            exact Or.inl found
          · rename_i found
            cases stepped
            exact Or.inr (Or.inl ⟨found, rfl⟩)
          · cases stepped
          · rename_i id found
            split at stepped
            · rename_i reduced
              cases stepped
              exact Or.inr (Or.inr ⟨id, found, reduced⟩)
            · cases stepped
          · cases stepped

theorem reduction_eq_ok {id : RuleId} {stack : List Frame} {reduction : Reduction}
    (reduced : table.reduction id stack = .ok reduction) :
    table.rule? id = some reduction.rule ∧
      reduction.rule.production.length < stack.length ∧
      reduction.remaining = stack.drop reduction.rule.production.length ∧
      reduction.arguments =
        (stack.take reduction.rule.production.length).reverse.filterMap Frame.token ∧
      ∃ uncovered below, reduction.remaining = uncovered :: below ∧
        table.lookup uncovered.state reduction.rule.left =
          .ok (some (.shift reduction.target)) := by
  unfold Table.reduction at reduced
  split at reduced
  · cases reduced
  · rename_i rule known
    dsimp only at reduced
    split at reduced
    · cases reduced
    · rename_i long
      split at reduced
      · cases reduced
      · rename_i uncovered below shape
        split at reduced
        · cases reduced
        · rename_i target found
          cases reduced
          exact ⟨known, Nat.lt_of_not_le long, shape.symm, rfl, uncovered, below, rfl, found⟩
        · cases reduced

theorem reduction_eq_error {id : RuleId} {stack : List Frame} {error : Error}
    (failed : table.reduction id stack = .error error) :
    (∃ fault, error = .inconsistentTable fault ∧ fault ≠ .emptyStack) ∨
      ∃ token actions, error = .unresolvableConflict token actions := by
  unfold Table.reduction at failed
  split at failed
  · cases failed
    exact Or.inl ⟨_, rfl, by simp⟩
  · rename_i rule known
    dsimp only at failed
    split at failed
    · cases failed
      exact Or.inl ⟨_, rfl, by simp⟩
    · rename_i long
      split at failed
      · rename_i nothing
        exact absurd (List.drop_eq_nil_iff.mp nothing) long
      · split at failed
        · rename_i conflict
          cases failed
          exact Or.inr (conflict_of_lookup_error conflict)
        · cases failed
        · cases failed
          exact Or.inl ⟨_, rfl, by simp⟩

/-- The end of the input and an empty stack are each reported by one error of their own. -/
theorem fail_cause {error : Error} (stepped : table.step configuration = .fail error) :
    configuration.input = [] ∧ error = .notAccepted ∨
      configuration.stack = [] ∧ error = .inconsistentTable .emptyStack ∨
      error ≠ .notAccepted ∧ error ≠ .inconsistentTable .emptyStack := by
  rcases fail_of_step stepped with ended | empty | ⟨_, _, _, _, _, cause⟩
  · exact Or.inl ended
  · exact Or.inr (Or.inl empty)
  · refine Or.inr (Or.inr ?_)
    rcases cause with conflict | ⟨_, rfl⟩ | ⟨_, _, refused⟩
    · obtain ⟨_, _, rfl⟩ := conflict_of_lookup_error conflict
      simp
    · simp
    · rcases reduction_eq_error refused with ⟨fault, rfl, filled⟩ | ⟨_, _, rfl⟩
      · simpa using filled
      · simp

theorem reduction_of_goto {id : RuleId} {stack below : List Frame} {rule : Rule}
    {uncovered : Frame} {target : StateId} (known : table.rule? id = some rule)
    (shape : stack.drop rule.production.length = uncovered :: below)
    (found : table.lookup uncovered.state rule.left = .ok (some (.shift target))) :
    table.reduction id stack = .ok {
      rule
      arguments := (stack.take rule.production.length).reverse.filterMap Frame.token
      target
      remaining := uncovered :: below } := by
  have long : ¬ stack.length ≤ rule.production.length := by
    intro short
    rw [List.drop_eq_nil_of_le short] at shape
    cases shape
  simp only [reduction, known, long, if_false, shape, found]

/-- The configurations that moves lead to from a first one. -/
inductive Steps (table : Table) (first : Configuration) : List Move → Configuration → Prop
  | refl : Steps table first [] first
  | move {moves : List Move} {configuration next : Configuration} {move : Move} :
      Steps table first moves configuration → table.Transition configuration move next →
      Steps table first (moves ++ [move]) next

section Steps

variable {first second last : Configuration} {moves more : List Move}

theorem Steps.single (transition : table.Transition first move second) :
    table.Steps first [move] second :=
  Steps.refl.move transition

theorem Steps.trans (front : table.Steps first moves second)
    (back : table.Steps second more last) : table.Steps first (moves ++ more) last := by
  induction back with
  | refl =>
      rw [List.append_nil]
      exact front
  | move _ transition ih =>
      rw [← List.append_assoc]
      exact ih.move transition

theorem runFrom_steps (table : Table) (limit : Nat) (first : Configuration) :
    table.Steps first (table.runFrom limit first).moves (table.runFrom limit first).last := by
  induction limit generalizing first with
  | zero => exact Steps.refl
  | succ limit ih =>
      simp only [runFrom]
      cases stepped : table.step first with
      | accept => exact Steps.refl
      | fail error => exact Steps.refl
      | move move next => exact (Steps.single (transition_of_step stepped)).trans (ih next)

theorem runFrom_outcome (table : Table) (limit : Nat) (first : Configuration) :
    (table.runFrom limit first).outcome = .unfinished ∨
      (table.runFrom limit first).outcome =
        (table.step (table.runFrom limit first).last).outcome := by
  induction limit generalizing first with
  | zero => exact Or.inl rfl
  | succ limit ih =>
      simp only [runFrom]
      cases stepped : table.step first with
      | accept => exact Or.inr (by rw [stepped]; rfl)
      | fail error => exact Or.inr (by rw [stepped]; rfl)
      | move move next => exact ih next

theorem step_of_accepted {limit : Nat}
    (accepted : (table.runFrom limit first).outcome = .accepted) :
    table.step (table.runFrom limit first).last = .accept := by
  rcases runFrom_outcome table limit first with unfinished | ended
  · cases accepted.symm.trans unfinished
  · exact Step.outcome_eq_accepted.mp (ended.symm.trans accepted)

theorem step_of_failed {limit : Nat} {error : Error}
    (failed : (table.runFrom limit first).outcome = .failed error) :
    table.step (table.runFrom limit first).last = .fail error := by
  rcases runFrom_outcome table limit first with unfinished | ended
  · cases failed.symm.trans unfinished
  · exact Step.outcome_eq_failed.mp (ended.symm.trans failed)

theorem runFrom_of_steps (steps : table.Steps first moves last) (limit : Nat) :
    table.runFrom (moves.length + limit) first =
      { table.runFrom limit last with moves := moves ++ (table.runFrom limit last).moves } := by
  induction steps generalizing limit with
  | refl => simp
  | @move moves configuration next move _ transition ih =>
      have split : (moves ++ [move]).length + limit = moves.length + (limit + 1) := by
        simp only [List.length_append, List.length_singleton]
        omega
      rw [split, ih (limit + 1)]
      simp [runFrom, step_of_transition transition]

/-- Moves look at no more of the input than they take and the token after it. -/
theorem Steps.consumed (steps : table.Steps first moves last) :
    ∃ consumed, first.input = consumed ++ last.input ∧
      ∀ input, input.head? = last.input.head? →
        table.Steps { first with input := consumed ++ input } moves { last with input } := by
  induction steps with
  | refl => exact ⟨[], rfl, fun input _ => Steps.refl⟩
  | move _ transition ih =>
      obtain ⟨consumed, taken, replaced⟩ := ih
      cases transition with
      | @shift top below token rest target found =>
          refine ⟨consumed ++ [token], by simpa using taken, ?_⟩
          intro input _
          have before := replaced (token :: input) rfl
          rw [List.append_assoc]
          exact before.move (Transition.shift found)
      | reduce found reduced =>
          refine ⟨consumed, taken, ?_⟩
          intro input same
          obtain ⟨more, rfl⟩ := List.head?_eq_some_iff.mp same
          exact (replaced _ same).move (Transition.reduce found reduced)

/-- Unless the last move was a reduction, what comes next has not been looked at. -/
theorem Steps.last_cases (steps : table.Steps first moves last) :
    (∃ earlier top below token rest id,
      table.Steps first earlier { stack := top :: below, input := token :: rest } ∧
      last.input = token :: rest ∧ table.lookup top.state token = .ok (some (.reduce id))) ∨
    ∃ consumed, first.input = consumed ++ last.input ∧
      ∀ input, table.Steps { first with input := consumed ++ input } moves { last with input } := by
  cases steps with
  | refl => exact Or.inr ⟨[], rfl, fun _ => Steps.refl⟩
  | move steps transition =>
      cases transition with
      | reduce found _ => exact Or.inl ⟨_, _, _, _, _, _, steps, rfl, found⟩
      | @shift top below token rest target found =>
          obtain ⟨consumed, taken, replaced⟩ := steps.consumed
          refine Or.inr ⟨consumed ++ [token], by simpa using taken, ?_⟩
          intro input
          rw [List.append_assoc]
          exact (replaced (token :: input) rfl).move (Transition.shift found)

end Steps

/-- The run on an input, when it comes to an end. -/
def Parses (table : Table) (input : List Token) (run : Run) : Prop :=
  run.outcome ≠ .unfinished ∧ ∃ limit, table.run limit input = run

section Parses

variable {input : List Token} {run other : Run}

theorem Parses.steps (parses : table.Parses input run) :
    table.Steps (table.start input) run.moves run.last := by
  obtain ⟨_, limit, rfl⟩ := parses
  exact runFrom_steps table limit (table.start input)

theorem Parses.outcome_eq (parses : table.Parses input run) :
    run.outcome = (table.step run.last).outcome := by
  obtain ⟨ended, limit, rfl⟩ := parses
  exact (runFrom_outcome table limit (table.start input)).resolve_left ended

theorem Parses.run_eq (parses : table.Parses input run) (limit : Nat)
    (enough : run.moves.length < limit) : table.run limit input = run := by
  obtain ⟨extra, rfl⟩ := Nat.exists_eq_add_of_lt enough
  have ended := parses.1
  rw [parses.outcome_eq] at ended
  rw [Table.run, Nat.add_assoc, runFrom_of_steps parses.steps]
  obtain ⟨moves, outcome, last⟩ := run
  have same := parses.outcome_eq
  dsimp only at ended same ⊢
  simp only [runFrom]
  cases stepped : table.step last with
  | move move next => exact absurd (by rw [stepped]; rfl) ended
  | accept => simp [same, stepped, Step.outcome]
  | fail error => simp [same, stepped, Step.outcome]

theorem Parses.unique (parses : table.Parses input run) (again : table.Parses input other) :
    run = other := by
  have first := parses.run_eq (run.moves.length + other.moves.length + 1) (by omega)
  have second := again.run_eq (run.moves.length + other.moves.length + 1) (by omega)
  exact first.symm.trans second

theorem parses_of_steps {moves : List Move} {last : Configuration}
    (steps : table.Steps (table.start input) moves last)
    (ended : (table.step last).outcome ≠ .unfinished) :
    table.Parses input { moves, outcome := (table.step last).outcome, last } := by
  refine ⟨ended, moves.length + 1, ?_⟩
  rw [Table.run, runFrom_of_steps steps 1]
  simp only [runFrom]
  cases stepped : table.step last with
  | move move next => exact absurd (by rw [stepped]; rfl) ended
  | accept => simp [Step.outcome]
  | fail error => simp [Step.outcome]

theorem Parses.length_le {moves : List Move} {configuration : Configuration}
    (parses : table.Parses input run)
    (steps : table.Steps (table.start input) moves configuration) :
    moves.length ≤ run.moves.length := by
  have whole := parses.run_eq (moves.length + (run.moves.length + 1)) (by omega)
  rw [Table.run, runFrom_of_steps steps] at whole
  rw [← whole, List.length_append]
  omega

theorem length_of_unfinished {limit : Nat} {first : Configuration}
    (unfinished : (table.runFrom limit first).outcome = .unfinished) :
    (table.runFrom limit first).moves.length = limit := by
  induction limit generalizing first with
  | zero => rfl
  | succ limit ih =>
      simp only [runFrom] at unfinished ⊢
      cases stepped : table.step first with
      | accept => simp [stepped] at unfinished
      | fail error => simp [stepped] at unfinished
      | move move next =>
          rw [stepped] at unfinished
          rw [List.length_cons, ih unfinished]

theorem length_lt_of_ended {limit : Nat} {first : Configuration}
    (ended : (table.runFrom limit first).outcome ≠ .unfinished) :
    (table.runFrom limit first).moves.length < limit := by
  induction limit generalizing first with
  | zero => exact absurd rfl ended
  | succ limit ih =>
      simp only [runFrom] at ended ⊢
      cases stepped : table.step first with
      | accept => simp
      | fail error => simp
      | move move next =>
          rw [stepped] at ended
          exact Nat.succ_lt_succ (ih ended)

theorem exists_parses_of_bound {bound : Nat} (bounded : ∀ moves configuration,
    table.Steps (table.start input) moves configuration → moves.length ≤ bound) :
    ∃ run, table.Parses input run := by
  refine ⟨table.run (bound + 1) input, ?_, bound + 1, rfl⟩
  intro unfinished
  have long := length_of_unfinished unfinished
  have short := bounded _ _ (runFrom_steps table (bound + 1) (table.start input))
  omega

end Parses

end Table

end ShiftReduce
