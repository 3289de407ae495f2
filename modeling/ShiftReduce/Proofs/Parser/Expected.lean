import ShiftReduce.Proofs.Lookahead.Followed
import ShiftReduce.Proofs.Parser.ErrorPosition
import ShiftReduce.Proofs.Table.Refinement

/-! What an LR(1) parse expects where it fails. The lookaheads of LR(1) items come from
sentences, so every action of a state is on a terminal that goes on with one. In
particular nothing is reduced on a token that is refused later: what was expected
when it came up is still expected in the end. -/

namespace ShiftReduce

namespace Method

variable {g : Grammar} {path : List Symbol} {item : Item} {symbol : Symbol}

theorem Reaches.derives_next {method : Method} (productive : g.Productive)
    (reaches : method.Reaches g path item) {token : Token} (next : item.next? g = some token) :
    ∃ word, g.Derives g.start.symbols (path ++ token.symbol :: word) ∧
      ∀ symbol ∈ word, symbol.isTerminal = true := by
  obtain ⟨more, derives⟩ := reaches.derives
  rw [Item.rest_of_next next, List.map_cons, List.cons_append] at derives
  have declared := derives.declares fun symbol => Grammar.declares_of_mem_symbols g.start_mem
  obtain ⟨word, wordDerived, terminals⟩ := productive.derives fun symbol inside =>
    declared symbol (List.mem_append_right _ (List.mem_cons_of_mem _ inside))
  have front := Grammar.Derives.refl (g := g) (path ++ [token.symbol])
  exact ⟨word, derives.trans (by simpa using front.append wordDerived), terminals⟩

theorem Reaches.derives_lookahead (productive : g.Productive)
    (reaches : Method.lr1.Reaches g path item) (proper : Symbol.endMarker ∉ path)
    (complete : item.next? g = none) (expects : Method.lr1.Expects g item symbol) :
    ∃ word, g.Derives g.start.symbols (path ++ symbol :: word) ∧
      ∀ symbol ∈ word, symbol.isTerminal = true := by
  obtain ⟨after, followed⟩ := reaches.followed productive
  have derives := followed.rightDerives.derives
  have done : item.rest g = [] := List.head?_eq_none_iff.mp complete
  rw [done, List.map_nil, List.nil_append] at derives
  obtain ⟨look, head, looked⟩ := followed.expects
  obtain ⟨carried, carries, _⟩ := reaches.lookahead_lr1
  have same : look = symbol :=
    ((expects_lr1 carries).mp looked).trans ((expects_lr1 carries).mp expects).symm
  cases after with
  | nil =>
      -- Nothing comes after the start rule only, but its end marker is never on a path.
      rw [List.append_nil] at derives
      exact absurd (List.mem_of_getLast? derives.ends_input) proper
  | cons first word =>
      obtain rfl : first = symbol := (Option.some.inj head).trans same
      exact ⟨word, derives, fun other inside => followed.terminals other (by simp [inside])⟩

end Method

namespace Table

variable {g : Grammar} {input rest : List Token} {moves : List Move} {top : Frame}
  {below : List Frame}

/-- An LR(1) state has actions only on terminals that some sentence has after what was
taken. -/
theorem Steps.viable_of_lists (productive : g.Productive)
    (steps : (generate .lr1 g).Steps ((generate .lr1 g).start input) moves
      { stack := top :: below, input := rest })
    (terminals : ∀ token ∈ input, token.isTerminal = true) {symbol : Symbol} {action : Action}
    (lists : (generate .lr1 g).Lists top.state symbol action)
    (terminal : symbol.isTerminal = true) :
    ∃ taken sentence, input = taken ++ rest ∧ g.Sentence sentence ∧
      taken.map Token.symbol ++ [symbol] <+: sentence := by
  have leaves := steps.tracks.leaves
  obtain ⟨_, _, shape, leads⟩ := steps.stacked.leads
  cases shape
  have begins : ∃ word, g.Derives g.start.symbols (spell (top :: below) ++ symbol :: word) ∧
      ∀ symbol ∈ word, symbol.isTerminal = true := by
    obtain ⟨item, reaches, entails⟩ := (lists_iff_reaches leads).mp lists
    cases action with
    | accept =>
        obtain ⟨rfl, accepting⟩ := entails
        obtain ⟨_, token, next, marked⟩ := Item.isAccepting_iff.mp accepting
        rw [← marked]
        exact reaches.derives_next productive next
    | shift target =>
        obtain ⟨token, next, rfl⟩ := Option.map_eq_some_iff.mp entails.2.1
        exact reaches.derives_next productive next
    | reduce rule =>
        exact reaches.derives_lookahead productive leads.endMarker_not_mem entails.2.1 entails.2.2
  obtain ⟨word, derives, wordTerminals⟩ := begins
  have taken := steps.tracks.terminals_taken terminals
  refine ⟨_, _, leaves, steps.sentence taken derives (Grammar.Derives.refl _) ?_, word, by simp⟩
  simpa [terminal] using wordTerminals

theorem Steps.unread_of_refused (settled : (generate .lr1 g).conflicts = [])
    (delimited : g.Delimited) (productive : g.Productive) {token : Token}
    (steps : (generate .lr1 g).Steps ((generate .lr1 g).start input) moves
      { stack := top :: below, input := token :: rest })
    (terminals : ∀ token ∈ input, token.isTerminal = true)
    (found : (generate .lr1 g).lookup top.state token = .ok none) :
    ∃ consumed, input = consumed ++ token :: rest ∧ ∀ other,
      (generate .lr1 g).Steps ((generate .lr1 g).start (consumed ++ other)) moves
        { stack := top :: below, input := other } := by
  rcases steps.last_cases with ⟨_, _, _, _, _, _, earlier, same, reduces⟩ | unread
  · -- A reduction on the token would make it go on with a sentence, but it is refused.
    cases same
    have terminal : token.isTerminal = true := terminals token (by
      rw [steps.tracks.leaves]
      simp)
    obtain ⟨taken, sentence, rfl, derived, begins⟩ :=
      earlier.viable_of_lists productive terminals (lists_of_lookup reduces) terminal
    refine absurd ?_ (steps.refused settled delimited found derived)
    simpa using begins
  · exact unread

/-- Where an LR(1) parse fails, the tokens reported as expected are in increasing order
and are exactly those that some sentence has in this place. -/
theorem expected_exact (delimited : g.Delimited) (productive : g.Productive)
    (settled : (generate .lr1 g).conflicts = [])
    (terminals : ∀ token ∈ input, token.isTerminal = true) (limit : Nat)
    {received : Token} {expected : List Token}
    (failed : ((generate .lr1 g).run limit input).outcome =
      .failed (.unexpectedToken received expected)) :
    ∃ count, ((generate .lr1 g).run limit input).last.pulled input = count + 1 ∧
      Sorted.Increasing Token.cmp expected ∧
      ∀ symbol, symbol ∈ expected.map Token.symbol ↔ ∃ sentence, g.Sentence sentence ∧
        (input.take count).map Token.symbol ++ [symbol] <+: sentence := by
  have steps := runFrom_steps (generate .lr1 g) limit ((generate .lr1 g).start input)
  have ended : (generate .lr1 g).step ((generate .lr1 g).run limit input).last = _ :=
    step_of_failed failed
  rcases steps.stacked.fail_cases ended with
    ⟨_, same⟩ | ⟨_, _, same⟩ | ⟨top, below, token, rest, last, found, same⟩
  · cases same
  · cases same
  cases same
  rw [Table.run, last]
  rw [last] at steps
  obtain ⟨consumed, rfl, unread⟩ :=
    steps.unread_of_refused settled delimited productive terminals found
  have tidy : (generate .lr1 g).Tidy := tidy_ofEntries _ _ _
  refine ⟨consumed.length, ?_, Sorted.ofList_increasing _, ?_⟩
  · simp only [Configuration.pulled, List.length_append, List.length_cons, List.tail_cons]
    omega
  intro symbol
  rw [mem_expectedTokens tidy (indexed_ofEntries _ _ _), List.take_left]
  constructor
  · rintro ⟨terminal, action, lists⟩
    obtain ⟨taken, sentence, same, derived, begins⟩ :=
      steps.viable_of_lists productive terminals lists terminal
    obtain rfl := List.append_cancel_right same
    exact ⟨sentence, derived, begins⟩
  · rintro ⟨sentence, derived, begins⟩
    refine ⟨derived.2 symbol (begins.subset (by simp)), ?_⟩
    by_contra nothing
    have refused : (generate .lr1 g).lookup top.state (Token.plain symbol) = .ok none :=
      lookup_none tidy fun action lists => nothing ⟨action, lists⟩
    refine (unread [Token.plain symbol]).refused settled delimited refused derived ?_
    simpa using begins

/-- After an opened bracket and a number, the calculator expects the bracket to be
closed or an operator, and no sentence goes on in any other way. -/
theorem expected_exact_bracket :
    let number := Token.terminal Calculator.numberName
    let expected := [")", "*", "+", "-", "/"].map Token.terminal
    Sorted.Increasing Token.cmp expected ∧
      ∀ symbol, symbol ∈ expected.map Token.symbol ↔
        ∃ sentence, Calculator.grammar.Sentence sentence ∧
          [.terminal "(", number.symbol, symbol] <+: sentence := by
  intro number expected
  let input := [.terminal "(", number, .endMarker]
  have settled : (generate .lr1 Calculator.grammar).conflicts = [] :=
    conflicts_lr1 (by decide +kernel)
  have failed : ((generate .lr1 Calculator.grammar).run 20 input).outcome =
      .failed (.unexpectedToken .endMarker expected) := by
    decide +kernel
  have pulled : ((generate .lr1 Calculator.grammar).run 20 input).last.pulled input = 3 := by
    decide +kernel
  have terminals : ∀ token ∈ input, token.isTerminal = true := by decide
  obtain ⟨count, same, increasing, expects⟩ := expected_exact Calculator.grammar_delimited
    Calculator.grammar_productive settled terminals 20 failed
  obtain rfl : count = 2 := by omega
  exact ⟨increasing, expects⟩

end Table

end ShiftReduce
