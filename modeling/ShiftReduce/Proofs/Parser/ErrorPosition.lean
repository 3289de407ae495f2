import ShiftReduce.Proofs.Parser.Completeness

/-! Where a parse fails. Without conflicts nothing wrong is ever taken: what was taken
is the beginning of a sentence, and what is refused does not continue it. -/

namespace ShiftReduce

namespace Table

variable {method : Method} {g : Grammar} {input : List Token} {moves : List Move}
  {configuration : Configuration}

theorem Steps.derives_taken
    (steps : (generate method g).Steps ((generate method g).start input) moves configuration) :
    g.Derives (spell configuration.stack)
      ((Tree.yields (Tree.grown moves).reverse).map Token.symbol) := by
  rw [steps.tracks.spell_eq]
  exact Grammar.derives_yields fun tree member =>
    Grammar.derives_yield (steps.valid_grown steps.matched tree (List.mem_reverse.mp member))

theorem Steps.sentence {form word : List Symbol}
    (steps : (generate method g).Steps ((generate method g).start input) moves configuration)
    (terminals : ∀ token ∈ Tree.yields (Tree.grown moves).reverse, token.isTerminal = true)
    (derives : g.Derives g.start.symbols (spell configuration.stack ++ form))
    (wordDerived : g.Derives form word)
    (wordTerminals : ∀ symbol ∈ word, symbol.isTerminal = true) :
    g.Sentence ((Tree.yields (Tree.grown moves).reverse).map Token.symbol ++ word) := by
  refine ⟨derives.trans (steps.derives_taken.append wordDerived), ?_⟩
  intro symbol inside
  rcases List.mem_append.mp inside with front | back
  · obtain ⟨token, member, rfl⟩ := List.mem_map.mp front
    exact terminals token member
  · exact wordTerminals symbol back

theorem Steps.viable (productive : g.Productive)
    (steps : (generate method g).Steps ((generate method g).start input) moves configuration)
    (terminals : ∀ token ∈ Tree.yields (Tree.grown moves).reverse, token.isTerminal = true) :
    ∃ sentence, g.Sentence sentence ∧
      (Tree.yields (Tree.grown moves).reverse).map Token.symbol <+: sentence := by
  obtain ⟨item, reaches⟩ := steps.stacked.reaches
  obtain ⟨more, derives⟩ := reaches.derives
  have declared := derives.declares fun symbol => Grammar.declares_of_mem_symbols g.start_mem
  obtain ⟨word, wordDerived, wordTerminals⟩ := productive.derives fun symbol inside =>
    declared symbol (List.mem_append_right _ inside)
  exact ⟨_, steps.sentence terminals derives wordDerived wordTerminals, List.prefix_append _ _⟩

section Settled

variable (settled : (generate method g).conflicts = []) (delimited : g.Delimited)

include settled delimited

theorem exists_parses_of_sentence (sentence : g.Sentence (input.map Token.symbol)) :
    ∃ run, (generate method g).Parses input run ∧ run.outcome = .accepted := by
  obtain ⟨children, word, marker, valid, rfl, leaves, marked, terminals⟩ := sentence.tree delimited
  obtain ⟨_, _, steps, accepts, _⟩ := accepts_tree settled valid leaves marked terminals []
  exact ⟨_, parses_of_steps steps (by rw [accepts]; decide), by rw [accepts]; rfl⟩

theorem Parses.accepted_of_sentence (sentence : g.Sentence (input.map Token.symbol)) {run : Run}
    (parses : (generate method g).Parses input run) : run.outcome = .accepted := by
  obtain ⟨other, again, accepted⟩ := exists_parses_of_sentence settled delimited sentence
  rw [parses.unique again, accepted]

/-- No sentence goes on with a token that has no action: the run on it would be stuck
in the same place. -/
theorem Steps.refused {consumed rest : List Token} {token : Token} {top : Frame}
    {below : List Frame}
    (steps : (generate method g).Steps ((generate method g).start (consumed ++ token :: rest)) moves
      { stack := top :: below, input := token :: rest })
    (found : (generate method g).lookup top.state token = .ok none) {sentence : List Symbol}
    (derived : g.Sentence sentence) : ¬ (consumed ++ [token]).map Token.symbol <+: sentence := by
  rintro ⟨more, rfl⟩
  obtain ⟨taken, same, replaced⟩ := steps.consumed
  obtain rfl : consumed = taken := List.append_cancel_right same
  let continued := token :: more.map fun symbol => ({ symbol } : Token)
  have again := replaced continued rfl
  have stuck : (generate method g).step { stack := top :: below, input := continued } =
      .fail (.unexpectedToken token ((generate method g).expectedTokens top.state)) := by
    simp only [step, continued, found]
  have parses := parses_of_steps again (by simp [stuck, Step.outcome])
  have accepted := parses.accepted_of_sentence settled delimited
    (by simpa [continued, Function.comp_def] using derived)
  rw [stuck] at accepted
  cases accepted

end Settled

/-- A parse fails at the first token that no sentence has in its place; one that comes
to the end of the input has taken the beginning of a longer sentence. -/
theorem failed_exact (delimited : g.Delimited) (productive : g.Productive)
    (settled : (generate method g).conflicts = [])
    (terminals : ∀ token ∈ input, token.isTerminal = true) (limit : Nat) :
    let run := (generate method g).run limit input
    (∀ token expected, run.outcome = .failed (.unexpectedToken token expected) →
      ∃ count, run.last.pulled input = count + 1 ∧
        (∃ sentence, g.Sentence sentence ∧
          (input.take count).map Token.symbol <+: sentence) ∧
        ∀ sentence, g.Sentence sentence →
          ¬ (input.take (count + 1)).map Token.symbol <+: sentence) ∧
    (run.outcome = .failed .notAccepted → ∃ sentence, g.Sentence sentence ∧
      input.map Token.symbol <+: sentence ∧ input.map Token.symbol ≠ sentence) := by
  intro run
  have steps : (generate method g).Steps ((generate method g).start input) run.moves run.last :=
    runFrom_steps _ limit _
  have leaves := steps.tracks.leaves
  have viable := steps.viable productive fun token member => terminals token (by
    rw [leaves]
    exact List.mem_append_left _ member)
  constructor
  · intro unexpected expected failed
    have ended : (generate method g).step run.last = _ := step_of_failed failed
    rcases steps.stacked.fail_cases ended with
      ⟨_, same⟩ | ⟨_, _, same⟩ | ⟨top, below, token, rest, last, found, _⟩
    · cases same
    · cases same
    · rw [last] at steps leaves
      generalize Tree.yields (Tree.grown run.moves).reverse = consumed at leaves viable
      have front : input.take (consumed.length + 1) = consumed ++ [token] := by
        rw [leaves, List.take_length_add_append]
        rfl
      refine ⟨consumed.length, ?_, ?_, ?_⟩
      · rw [last, leaves, Configuration.pulled, List.length_append, List.length_cons,
          List.tail_cons]
        omega
      · rw [leaves, List.take_left]
        exact viable
      · intro sentence derived
        rw [front]
        rw [leaves] at steps
        exact steps.refused settled delimited found derived
  · intro failed
    have parses : (generate method g).Parses input run :=
      ⟨by rw [failed]; decide, limit, rfl⟩
    have ended : (generate method g).step run.last = _ := step_of_failed failed
    rcases steps.stacked.fail_cases ended with
      ⟨empty, _⟩ | ⟨_, _, same⟩ | ⟨_, _, _, _, _, _, same⟩
    · rw [empty, List.append_nil] at leaves
      rw [← leaves] at viable
      obtain ⟨sentence, derived, begins⟩ := viable
      refine ⟨sentence, derived, begins, ?_⟩
      rintro rfl
      cases failed.symm.trans (parses.accepted_of_sentence settled delimited derived)
    · cases same
    · cases same

/-- A number begins a sentence of the calculator, two numbers do not. -/
theorem failed_exact_numbers :
    let number := Token.terminal Calculator.numberName
    (∃ sentence, Calculator.grammar.Sentence sentence ∧ [number.symbol] <+: sentence) ∧
      ∀ sentence, Calculator.grammar.Sentence sentence →
        ¬ [number.symbol, number.symbol] <+: sentence := by
  intro number
  let input := [number, number, .endMarker]
  have delimited : Calculator.grammar.Delimited :=
    ⟨⟨by decide +kernel, by decide +kernel⟩, by decide +kernel⟩
  have settled : (generate .slr Calculator.grammar).conflicts = [] := by decide +kernel
  have failed : ((generate .slr Calculator.grammar).run 20 input).outcome =
      .failed (.unexpectedToken number [.endMarker, .terminal ")", .terminal "*", .terminal "+",
        .terminal "-", .terminal "/"]) := by
    decide +kernel
  have pulled : ((generate .slr Calculator.grammar).run 20 input).last.pulled input = 2 := by
    decide +kernel
  have terminals : ∀ token ∈ input, token.isTerminal = true := by decide
  obtain ⟨count, same, viable, refused⟩ :=
    (failed_exact delimited Calculator.grammar_productive settled terminals 20).1 _ _ failed
  obtain rfl : count = 1 := by omega
  exact ⟨viable, refused⟩

end Table

end ShiftReduce
