import Mathlib.Data.Finset.Prod
import ShiftReduce.Proofs.Lookahead.Followed
import ShiftReduce.Proofs.Parser.ErrorPosition

/-! Parsing terminates without conflicts. Whatever a run has done after taking some
tokens is also done on the way through a sentence that begins with them. On a
sentence the run ends, and up to its next token that run depends on this token
alone. There are only so many tokens, so the number of moves is bounded. -/

namespace ShiftReduce

/-- Parse trees with the given symbols for roots and terminals for leaves. -/
structure Tree.Expands (g : Grammar) (trees : List Tree) (symbols : List Symbol) : Prop where
  roots : trees.map (·.root.symbol) = symbols
  valid : ∀ tree ∈ trees, tree.Valid g
  terminals : ∀ token ∈ Tree.yields trees, token.isTerminal = true

theorem Grammar.Derives.expands {g : Grammar} {form word : List Symbol}
    (derives : g.Derives form word) (terminals : ∀ symbol ∈ word, symbol.isTerminal = true) :
    ∃ trees, Tree.Expands g trees form ∧ Tree.yields trees = word.map Token.plain := by
  obtain ⟨trees, valid, roots, leaves⟩ := derives.plainForest
  exact ⟨trees, ⟨roots, valid, by simpa [leaves, Token.isTerminal] using terminals⟩, leaves⟩

theorem Tree.Expands.cons {g : Grammar} {tree : Tree} {trees : List Tree} {symbols : List Symbol}
    (valid : tree.Valid g) (terminals : ∀ token ∈ tree.yield, token.isTerminal = true)
    (rest : Expands g trees symbols) : Expands g (tree :: trees) (tree.root.symbol :: symbols) := by
  refine ⟨by rw [List.map_cons, rest.roots], ?_, ?_⟩
  · intro other inside
    rcases List.mem_cons.mp inside with rfl | later
    · exact valid
    · exact rest.valid other later
  · intro leaf inside
    rcases List.mem_append.mp inside with early | late
    · exact terminals leaf early
    · exact rest.terminals leaf late

theorem Tree.Expands.concat_cases {g : Grammar} {trees : List Tree} {symbols : List Symbol}
    {symbol : Symbol} (expands : Expands g trees (symbols ++ [symbol])) :
    ∃ front last, trees = front ++ [last] ∧ Expands g front symbols ∧
      last.root.symbol = symbol ∧ last.Valid g ∧ ∀ token ∈ last.yield, token.isTerminal = true := by
  obtain ⟨front, tail, rfl, frontRoots, tailRoots⟩ := List.map_eq_append_iff.mp expands.roots
  obtain ⟨last, rfl, root⟩ := List.map_eq_singleton_iff.mp tailRoots
  have terminals := expands.terminals
  rw [Tree.yields_append] at terminals
  refine ⟨front, last, rfl, ⟨frontRoots, ?_, ?_⟩, root, expands.valid last (by simp), ?_⟩
  · exact fun tree inside => expands.valid tree (by simp [inside])
  · exact fun leaf inside => terminals leaf (List.mem_append_left _ inside)
  · exact fun leaf inside => terminals leaf (by simp [Tree.yields, inside])

namespace Table

variable {method : Method} {g : Grammar} {path after : List Symbol} {item : Item}
  {input : List Token} {moves : List Move} {configuration : Configuration}

theorem awaits_of_followed (followed : method.Followed g path item after) (later : List Tree) :
    method.Awaits g item later
      (Tree.yields later ++ (after ++ [Symbol.endMarker]).map Token.plain) := by
  obtain ⟨look, head, expects⟩ := followed.expects
  have bare : method.Awaits g item [] ((after ++ [Symbol.endMarker]).map Token.plain) := by
    refine ⟨look, expects, ?_⟩
    rw [← List.head?_map, Token.map_symbol_plain, head]
    rfl
  simpa using bare.before later

section Settled

variable (settled : (generate method g).conflicts = [])

include settled

/-- The machine comes to any forest over a path, given the rest of a sentence. -/
theorem replays (followed : method.Followed g path item after) {trees later : List Tree}
    (front : Tree.Expands g trees path)
    (unmarked : ∀ token ∈ Tree.yields trees, token.symbol ≠ .endMarker)
    (back : Tree.Expands g later ((item.rest g).map Token.symbol)) :
    let following := Tree.yields later ++ (after ++ [Symbol.endMarker]).map Token.plain
    ∃ moves stack, (generate method g).Steps
        ((generate method g).start (Tree.yields trees ++ following)) moves
        { stack, input := following } ∧
      Ready method g stack item [] later following ∧ Tree.grown moves = trees.reverse := by
  induction followed generalizing trees later with
  | initial =>
      obtain rfl := List.map_eq_nil_iff.mp front.roots
      refine ⟨[], _, Steps.refl, ?_, rfl⟩
      refine ⟨Stacked.bottom, Method.Reaches.initial, back.roots, back.valid, back.terminals,
        by simp [Tree.yields], ?_⟩
      exact awaits_of_followed Method.Followed.initial later
  | @expand path after word item child look followed member derives terminals head expects ih =>
      obtain ⟨dot, rule, ruleMember, known, token, next, left⟩ := Method.expand_rule? member
      obtain ⟨more, expanded, moreLeaves⟩ := derives.expands terminals
      -- What is left of the child is a tree for the parent, and more trees come after it.
      have symbols := back.roots
      rw [Item.rest_symbols known, dot, List.drop_zero] at symbols
      have whole : Tree.Expands g (Tree.node rule later :: more)
          ((item.rest g).map Token.symbol) := by
        rw [Item.rest_of_next next, List.map_cons, left]
        exact expanded.cons (Tree.Valid.node ruleMember symbols back.valid) back.terminals
      have same : Tree.yields (Tree.node rule later :: more) ++
          (after ++ [Symbol.endMarker]).map Token.plain =
          Tree.yields later ++ (word ++ after ++ [Symbol.endMarker]).map Token.plain := by
        simp [Tree.yields, Tree.yield, moreLeaves]
      obtain ⟨moves, stack, steps, ready, grown⟩ := ih front unmarked whole
      rw [same] at steps
      refine ⟨moves, stack, steps, ⟨ready.stacked, ready.reaches.expand member, back.roots,
        back.valid, back.terminals, by simp [Tree.yields], ?_⟩, grown⟩
      exact awaits_of_followed (followed.expand member derives terminals head expects) later
  | @advance path after item token followed next ih =>
      obtain ⟨earlier, tree, rfl, before, root, valid, terminals⟩ := front.concat_cases
      have leaves : Tree.yields (earlier ++ [tree]) = Tree.yields earlier ++ tree.yield := by
        simp [Tree.yields]
      rw [leaves] at unmarked
      have whole : Tree.Expands g (tree :: later) ((item.rest g).map Token.symbol) := by
        rw [Item.rest_of_next next, List.map_cons, ← root]
        exact back.cons valid terminals
      obtain ⟨moves, stack, steps, ready, grown⟩ :=
        ih before (fun leaf inside => unmarked leaf (List.mem_append_left _ inside)) whole
      -- The tree is the first one after the dot, so the machine follows it from here.
      have shown : Ready method g stack item [tree] later
          (Tree.yields later ++ (after ++ [Symbol.endMarker]).map Token.plain) := by
        refine { ready with unmarked := ?_, awaits := awaits_of_followed followed later }
        intro leaf inside
        exact unmarked leaf (List.mem_append_right _ (by simpa [Tree.yields] using inside))
      obtain ⟨more, last, moreSteps, _, done, grows⟩ :=
        follows_valid settled valid _ _ _ _ shown
      refine ⟨moves ++ more, last, ?_, done, ?_⟩
      · have joined : Tree.yields (tree :: later) ++
            (after ++ [Symbol.endMarker]).map Token.plain = Tree.yields [tree] ++
              (Tree.yields later ++ (after ++ [Symbol.endMarker]).map Token.plain) := by
          simp [Tree.yields]
        rw [joined] at steps
        have run := steps.trans moreSteps
        rw [leaves]
        simpa [Tree.yields] using run
      · rw [Tree.grown, List.foldl_append, grows, ← Tree.grown, grown]
        simp

end Settled

theorem Steps.unmarked
    (steps : (generate method g).Steps ((generate method g).start input) moves configuration) :
    ∀ token ∈ Tree.yields (Tree.grown moves).reverse, token.symbol ≠ .endMarker := by
  induction steps with
  | refl => simp [Tree.grown, Tree.yields]
  | @move moves configuration next move steps transition ih =>
      have before := steps.tracks.leaves
      have after := (steps.tracks.transition transition).leaves
      cases transition with
      | @shift top below token rest target found =>
          obtain ⟨_, _, shape, leads⟩ := steps.stacked.leads
          cases shape
          obtain ⟨_, _, _, _, edge⟩ := (lists_iff_reaches leads).mp (lists_of_lookup found)
          have taken : Tree.yields (Tree.grown (moves ++ [.shift token target])).reverse =
              Tree.yields (Tree.grown moves).reverse ++ [token] := by
            rw [Tree.grown_append]
            simp [Tree.grow, Tree.yields, Tree.yield]
          intro leaf inside
          rw [taken] at inside
          rcases List.mem_append.mp inside with early | last
          · exact ih leaf early
          · rw [List.mem_singleton.mp last]
            exact (Automaton.target?_spec edge).1
      | reduce found reduced =>
          have taken := List.append_cancel_right (before.symm.trans after)
          rw [← taken]
          exact ih

/-- After what a run has taken, some sentence goes on with a symbol, and the machine
makes as many moves when it sees this symbol next. -/
theorem Steps.replayed (settled : (generate method g).conflicts = []) (productive : g.Productive)
    (steps : (generate method g).Steps ((generate method g).start input) moves configuration)
    (terminals : ∀ token ∈ input, token.isTerminal = true) :
    ∃ taken symbol more, input = taken ++ configuration.input ∧
      g.Sentence (taken.map Token.symbol ++ symbol :: more) ∧
      ∃ others stack rest, (generate method g).Steps
          ((generate method g).start (taken ++ Token.plain symbol :: rest)) others
          { stack, input := Token.plain symbol :: rest } ∧
        others.length = moves.length := by
  have taken := steps.tracks.terminals_taken terminals
  have unmarked := steps.unmarked
  obtain ⟨item, reaches⟩ := steps.stacked.reaches
  obtain ⟨after, followed⟩ := reaches.followed productive
  obtain ⟨rule, ruleMember, known, _⟩ := reaches.rule?
  obtain ⟨word, wordDerived, wordTerminals⟩ :=
    productive.derives (Item.rest_declared ruleMember known)
  obtain ⟨later, back, laterLeaves⟩ := wordDerived.expands wordTerminals
  have front : Tree.Expands g (Tree.grown moves).reverse (spell configuration.stack) :=
    ⟨steps.tracks.spell_eq.symm, fun tree inside =>
      steps.valid_grown steps.matched tree (List.mem_reverse.mp inside), taken⟩
  obtain ⟨others, stack, otherSteps, _, grown⟩ := replays settled followed front unmarked back
  have sentence := steps.sentence taken followed.rightDerives.derives
    (wordDerived.append (Grammar.Derives.refl after)) (by
      intro symbol inside
      rcases List.mem_append.mp inside with early | late
      · exact wordTerminals symbol early
      · exact followed.terminals symbol late)
  cases rest : word ++ after with
  | nil =>
      rw [rest, List.append_nil] at sentence
      obtain ⟨token, member, marked⟩ :=
        List.mem_map.mp (List.mem_of_getLast? sentence.1.ends_input)
      exact absurd marked (unmarked token member)
  | cons symbol more =>
      rw [rest] at sentence
      have following : Tree.yields later ++ (after ++ [Symbol.endMarker]).map Token.plain =
          Token.plain symbol :: (more ++ [Symbol.endMarker]).map Token.plain := by
        rw [laterLeaves, ← List.map_append, ← List.append_assoc, rest]
        rfl
      rw [following] at otherSteps
      refine ⟨_, symbol, more, steps.tracks.leaves, sentence, others, stack, _, otherSteps, ?_⟩
      rw [otherSteps.length_eq, steps.length_eq, grown, List.reverse_reverse]

section Bound

variable (delimited : g.Delimited) (settled : (generate method g).conflicts = [])

include delimited settled

theorem exists_bound_before (taken : List Token) (symbol : Symbol) :
    ∃ bound, ∀ more, g.Sentence (taken.map Token.symbol ++ symbol :: more) →
      ∀ moves stack rest, (generate method g).Steps
          ((generate method g).start (taken ++ Token.plain symbol :: rest)) moves
          { stack, input := Token.plain symbol :: rest } →
        moves.length ≤ bound := by
  by_cases viable : ∃ more, g.Sentence (taken.map Token.symbol ++ symbol :: more)
  · obtain ⟨more, sentence⟩ := viable
    have whole : g.Sentence ((taken ++ (symbol :: more).map Token.plain).map Token.symbol) := by
      rw [List.map_append, Token.map_symbol_plain]
      exact sentence
    obtain ⟨run, parses, _⟩ := exists_parses_of_sentence settled delimited whole
    -- Any run that has taken the same and sees the same symbol is a part of this one.
    refine ⟨run.moves.length, ?_⟩
    intro _ _ moves stack rest steps
    obtain ⟨consumed, same, replaced⟩ := steps.consumed
    obtain rfl : taken = consumed := List.append_cancel_right same
    exact parses.length_le (replaced ((symbol :: more).map Token.plain) rfl)
  · exact ⟨0, fun more sentence => absurd ⟨more, sentence⟩ viable⟩

theorem exists_bound (productive : g.Productive)
    (terminals : ∀ token ∈ input, token.isTerminal = true) :
    ∃ bound, ∀ moves configuration,
      (generate method g).Steps ((generate method g).start input) moves configuration →
        moves.length ≤ bound := by
  choose bound bounded using exists_bound_before delimited settled
  let places := Finset.range (input.length + 1) ×ˢ (g.tokens.map Token.symbol).toFinset
  refine ⟨places.sup fun place => bound (input.take place.1) place.2, ?_⟩
  intro moves configuration steps
  obtain ⟨taken, symbol, more, leaves, sentence, others, stack, rest, otherSteps, same⟩ :=
    steps.replayed settled productive terminals
  have taking : input.take taken.length = taken := by rw [leaves, List.take_left]
  have declared := sentence.1.declares (fun _ => Grammar.declares_of_mem_symbols g.start_mem)
    symbol (by simp)
  have place : (taken.length, symbol) ∈ places := by
    refine Finset.mem_product.mpr ⟨Finset.mem_range.mpr ?_, List.mem_toFinset.mpr declared.1⟩
    rw [leaves, List.length_append]
    omega
  calc
    moves.length = others.length := same.symm
    _ ≤ bound taken symbol := bounded taken symbol more sentence others stack rest otherSteps
    _ = bound (input.take taken.length) symbol := by rw [taking]
    _ ≤ places.sup fun place => bound (input.take place.1) place.2 :=
      Finset.le_sup (f := fun place => bound (input.take place.1) place.2) place

end Bound

/-- Without conflicts a run makes a bounded number of moves on terminals and ends with
acceptance or an error. -/
theorem run_terminates (delimited : g.Delimited) (productive : g.Productive)
    (settled : (generate method g).conflicts = [])
    (terminals : ∀ token ∈ input, token.isTerminal = true) :
    (∃ bound, ∀ moves configuration,
      (generate method g).Steps ((generate method g).start input) moves configuration →
        moves.length ≤ bound) ∧
    ∃ run, (generate method g).Parses input run ∧
      (run.outcome = .accepted ∨ ∃ error, run.outcome = .failed error) := by
  obtain ⟨bound, bounded⟩ := exists_bound delimited settled productive terminals
  obtain ⟨run, parses⟩ := exists_parses_of_bound bounded
  refine ⟨⟨bound, bounded⟩, run, parses, ?_⟩
  cases outcome : run.outcome with
  | accepted => exact Or.inl rfl
  | failed error => exact Or.inr ⟨error, rfl⟩
  | unfinished => exact absurd outcome parses.1

/-- Two numbers in brackets that are never closed: the calculator stops. -/
theorem run_terminates_numbers :
    let number := Token.terminal Calculator.numberName
    ∃ run, (generate .slr Calculator.grammar).Parses [.terminal "(", number, number] run ∧
      (run.outcome = .accepted ∨ ∃ error, run.outcome = .failed error) := by
  intro number
  have settled : (generate .slr Calculator.grammar).conflicts = [] := by decide +kernel
  have terminals : ∀ token ∈ [.terminal "(", number, number], token.isTerminal = true := by decide
  exact (run_terminates Calculator.grammar_delimited Calculator.grammar_productive settled
    terminals).2

end Table

end ShiftReduce
