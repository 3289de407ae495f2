import ShiftReduce.Calculator.Basic
import ShiftReduce.Proofs.Parser.Consistency
import ShiftReduce.Proofs.Table.Acceptance

/-! Soundness: what a generated table accepts has a parse tree, whose inner nodes
below the root are the reductions made. Conflicts do not matter for it. -/

namespace ShiftReduce

namespace Table

variable {method : Method} {g : Grammar} {limit : Nat} {input : List Token}

/-- An accepted run has taken the input up to an end marker and has built the parse
tree of it, the root excepted. -/
theorem accepted_sound (augmented : g.Augmented)
    (accepted : ((generate method g).run limit input).outcome = .accepted) :
    let run := (generate method g).run limit input
    let count := run.last.pulled input
    0 < count ∧ input[count - 1]?.map Token.symbol = some .endMarker ∧
      ∃ children, (Tree.node g.start children).Valid g ∧
        (Tree.node g.start children).yield = input.take count ∧
        (Tree.node g.start children).reductions =
          run.reductions ++ [(g.start, children.map Tree.root)] := by
  intro run count
  have steps : (generate method g).Steps ((generate method g).start input) run.moves run.last :=
    runFrom_steps _ limit _
  have ended : (generate method g).step run.last = .accept := step_of_accepted accepted
  obtain ⟨top, below, token, rest, last, found⟩ := accept_of_step ended
  have tracks := steps.tracks
  have stacked := steps.stacked
  have spelled := tracks.spell_eq
  have leaves := tracks.leaves
  rw [last] at stacked spelled leaves
  obtain ⟨_, _, shape, leads⟩ := stacked.leads
  cases shape
  obtain ⟨item, reaches, marker, accepting⟩ := (lists_iff_reaches leads).mp (lists_of_lookup found)
  have path := reaches.path_of_accepting augmented accepting
  have pulled : count = (Tree.yields (Tree.grown run.moves).reverse).length + 1 := by
    have lengths := congrArg List.length leaves
    rw [List.length_append, List.length_cons] at lengths
    change run.last.pulled input = _
    rw [last, Configuration.pulled, List.tail_cons, lengths]
    omega
  refine ⟨by omega, ?_, (Tree.grown run.moves).reverse ++ [.leaf token], ?_, ?_, ?_⟩
  · rw [pulled, leaves]
    simpa using marker
  · refine Tree.Valid.node g.start_mem ?_ ?_
    · rw [List.map_append, ← spelled, ← path, List.map_singleton, Tree.root_leaf, marker]
    · intro child member
      rcases List.mem_append.mp member with inner | single
      · exact steps.valid_grown steps.matched child (List.mem_reverse.mp inner)
      · rw [List.mem_singleton.mp single]
        exact Tree.Valid.leaf token
  · rw [pulled, leaves]
    simp [Tree.yield, Tree.yields, List.take_append]
  · rw [Run.reductions, tracks.inner]
    simp [Tree.reductions, Tree.forestReductions]

/-- The sum of two numbers, with a third one after the end marker. -/
theorem accepted_sound_sum :
    let number := Token.terminal Calculator.numberName
    ∃ children, (Tree.node Calculator.grammar.start children).Valid Calculator.grammar ∧
      (Tree.node Calculator.grammar.start children).yield =
        [number, .terminal "+", number, .endMarker] := by
  intro number
  let input := [number, .terminal "+", number, .endMarker, number]
  have accepted : ((generate .slr Calculator.grammar).run 20 input).outcome = .accepted := by
    decide +kernel
  have augmented : Calculator.grammar.Augmented := ⟨by decide +kernel, by decide +kernel⟩
  have pulled : ((generate .slr Calculator.grammar).run 20 input).last.pulled input = 4 := by
    decide +kernel
  obtain ⟨_, _, children, valid, leaves, _⟩ := accepted_sound augmented accepted
  rw [pulled] at leaves
  exact ⟨children, valid, leaves⟩

end Table

end ShiftReduce
