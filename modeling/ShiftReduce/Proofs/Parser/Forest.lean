import ShiftReduce.Parser.Basic
import ShiftReduce.Proofs.Grammar.Derivation
import ShiftReduce.Proofs.Parser.Runs

/-! The forest that the moves of a run grow, whatever the table. Its roots are on the
stack, its leaves are the input taken so far, and its inner nodes are the
reductions, in post-order. -/

namespace ShiftReduce

def Move.reduction? : Move → Option (Rule × List Token)
  | .shift _ _ => none
  | .reduce rule arguments _ => some (rule, arguments)

def Run.reductions (run : Run) : List (Rule × List Token) :=
  run.moves.filterMap Move.reduction?

/-- Handlers are called for the reductions, in order, with their tokens. -/
theorem Parser.parseFrom_state {σ : Type} (parser : Parser σ) (limit : Nat)
    (configuration : Configuration) (state : σ) :
    (parser.parseFrom limit configuration state).state =
      (parser.table.runFrom limit configuration).reductions.foldl
        (fun current made => parser.handlers.invoke made.1.id made.2 current) state := by
  induction limit generalizing configuration state with
  | zero => rfl
  | succ limit ih =>
      simp only [parseFrom, Table.runFrom]
      cases parser.table.step configuration with
      | accept => rfl
      | fail error => rfl
      | move move next =>
          simp only [ih]
          cases move <;> rfl

theorem Parser.parse_run {σ : Type} (parser : Parser σ) (limit : Nat) (input : List Token)
    (state : σ) : (parser.parse limit input state).run = parser.table.run limit input :=
  parser.parseFrom_run limit _ state

theorem Parser.parse_state {σ : Type} (parser : Parser σ) (limit : Nat) (input : List Token)
    (state : σ) :
    (parser.parse limit input state).state =
      (parser.table.run limit input).reductions.foldl
        (fun current made => parser.handlers.invoke made.1.id made.2 current) state :=
  parser.parseFrom_state limit _ state

namespace Tree

/-- The forest after a move, its last tree first: a shift adds a leaf, a reduction
puts a node over the last trees. -/
def grow (forest : List Tree) : Move → List Tree
  | .shift token _ => leaf token :: forest
  | .reduce rule _ _ =>
      node rule (forest.take rule.production.length).reverse ::
        forest.drop rule.production.length

def grown (moves : List Move) : List Tree :=
  moves.foldl grow []

theorem grown_append (moves : List Move) (move : Move) :
    grown (moves ++ [move]) = grow (grown moves) move := by
  simp [grown]

end Tree

namespace Table

variable {table : Table} {input : List Token} {moves : List Move} {configuration : Configuration}

/-- What a run has done shows in the forest it has grown. -/
structure Tracks (input : List Token) (moves : List Move) (configuration : Configuration) :
    Prop where
  stack : configuration.stack.map Frame.token =
    ((Tree.grown moves).map fun tree => some tree.root) ++ [none]
  leaves : input = Tree.yields (Tree.grown moves).reverse ++ configuration.input
  inner : moves.filterMap Move.reduction? = Tree.forestReductions (Tree.grown moves).reverse

theorem Tracks.length_stack (tracks : Tracks input moves configuration) :
    configuration.stack.length = (Tree.grown moves).length + 1 := by
  have lengths := congrArg List.length tracks.stack
  simpa using lengths

theorem Tracks.tokens (tracks : Tracks input moves configuration) :
    configuration.stack.reverse.filterMap Frame.token =
      (Tree.grown moves).reverse.map Tree.root := by
  have mapped := congrArg (fun tokens => tokens.reverse.filterMap id) tracks.stack
  simpa [← List.map_reverse, List.filterMap_map, Function.comp_def] using mapped

theorem Tracks.arguments (tracks : Tracks input moves configuration) {count : Nat}
    (long : count < configuration.stack.length) :
    (configuration.stack.take count).reverse.filterMap Frame.token =
      ((Tree.grown moves).take count).reverse.map Tree.root := by
  rw [tracks.length_stack] at long
  have taken := congrArg (List.take count) tracks.stack
  rw [← List.map_take, List.take_append_of_le_length (by simpa using Nat.le_of_lt_succ long),
    ← List.map_take] at taken
  have mapped := congrArg (fun tokens => tokens.reverse.filterMap id) taken
  rw [← List.map_reverse, ← List.map_reverse, List.filterMap_map, List.filterMap_map] at mapped
  simpa [Function.comp_def] using mapped

theorem Tracks.terminals_taken (tracks : Tracks input moves configuration)
    (terminals : ∀ token ∈ input, token.isTerminal = true) :
    ∀ token ∈ Tree.yields (Tree.grown moves).reverse, token.isTerminal = true := by
  intro token member
  apply terminals
  rw [tracks.leaves]
  exact List.mem_append_left _ member

theorem tracks_start (table : Table) (input : List Token) : Tracks input [] (table.start input) :=
  ⟨rfl, rfl, rfl⟩

theorem Tracks.transition {next : Configuration} {move : Move}
    (tracks : Tracks input moves configuration)
    (transition : table.Transition configuration move next) :
    Tracks input (moves ++ [move]) next := by
  cases transition with
  | shift found =>
      refine ⟨?_, ?_, ?_⟩
      · rw [Tree.grown_append]
        simpa [Tree.grow] using tracks.stack
      · rw [Tree.grown_append]
        simpa [Tree.grow, Tree.yields, Tree.yield] using tracks.leaves
      · rw [Tree.grown_append, List.filterMap_append, tracks.inner]
        simp [Tree.grow, Move.reduction?, Tree.forestReductions, Tree.reductions]
  | @reduce top below token rest id reduction found reduced =>
      obtain ⟨_, long, remaining, arguments, _⟩ := reduction_eq_ok reduced
      have count : (top :: below).length = (Tree.grown moves).length + 1 := tracks.length_stack
      rw [tracks.arguments long] at arguments
      have halves := List.take_append_drop reduction.rule.production.length (Tree.grown moves)
      have turned := congrArg List.reverse halves
      rw [List.reverse_append] at turned
      refine ⟨?_, ?_, ?_⟩
      · have dropped := congrArg (List.drop reduction.rule.production.length) tracks.stack
        rw [← List.map_drop, List.drop_append_of_le_length (by simp only [List.length_map]; omega),
          ← List.map_drop] at dropped
        rw [Tree.grown_append, remaining]
        simpa [Tree.grow] using dropped
      · have leaves := tracks.leaves
        rw [← turned] at leaves
        rw [Tree.grown_append]
        simpa [Tree.grow, Tree.yields, Tree.yield] using leaves
      · have inner := tracks.inner
        rw [← turned] at inner
        rw [Tree.grown_append]
        simp [Tree.grow, Move.reduction?, Tree.forestReductions, Tree.reductions, inner, arguments]

theorem Steps.tracks (steps : table.Steps (table.start input) moves configuration) :
    Tracks input moves configuration := by
  induction steps with
  | refl => exact tracks_start table input
  | move _ transition ih => exact ih.transition transition

theorem Steps.length_moves {first last : Configuration} (steps : table.Steps first moves last) :
    moves.length + last.input.length =
      first.input.length + (moves.filterMap Move.reduction?).length := by
  induction steps with
  | refl => exact Nat.zero_add _
  | move _ transition ih =>
      rw [List.length_append, List.length_singleton, List.filterMap_append, List.length_append]
      cases transition with
      | shift found =>
          simp only [List.length_cons] at ih
          simp only [List.filterMap_cons, Move.reduction?, List.filterMap_nil, List.length_nil]
          omega
      | reduce found reduced =>
          simp only [List.length_cons] at ih ⊢
          simp only [List.filterMap_cons, Move.reduction?, List.filterMap_nil, List.length_cons,
            List.length_nil]
          omega

theorem Steps.length_eq (steps : table.Steps (table.start input) moves configuration) :
    moves.length = (Tree.yields (Tree.grown moves).reverse).length +
      (Tree.forestReductions (Tree.grown moves).reverse).length := by
  have count := steps.length_moves
  have leaves := congrArg List.length steps.tracks.leaves
  rw [steps.tracks.inner] at count
  simp only [start, List.length_append] at count leaves
  omega

/-- The forest is one of parse trees if every reduction matches a rule of the grammar. -/
theorem Steps.valid_grown {g : Grammar}
    (steps : table.Steps (table.start input) moves configuration)
    (matched : ∀ made ∈ moves.filterMap Move.reduction?,
      made.1 ∈ g.rules ∧ made.2.map Token.symbol = made.1.symbols) :
    ∀ tree ∈ Tree.grown moves, tree.Valid g := by
  induction steps with
  | refl => simp [Tree.grown]
  | @move moves configuration next move steps transition ih =>
      have before := ih fun made member => matched made (by simp [member])
      rw [Tree.grown_append]
      cases transition with
      | @shift top below token rest target found =>
          intro tree member
          rcases List.mem_cons.mp member with rfl | earlier
          · exact Tree.Valid.leaf token
          · exact before tree earlier
      | @reduce top below token rest id reduction found reduced =>
          obtain ⟨_, long, _, arguments, _⟩ := reduction_eq_ok reduced
          obtain ⟨known, symbols⟩ := matched (reduction.rule, reduction.arguments)
            (by simp [Move.reduction?])
          rw [arguments, steps.tracks.arguments long] at symbols
          intro tree member
          rcases List.mem_cons.mp member with rfl | earlier
          · refine Tree.Valid.node known (by simpa [Function.comp_def] using symbols) ?_
            intro child inside
            exact before child (List.mem_of_mem_take (List.mem_reverse.mp inside))
          · exact before tree (List.mem_of_mem_drop earlier)

end Table

end ShiftReduce
