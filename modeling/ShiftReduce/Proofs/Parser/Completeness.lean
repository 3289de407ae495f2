import ShiftReduce.Calculator.Basic
import ShiftReduce.Proofs.Grammar.Sentences
import ShiftReduce.Proofs.Lookahead.Awaits
import ShiftReduce.Proofs.Parser.Consistency

/-! Completeness: without conflicts, a generated table follows every parse tree of
the start rule, and so no sentence has two of them. -/

namespace ShiftReduce

namespace Table

variable {method : Method} {g : Grammar} {stack : List Frame} {item : Item}
  {trees later : List Tree} {following : List Token}

/-- An item reached along the stack has its next symbols stand for two forests. The
leaves of the first are next in the input, and what follows them is awaited. -/
structure Ready (method : Method) (g : Grammar) (stack : List Frame) (item : Item)
    (trees later : List Tree) (following : List Token) : Prop where
  stacked : (generate method g).Stacked stack
  reaches : method.Reaches g (spell stack) item
  roots : (trees ++ later).map (·.root.symbol) = (item.rest g).map Token.symbol
  valid : ∀ tree ∈ trees ++ later, tree.Valid g
  terminals : ∀ token ∈ Tree.yields (trees ++ later), token.isTerminal = true
  unmarked : ∀ token ∈ Tree.yields trees, token.symbol ≠ .endMarker
  awaits : method.Awaits g item later following

theorem Ready.next {tree : Tree}
    (ready : Ready method g stack item (tree :: trees) later following) :
    ∃ token, item.next? g = some token ∧ token.symbol = tree.root.symbol ∧
      (trees ++ later).map (·.root.symbol) = (item.advance.rest g).map Token.symbol := by
  obtain ⟨token, next, same, roots⟩ := Item.next_of_rest ready.roots.symm
  exact ⟨token, next, same, roots.symm⟩

theorem Ready.push {tree : Tree} {target : StateId}
    (ready : Ready method g stack item [tree] later following)
    (stacked : (generate method g).Stacked
      ({ state := target, token := some tree.root } :: stack)) :
    Ready method g ({ state := target, token := some tree.root } :: stack) item.advance [] later
      following := by
  obtain ⟨token, next, same, roots⟩ := ready.next
  refine ⟨stacked, ?_, roots, ?_, ?_, by simp [Tree.yields], ?_⟩
  · rw [spell_push, ← same]
    exact ready.reaches.advance next
  · exact fun other member => ready.valid other (by simpa using Or.inr member)
  · exact fun leaf member => ready.terminals leaf (by simpa [Tree.yields] using Or.inr member)
  · exact (Method.awaits_dot _).mpr ready.awaits

/-- The machine follows a forest: it takes the leaves, leaves one frame for each
tree, and the forest is what its moves grow. -/
def Follows (method : Method) (g : Grammar) (trees : List Tree) : Prop :=
  ∀ stack item later following, Ready method g stack item trees later following →
    ∃ moves last, (generate method g).Steps { stack, input := Tree.yields trees ++ following } moves
        { stack := last, input := following } ∧
      last.drop trees.length = stack ∧
      Ready method g last { item with dot := item.dot + trees.length } [] later following ∧
      ∀ forest, moves.foldl Tree.grow forest = trees.reverse ++ forest

theorem follows_nil (method : Method) (g : Grammar) : Follows method g [] := by
  intro stack item later following ready
  exact ⟨[], stack, Steps.refl, rfl, ready, fun _ => rfl⟩

theorem Follows.cons {tree : Tree} (first : Follows method g [tree])
    (rest : Follows method g trees) : Follows method g (tree :: trees) := by
  intro stack item later following ready
  have front : Ready method g stack item [tree] (trees ++ later)
      (Tree.yields trees ++ following) :=
    { ready with
      unmarked := fun token member => ready.unmarked token (by
        rw [Tree.yields, Tree.yields, List.append_nil] at member
        exact List.mem_append_left _ member)
      awaits := ready.awaits.before trees }
  obtain ⟨moves, middle, steps, dropped, reached, grows⟩ := first _ _ _ _ front
  have back : Ready method g middle { item with dot := item.dot + 1 } trees later following :=
    { reached with
      unmarked := fun token member => ready.unmarked token (by simp [Tree.yields, member])
      awaits := (Method.awaits_dot _).mpr ready.awaits }
  obtain ⟨more, last, moreSteps, moreDropped, final, moreGrows⟩ := rest _ _ _ _ back
  refine ⟨moves ++ more, last, ?_, ?_, ?_, ?_⟩
  · have whole := steps.trans moreSteps
    simpa [Tree.yields] using whole
  · rw [List.length_cons, Nat.add_comm, Nat.add_comm, ← List.drop_drop, moreDropped]
    exact dropped
  · rw [List.length_cons, Nat.add_comm trees.length, ← Nat.add_assoc]
    exact final
  · intro forest
    rw [List.foldl_append, grows, moreGrows]
    simp

theorem follows_forest (all : ∀ tree ∈ trees, Follows method g [tree]) :
    Follows method g trees := by
  induction trees with
  | nil => exact follows_nil method g
  | cons tree rest ih =>
      exact (all tree (by simp)).cons (ih fun other member => all other (by simp [member]))

section Settled

variable (settled : (generate method g).conflicts = [])

include settled

theorem follows_leaf (token : Token) : Follows method g [Tree.leaf token] := by
  intro stack item later following ready
  obtain ⟨expected, next, same, _⟩ := ready.next
  rw [Tree.root_leaf] at same
  obtain ⟨top, below, rfl, leads⟩ := ready.stacked.leads
  have proper : expected.symbol ≠ .endMarker := by
    rw [same]
    exact ready.unmarked token (by simp [Tree.yields, Tree.yield])
  obtain ⟨target, _, lists⟩ := lists_shift leads ready.reaches next proper
  rw [same] at lists
  refine ⟨_, _, Steps.single (Transition.shift (lookup_of_lists settled lists)), rfl, ?_, ?_⟩
  · exact ready.push (ready.stacked.push lists)
  · intro forest
    rfl

/-- An item with nothing left is reduced. -/
theorem Ready.reduces {rule : Rule} (ready : Ready method g stack item [] [] following)
    (known : item.rule? g = some rule) :
    ∃ arguments target, (generate method g).Transition { stack, input := following }
      (.reduce rule arguments target)
      { stack := { state := target, token := some rule.left } ::
          stack.drop rule.production.length
        input := following } := by
  have complete : item.next? g = none := by
    rw [Item.next?, List.head?_eq_none_iff]
    exact List.map_eq_nil_iff.mp ready.roots.symm
  obtain ⟨symbol, expects, head⟩ := ready.awaits
  obtain ⟨look, looked, rfl⟩ := Option.map_eq_some_iff.mp head
  obtain ⟨rest, rfl⟩ := List.head?_eq_some_iff.mp looked
  obtain ⟨top, under, rfl, leads⟩ := ready.stacked.leads
  have lists : (generate method g).Lists top.state look.symbol (.reduce item.rule) :=
    (lists_iff_reaches leads).mpr ⟨item, ready.reaches, rfl, complete, expects⟩
  obtain ⟨uncovered, beneath, target, shape, actions⟩ :=
    (ready.stacked.reducible ready.reaches complete known).goto
  have tableRule : (generate method g).rule? item.rule = some rule := by
    rw [generate_rule?]
    exact known
  have reduced := reduction_of_goto tableRule shape (lookup_of_actions? actions)
  rw [shape]
  exact ⟨_, target, Transition.reduce (lookup_of_lists settled lists) reduced⟩

theorem follows_node {rule : Rule} {children : List Tree} (member : rule ∈ g.rules)
    (matched : children.map (·.root.symbol) = rule.symbols)
    (valid : ∀ child ∈ children, child.Valid g) (below : Follows method g children) :
    Follows method g [Tree.node rule children] := by
  intro stack item later following ready
  obtain ⟨expected, next, same, roots⟩ := ready.next
  obtain ⟨child, inside, known, dot, awaits⟩ := ready.reaches.expand_awaits next member same.symm
    (fun tree laterMember => ready.valid tree (by simpa using Or.inr laterMember)) roots
    (fun token leaf => ready.terminals token (by simpa [Tree.yields] using Or.inr leaf))
    ready.awaits
  have leaves : Tree.yields [Tree.node rule children] = Tree.yields children := by
    simp [Tree.yields, Tree.yield]
  have started : Ready method g stack child children [] following := by
    refine ⟨ready.stacked, ready.reaches.expand inside, ?_, by simpa using valid, ?_, ?_, awaits⟩
    · rw [Item.rest_of_rule known, dot, List.append_nil, List.drop_zero]
      exact matched
    · intro token leaf
      rw [List.append_nil] at leaf
      apply ready.terminals token
      rw [Tree.yields_append, leaves]
      exact List.mem_append_left _ leaf
    · rw [← leaves]
      exact ready.unmarked
  obtain ⟨moves, last, steps, dropped, done, grows⟩ := below _ _ _ _ started
  have length : children.length = rule.production.length := by
    rw [← rule.length_symbols, ← matched, List.length_map]
  obtain ⟨arguments, target, transition⟩ := done.reduces settled known
  rw [← length, dropped] at transition
  rw [leaves]
  refine ⟨_, _, steps.move transition, rfl, ?_, ?_⟩
  · exact ready.push (done.stacked.transition transition)
  · intro forest
    simp [grows, Tree.grow, ← length]

/-- The machine follows every parse tree. -/
theorem follows_valid {tree : Tree} (valid : tree.Valid g) : Follows method g [tree] := by
  induction valid with
  | leaf token => exact follows_leaf settled token
  | node member matched children ih =>
      exact follows_node settled member matched children (follows_forest ih)

theorem accepts_tree {children : List Tree} (valid : (Tree.node g.start children).Valid g)
    {word : List Token} {marker : Token} (leaves : Tree.yields children = word ++ [marker])
    (marked : marker.symbol = .endMarker)
    (terminals : ∀ token ∈ word, token.isTerminal = true ∧ token.symbol ≠ .endMarker)
    (rest : List Token) :
    ∃ moves stack, (generate method g).Steps ((generate method g).start (word ++ marker :: rest))
        moves { stack, input := marker :: rest } ∧
      (generate method g).step { stack, input := marker :: rest } = .accept ∧
      children = (Tree.grown moves).reverse ++ [Tree.leaf marker] := by
  obtain ⟨trees, last, rfl, _, treesValid, roots⟩ := valid.start_children
  rw [Tree.yields_append] at leaves
  obtain ⟨rfl, single⟩ := List.append_inj' leaves rfl
  cases single
  have ready : Ready method g [{ state := (generate method g).initial }] (method.initialItem g)
      trees [Tree.leaf marker] (marker :: rest) := by
    refine ⟨Stacked.bottom, Method.Reaches.initial, ?_, ?_, ?_, ?_, ?_⟩
    · rw [Item.rest_of_rule (method.initialItem_rule? g), method.initialItem_dot, List.drop_zero]
      exact roots
    · intro tree member
      rcases List.mem_append.mp member with inner | single
      · exact treesValid tree inner
      · rw [List.mem_singleton.mp single]
        exact Tree.Valid.leaf marker
    · intro token member
      rw [Tree.yields_append] at member
      rcases List.mem_append.mp member with inner | single
      · exact (terminals token inner).1
      · rw [List.mem_singleton.mp single, Token.isTerminal, marked]
        rfl
    · exact fun token member => (terminals token member).2
    · exact ⟨.endMarker, method.expects_initial g, rfl⟩
  obtain ⟨moves, stack, steps, _, done, grows⟩ :=
    follows_forest (fun tree member => follows_valid settled (treesValid tree member)) _ _ _ _ ready
  obtain ⟨token, next, same, _⟩ := Item.next_of_rest done.roots.symm
  obtain ⟨top, below, rfl, leads⟩ := done.stacked.leads
  have lists : (generate method g).Lists top.state marker.symbol .accept := by
    refine (lists_iff_reaches leads).mpr ⟨_, done.reaches, marked, ?_⟩
    exact Item.isAccepting_iff.mpr ⟨method.initialItem_rule g, token, next, same.trans marked⟩
  refine ⟨moves, top :: below, steps, ?_, ?_⟩
  · simp only [step, lookup_of_lists settled lists]
  · rw [Tree.grown, grows, List.append_nil, List.reverse_reverse]

end Settled

/-- Without conflicts, a sentence with a parse tree is accepted whatever comes after
it, the reductions are the tree below its root, and there is no other tree. -/
theorem accepted_complete (settled : (generate method g).conflicts = []) {children : List Tree}
    (valid : (Tree.node g.start children).Valid g) {word : List Token} {marker : Token}
    (leaves : (Tree.node g.start children).yield = word ++ [marker])
    (marked : marker.symbol = .endMarker)
    (terminals : ∀ token ∈ word, token.isTerminal = true ∧ token.symbol ≠ .endMarker) :
    (∀ rest, ∃ run, (generate method g).Parses (word ++ marker :: rest) run ∧
      run.outcome = .accepted ∧ run.last.pulled (word ++ marker :: rest) = word.length + 1 ∧
      (Tree.node g.start children).reductions =
        run.reductions ++ [(g.start, children.map Tree.root)]) ∧
    ∀ others, (Tree.node g.start others).Valid g →
      (Tree.node g.start others).yield = word ++ [marker] → others = children := by
  constructor
  · intro rest
    obtain ⟨moves, stack, steps, accepts, grown⟩ :=
      accepts_tree settled valid leaves marked terminals rest
    have parses := parses_of_steps steps (by rw [accepts]; decide)
    refine ⟨_, parses, by rw [accepts]; rfl, ?_, ?_⟩
    · simp only [Configuration.pulled, List.tail_cons, List.length_append, List.length_cons]
      omega
    · rw [Run.reductions, steps.tracks.inner, grown]
      simp [Tree.reductions, Tree.forestReductions]
  · intro others othersValid othersLeaves
    obtain ⟨moves, stack, steps, accepts, grown⟩ :=
      accepts_tree settled valid leaves marked terminals []
    obtain ⟨otherMoves, otherStack, otherSteps, otherAccepts, otherGrown⟩ :=
      accepts_tree settled othersValid othersLeaves marked terminals []
    have parses := parses_of_steps steps (by rw [accepts]; decide)
    have otherParses := parses_of_steps otherSteps (by rw [otherAccepts]; decide)
    have same : moves = otherMoves := congrArg Run.moves (parses.unique otherParses)
    rw [grown, otherGrown, same]

/-- The parse tree of a number, which the calculator accepts with a number after it. -/
theorem accepted_complete_number :
    let number := Token.terminal Calculator.numberName
    ∃ run, (generate .slr Calculator.grammar).Parses [number, .endMarker, number] run ∧
      run.outcome = .accepted ∧ run.last.pulled [number, .endMarker, number] = 2 := by
  intro number
  let factor : Rule := { id := 7, left := .nonterminal "F", right := [number] }
  let product : Rule := { id := 6, left := .nonterminal "T", right := [.nonterminal "F"] }
  let sum : Rule := { id := 3, left := .nonterminal "E", right := [.nonterminal "T"] }
  let tree := Tree.node sum [Tree.node product [Tree.node factor [Tree.leaf number]]]
  have single {rule : Rule} {child : Tree} (member : rule ∈ Calculator.grammar.rules)
      (matched : [child.root.symbol] = rule.symbols) (valid : child.Valid Calculator.grammar) :
      (Tree.node rule [child]).Valid Calculator.grammar :=
    Tree.Valid.node member matched (by simpa using valid)
  have treeValid : tree.Valid Calculator.grammar :=
    single (by decide +kernel) rfl (single (by decide +kernel) rfl
      (single (by decide +kernel) rfl (Tree.Valid.leaf number)))
  have valid : (Tree.node Calculator.grammar.start [tree, .leaf .endMarker]).Valid
      Calculator.grammar := by
    refine Tree.Valid.node (by decide +kernel) (by decide +kernel) ?_
    simpa using ⟨treeValid, Tree.Valid.leaf _⟩
  have settled : (generate .slr Calculator.grammar).conflicts = [] := by decide +kernel
  have leaves : (Tree.node Calculator.grammar.start [tree, .leaf .endMarker]).yield =
      [number] ++ [.endMarker] := rfl
  obtain ⟨run, parses, accepted, pulled, _⟩ :=
    (accepted_complete settled valid leaves rfl (by decide)).1 [number]
  exact ⟨run, parses, accepted, pulled⟩

end Table

end ShiftReduce
