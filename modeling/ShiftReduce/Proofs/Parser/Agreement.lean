import ShiftReduce.Proofs.Parser.Soundness
import ShiftReduce.Proofs.Parser.Termination
import ShiftReduce.Proofs.Table.Refinement

/-! The three parsers agree where they have no conflicts. What the finer of two tables
does on a stack, the coarser one does on a stack with the same tokens, so the run
of the first is a beginning of that of the second. An input that the second accepts
has a parse tree, and the first follows every parse tree. -/

namespace ShiftReduce

/-- What a move does to the tokens: which one it shifts, or which rule it reduces and
with what. The state it enters is left out. -/
inductive Deed where
  | shift (token : Token)
  | reduce (rule : Rule) (arguments : List Token)
deriving DecidableEq

def Deed.reduction? : Deed → Option (Rule × List Token)
  | shift _ => none
  | reduce rule arguments => some (rule, arguments)

def Move.deed : Move → Deed
  | .shift token _ => .shift token
  | .reduce rule arguments _ => .reduce rule arguments

theorem Move.reduction?_eq (move : Move) : move.reduction? = move.deed.reduction? := by
  cases move <;> rfl

def Run.deeds (run : Run) : List Deed :=
  run.moves.map Move.deed

theorem Run.reductions_eq (run : Run) : run.reductions = run.deeds.filterMap Deed.reduction? := by
  rw [deeds, List.filterMap_map, reductions]
  exact List.filterMap_congr fun move _ => move.reduction?_eq

theorem Frame.filterMap_token (stack : List Frame) :
    stack.reverse.filterMap Frame.token = (stack.map Frame.token).reverse.filterMap id := by
  rw [← List.map_reverse, List.filterMap_map]
  rfl

theorem spell_congr {stack other : List Frame}
    (tokens : other.map Frame.token = stack.map Frame.token) : spell other = spell stack := by
  rw [spell, spell, Frame.filterMap_token, Frame.filterMap_token, tokens]

/-- The first run is a beginning of the second one, and all of it if it accepts. -/
structure Run.Begins (first second : Run) : Prop where
  deeds : first.deeds <+: second.deeds
  accepted : first.outcome = .accepted → second.outcome = .accepted ∧
    first.deeds = second.deeds ∧ first.last.input = second.last.input

/-- The first method reduces where the second one does, or in fewer places. -/
inductive Method.Refines : Method → Method → Prop
  | lr1_slr : Refines .lr1 .slr
  | slr_lr0 : Refines .slr .lr0

namespace Table

variable {fine coarse : Method} {g : Grammar}

theorem conflicts_of_refines (refines : fine.Refines coarse)
    (settled : (generate coarse g).conflicts = []) : (generate fine g).conflicts = [] := by
  cases refines with
  | lr1_slr => exact conflicts_lr1 settled
  | slr_lr0 => exact conflicts_slr settled

theorem lists_of_refines (refines : fine.Refines coarse) {path : List Symbol}
    {state base : StateId} (leads : (Automaton.build fine g).Leads path state)
    (shared : (Automaton.build coarse g).Leads path base) {symbol : Symbol} {action : Action}
    (lists : (generate fine g).Lists state symbol action) :
    ∃ other, (generate coarse g).Lists base symbol other ∧
      Automaton.Matches (.build fine g) (.build coarse g) (path ++ [symbol]) action other := by
  cases refines with
  | lr1_slr => exact lists_slr_of_lr1 leads shared lists
  | slr_lr0 =>
      obtain rfl : base = state := shared.unique leads
      refine ⟨action, lists_lr0_of_slr lists, ?_⟩
      cases action with
      | accept => exact .accept
      | reduce rule => exact .reduce rule
      | shift target =>
          obtain ⟨_, _, _, _, edge⟩ := (lists_iff_reaches leads).mp lists
          exact .shift (leads.step edge) (shared.step edge)

/-- Two configurations of the machines of two tables, with the same tokens on the
stack and in the input. -/
structure Mirrors (fine coarse : Table) (first second : Configuration) : Prop where
  stacked : fine.Stacked first.stack
  mirrored : coarse.Stacked second.stack
  tokens : second.stack.map Frame.token = first.stack.map Frame.token
  input : second.input = first.input

section Mirrors

variable {first second next : Configuration} {move : Move}

theorem mirrors_start (fine coarse : Table) (input : List Token) :
    Mirrors fine coarse (fine.start input) (coarse.start input) :=
  ⟨Stacked.bottom, Stacked.bottom, rfl, rfl⟩

variable (refines : fine.Refines coarse) (settled : (generate coarse g).conflicts = [])

include refines settled

theorem Mirrors.lookup (mirrors : Mirrors (generate fine g) (generate coarse g) first second)
    {top : Frame} {below : List Frame} (stack : first.stack = top :: below) {token : Token}
    {action : Action} (found : (generate fine g).lookup top.state token = .ok (some action)) :
    ∃ head under path other, second.stack = head :: under ∧
      (generate coarse g).lookup head.state token = .ok (some other) ∧
      Automaton.Matches (.build fine g) (.build coarse g) path action other := by
  obtain ⟨_, _, shape, leads⟩ := mirrors.stacked.leads
  cases stack.symm.trans shape
  obtain ⟨head, under, mirrored, shared⟩ := mirrors.mirrored.leads
  rw [spell_congr mirrors.tokens] at shared
  obtain ⟨other, listed, same⟩ := lists_of_refines refines leads shared (lists_of_lookup found)
  exact ⟨head, under, _, other, mirrored, lookup_of_lists settled listed, same⟩

theorem Mirrors.accept (mirrors : Mirrors (generate fine g) (generate coarse g) first second)
    (accepts : (generate fine g).step first = .accept) :
    (generate coarse g).step second = .accept := by
  obtain ⟨top, below, token, rest, rfl, found⟩ := accept_of_step accepts
  obtain ⟨head, under, _, _, stack, lookup, same⟩ := mirrors.lookup refines settled rfl found
  cases same
  simp only [step, mirrors.input, stack, lookup]

theorem Mirrors.transition (mirrors : Mirrors (generate fine g) (generate coarse g) first second)
    (transition : (generate fine g).Transition first move next) :
    ∃ other following, (generate coarse g).Transition second other following ∧
      other.deed = move.deed ∧
      Mirrors (generate fine g) (generate coarse g) next following := by
  have stacked := mirrors.stacked.transition transition
  obtain ⟨stack, input⟩ := second
  have tokens := mirrors.tokens
  obtain rfl := mirrors.input
  cases transition with
  | @shift top below token rest target found =>
      obtain ⟨head, under, _, _, rfl, lookup, same⟩ := mirrors.lookup refines settled rfl found
      cases same
      refine ⟨_, _, Transition.shift lookup, rfl, stacked, ?_, ?_, rfl⟩
      · exact mirrors.mirrored.transition (Transition.shift lookup)
      · exact congrArg (some token :: ·) tokens
  | @reduce top below token rest id reduction found reduced =>
      obtain ⟨head, under, _, _, rfl, lookup, same⟩ := mirrors.lookup refines settled rfl found
      cases same
      obtain ⟨known, _, remaining, arguments, _⟩ := reduction_eq_ok reduced
      obtain ⟨rule, _, ruleKnown, reducible⟩ := mirrors.mirrored.reducible_of_lookup lookup
      obtain rfl : rule = reduction.rule := by
        rw [generate_rule?] at known ruleKnown
        exact Option.some.inj (ruleKnown.symm.trans known)
      obtain ⟨uncovered, beneath, target, shape, actions⟩ := reducible.goto
      have again := reduction_of_goto ruleKnown shape (lookup_of_actions? actions)
      refine ⟨_, _, Transition.reduce lookup again, ?_, stacked, ?_, ?_, rfl⟩
      · rw [Move.deed, Move.deed, arguments, Frame.filterMap_token, Frame.filterMap_token,
          List.map_take, List.map_take, tokens]
      · exact mirrors.mirrored.transition (Transition.reduce lookup again)
      · have dropped : (uncovered :: beneath).map Frame.token =
            reduction.remaining.map Frame.token := by
          rw [← shape, remaining, List.map_drop, List.map_drop, tokens]
        exact congrArg (some reduction.rule.left :: ·) dropped

theorem Mirrors.runFrom (mirrors : Mirrors (generate fine g) (generate coarse g) first second)
    (limit : Nat) :
    ((generate fine g).runFrom limit first).Begins ((generate coarse g).runFrom limit second) := by
  induction limit generalizing first second with
  | zero => exact ⟨List.prefix_rfl, fun accepted => by cases accepted⟩
  | succ limit ih =>
      simp only [Table.runFrom]
      cases stepped : (generate fine g).step first with
      | accept =>
          rw [mirrors.accept refines settled stepped]
          exact ⟨List.prefix_rfl, fun _ => ⟨rfl, rfl, mirrors.input.symm⟩⟩
      | fail error => exact ⟨List.nil_prefix, fun accepted => by cases accepted⟩
      | move move next =>
          obtain ⟨other, following, transition, same, mirrors⟩ :=
            mirrors.transition refines settled (transition_of_step stepped)
          have rest := ih mirrors
          rw [step_of_transition transition]
          refine ⟨?_, fun accepted => ?_⟩
          · exact List.cons_prefix_cons.mpr ⟨same.symm, rest.deeds⟩
          · obtain ⟨ran, deeds, left⟩ := rest.accepted accepted
            exact ⟨ran, List.cons_eq_cons.mpr ⟨same.symm, deeds⟩, left⟩

theorem run_begins (limit : Nat) (input : List Token) :
    ((generate fine g).run limit input).Begins ((generate coarse g).run limit input) :=
  (mirrors_start (generate fine g) (generate coarse g) input).runFrom refines settled limit

end Mirrors

section Accepted

variable {method : Method} {input : List Token}

theorem Steps.accepted_tree (augmented : g.Augmented) {moves : List Move}
    {configuration : Configuration}
    (steps : (generate method g).Steps ((generate method g).start input) moves configuration)
    (accepts : (generate method g).step configuration = .accept) :
    ∃ children marker rest, configuration.input = marker :: rest ∧ marker.symbol = .endMarker ∧
      (Tree.node g.start children).Valid g ∧
      Tree.yields children = Tree.yields (Tree.grown moves).reverse ++ [marker] := by
  obtain ⟨top, below, marker, rest, rfl, found⟩ := accept_of_step accepts
  obtain ⟨_, _, shape, leads⟩ := steps.stacked.leads
  cases shape
  obtain ⟨item, reaches, marked, accepting⟩ := (lists_iff_reaches leads).mp (lists_of_lookup found)
  have derives := steps.derives_taken.append (Grammar.Derives.refl [marker.symbol])
  rw [marked, reaches.path_of_accepting augmented accepting, ← marked, ← List.map_singleton,
    ← List.map_append] at derives
  obtain ⟨children, valid, roots, leaves⟩ := derives.forest
  exact ⟨children, marker, rest, rfl, marked, Tree.Valid.node g.start_mem roots valid, leaves⟩

/-- What one method accepts, every method without conflicts does. -/
theorem exists_parses_of_accepted (augmented : g.Augmented) {other : Method}
    (settled : (generate method g).conflicts = [])
    (terminals : ∀ token ∈ input, token.isTerminal = true) {limit : Nat}
    (accepted : ((generate other g).run limit input).outcome = .accepted) :
    ∃ run, (generate method g).Parses input run ∧ run.outcome = .accepted := by
  have steps := runFrom_steps (generate other g) limit ((generate other g).start input)
  obtain ⟨children, marker, rest, left, marked, valid, leaves⟩ :=
    steps.accepted_tree augmented (step_of_accepted accepted)
  have taken := steps.tracks.leaves
  rw [left] at taken
  obtain ⟨_, _, again, accepts, _⟩ := accepts_tree settled valid leaves marked
    (fun token member => ⟨steps.tracks.terminals_taken terminals token member,
      steps.unmarked token member⟩) rest
  rw [← taken] at again
  exact ⟨_, parses_of_steps again (by rw [accepts]; decide), by rw [accepts]; rfl⟩

theorem accepted_of_refines (refines : fine.Refines coarse) (augmented : g.Augmented)
    (settled : (generate coarse g).conflicts = [])
    (terminals : ∀ token ∈ input, token.isTerminal = true) {limit : Nat}
    (accepted : ((generate coarse g).run limit input).outcome = .accepted) :
    ((generate fine g).run limit input).outcome = .accepted := by
  obtain ⟨run, parses, ran⟩ := exists_parses_of_accepted augmented
    (conflicts_of_refines refines settled) terminals accepted
  obtain ⟨enough, rfl⟩ := parses.2
  -- The coarser run does as much as this one, so this one fits into the same limit.
  obtain ⟨otherRan, deeds, _⟩ := (run_begins refines settled enough input).accepted ran
  have ended : (generate coarse g).Parses input ((generate coarse g).run limit input) :=
    ⟨by rw [accepted]; decide, limit, rfl⟩
  have again : (generate coarse g).Parses input ((generate coarse g).run enough input) :=
    ⟨by rw [otherRan]; decide, enough, rfl⟩
  have short : ((generate coarse g).run limit input).moves.length < limit :=
    length_lt_of_ended ended.1
  have lengths := congrArg List.length deeds
  rw [← ended.unique again, Run.deeds, Run.deeds, List.length_map, List.length_map] at lengths
  rw [parses.run_eq limit (by omega), ran]

end Accepted

/-- Without conflicts in the coarser of two tables, the parser of the finer one does a
part of what the other does, and accepts the same inputs of terminals. Then it
has done the same, has called the same handlers and pulled as many tokens. -/
theorem generate_agree (refines : fine.Refines coarse) (augmented : g.Augmented)
    (settled : (generate coarse g).conflicts = []) (limit : Nat) (input : List Token) :
    let first := (generate fine g).run limit input
    let second := (generate coarse g).run limit input
    first.deeds <+: second.deeds ∧
    ((∀ token ∈ input, token.isTerminal = true) →
      (first.outcome = .accepted ↔ second.outcome = .accepted)) ∧
    (first.outcome = .accepted → first.deeds = second.deeds ∧
      first.last.pulled input = second.last.pulled input ∧
      ∀ (σ : Type) (handlers : Handlers σ) (initial : σ),
        (Parser.parse { table := generate fine g, handlers } limit input initial).state =
          (Parser.parse { table := generate coarse g, handlers } limit input initial).state) := by
  intro first second
  have begins : first.Begins second := run_begins refines settled limit input
  refine ⟨begins.deeds, ?_, ?_⟩
  · intro terminals
    exact ⟨fun accepted => (begins.accepted accepted).1,
      accepted_of_refines refines augmented settled terminals⟩
  · intro accepted
    obtain ⟨_, deeds, left⟩ := begins.accepted accepted
    have reductions : first.reductions = second.reductions := by
      rw [Run.reductions_eq, Run.reductions_eq, deeds]
    refine ⟨deeds, by rw [Configuration.pulled, Configuration.pulled, left], ?_⟩
    intro σ handlers initial
    rw [Parser.parse, Parser.parse, Parser.parseFrom_state, Parser.parseFrom_state]
    exact congrArg (List.foldl _ initial) reductions

/-- A sum of two numbers: the LR(1) parser of the calculator does what the SLR one does. -/
theorem generate_agree_sum :
    let number := Token.terminal Calculator.numberName
    let input := [number, .terminal "+", number, .endMarker]
    let first := (generate .lr1 Calculator.grammar).run 20 input
    let second := (generate .slr Calculator.grammar).run 20 input
    first.outcome = .accepted ∧ first.deeds = second.deeds ∧
      first.last.pulled input = second.last.pulled input := by
  intro number input first second
  have settled : (generate .slr Calculator.grammar).conflicts = [] := by decide +kernel
  have accepted : second.outcome = .accepted := by decide +kernel
  obtain ⟨_, accepts, same⟩ := generate_agree .lr1_slr Calculator.grammar_delimited.toAugmented
    settled 20 input
  have ran := (accepts (by decide)).mpr accepted
  exact ⟨ran, (same ran).1, (same ran).2.1⟩

end Table

end ShiftReduce
