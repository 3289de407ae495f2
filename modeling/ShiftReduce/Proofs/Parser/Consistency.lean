import ShiftReduce.Proofs.Parser.Forest
import ShiftReduce.Proofs.Table.Generated

/-! Generated tables are consistent. Every frame on the stack is the goto of the one
below it, so a complete item of the top state was begun by a closure step in the
state that its reduction uncovers. -/

namespace ShiftReduce

def spell (stack : List Frame) : List Symbol :=
  (stack.reverse.filterMap Frame.token).map Token.symbol

@[simp] theorem spell_push (state : StateId) (token : Token) (stack : List Frame) :
    spell ({ state, token := some token } :: stack) = spell stack ++ [token.symbol] := by
  simp [spell]

theorem spell_drop (stack : List Frame) (count : Nat) :
    spell stack = spell (stack.drop count) ++
      ((stack.take count).reverse.filterMap Frame.token).map Token.symbol := by
  have halves := congrArg List.reverse (List.take_append_drop count stack)
  rw [List.reverse_append] at halves
  simp only [spell, ← halves, List.filterMap_append, List.map_append]

theorem Table.Tracks.spell_eq {input : List Token} {moves : List Move}
    {configuration : Configuration} (tracks : Table.Tracks input moves configuration) :
    spell configuration.stack = (Tree.grown moves).reverse.map (·.root.symbol) := by
  rw [spell, tracks.tokens, List.map_map]
  rfl

namespace Table

section Stacked

variable {table : Table} {stack : List Frame}

/-- Every frame is entered by a shift that the state of the one below lists. -/
inductive Stacked (table : Table) : List Frame → Prop
  | bottom : Stacked table [{ state := table.initial }]
  | push {top : Frame} {below : List Frame} {token : Token} {target : StateId} :
      Stacked table (top :: below) → table.Lists top.state token.symbol (.shift target) →
      Stacked table ({ state := target, token := some token } :: top :: below)

theorem Stacked.length_eq (stacked : table.Stacked stack) :
    stack.length = (spell stack).length + 1 := by
  induction stacked with
  | bottom => rfl
  | push _ _ ih => rw [spell_push, List.length_cons, ih, List.length_append, List.length_singleton]

theorem Stacked.drop (stacked : table.Stacked stack) (count : Nat) (long : count < stack.length) :
    table.Stacked (stack.drop count) := by
  induction count generalizing stack with
  | zero => exact stacked
  | succ count ih =>
      cases stacked with
      | bottom => simp at long
      | push below _ => exact ih below (by simpa using long)

/-- The end of what a stack spells is spelled by as many frames on its top. -/
theorem Stacked.split {before symbols : List Symbol} (stacked : table.Stacked stack)
    (spelled : spell stack = before ++ symbols) :
    symbols.length < stack.length ∧ spell (stack.drop symbols.length) = before ∧
      ((stack.take symbols.length).reverse.filterMap Frame.token).map Token.symbol = symbols := by
  have whole := stacked.length_eq
  rw [spelled, List.length_append] at whole
  have long : symbols.length < stack.length := by omega
  refine ⟨long, List.append_inj ((spell_drop stack _).symm.trans spelled) ?_⟩
  have part := (stacked.drop _ long).length_eq
  rw [List.length_drop] at part
  omega

theorem Stacked.transition {configuration next : Configuration} {move : Move}
    (stacked : table.Stacked configuration.stack)
    (transition : table.Transition configuration move next) : table.Stacked next.stack := by
  cases transition with
  | shift found => exact stacked.push (lists_of_lookup found)
  | reduce found reduced =>
      obtain ⟨_, long, remaining, _, uncovered, below, shape, goto⟩ := reduction_eq_ok reduced
      have under := stacked.drop _ long
      rw [← remaining, shape] at under
      dsimp only
      rw [shape]
      exact under.push (lists_of_lookup goto)

theorem Steps.stacked {input : List Token} {moves : List Move} {configuration : Configuration}
    (steps : table.Steps (table.start input) moves configuration) :
    table.Stacked configuration.stack := by
  induction steps with
  | refl => exact Stacked.bottom
  | move _ transition ih => exact ih.transition transition

/-- A rule can be reduced: its symbols are on top of the stack, and the state below
them has a shift as its only action on the left-hand side. -/
structure Reducible (table : Table) (rule : Rule) (stack : List Frame) : Prop where
  long : rule.production.length < stack.length
  matched : ((stack.take rule.production.length).reverse.filterMap Frame.token).map
    Token.symbol = rule.symbols
  goto : ∃ uncovered below target, stack.drop rule.production.length = uncovered :: below ∧
    table.actions? uncovered.state rule.left.symbol = some [.shift target]

theorem Reducible.reduction_eq {rule : Rule} {id : RuleId} (reducible : table.Reducible rule stack)
    (known : table.rule? id = some rule) :
    ∃ reduction, table.reduction id stack = .ok reduction := by
  obtain ⟨uncovered, below, target, shape, actions⟩ := reducible.goto
  exact ⟨_, reduction_of_goto known shape (lookup_of_actions? actions)⟩

end Stacked

section Generated

variable {method : Method} {g : Grammar} {stack : List Frame} {path : List Symbol}
  {state : StateId} {item : Item}

theorem Stacked.leads (stacked : (generate method g).Stacked stack) :
    ∃ top below, stack = top :: below ∧
      (Automaton.build method g).Leads (spell stack) top.state := by
  induction stacked with
  | bottom =>
      refine ⟨_, [], rfl, ?_⟩
      rw [generate_initial]
      exact Automaton.Leads.start
  | @push top below token target _ lists ih =>
      obtain ⟨_, _, shape, leads⟩ := ih
      cases shape
      obtain ⟨_, _, _, _, edge⟩ := (lists_iff_reaches leads).mp lists
      refine ⟨_, _, rfl, ?_⟩
      rw [spell_push]
      exact leads.step edge

theorem Stacked.reaches (stacked : (generate method g).Stacked stack) :
    ∃ item, method.Reaches g (spell stack) item := by
  cases stacked with
  | bottom => exact ⟨_, Method.Reaches.initial⟩
  | @push top below token target under lists =>
      obtain ⟨_, _, shape, leads⟩ := under.leads
      cases shape
      obtain ⟨item, reaches, _, next, _⟩ := (lists_iff_reaches leads).mp lists
      obtain ⟨expected, found, same⟩ := Option.map_eq_some_iff.mp next
      refine ⟨item.advance, ?_⟩
      rw [spell_push, ← same]
      exact reaches.advance found

theorem actions?_of_goto (leads : (Automaton.build method g).Leads path state)
    (reaches : method.Reaches g path item) {token : Token} (next : item.next? g = some token)
    (nonterminal : token.symbol.isTerminal = false) :
    ∃ target, (generate method g).actions? state token.symbol = some [.shift target] := by
  have proper : token.symbol ≠ .endMarker := by
    intro same
    rw [same] at nonterminal
    cases nonterminal
  obtain ⟨target, edge, shifts⟩ := lists_shift leads reaches next proper
  refine ⟨target, actions?_of_lists (tidy_ofEntries _ _ _) shifts ?_⟩
  intro other lists
  obtain ⟨justifying, reached, entails⟩ := (lists_iff_reaches leads).mp lists
  cases other with
  | accept => exact absurd entails.1 proper
  | reduce rule =>
      have terminal := (reached.terminal_of_expects entails.2.2).1
      rw [nonterminal] at terminal
      cases terminal
  | shift found => rw [Option.some.inj (edge.symm.trans entails.2.2)]

/-- A complete item reached along the stack can be reduced. -/
theorem Stacked.reducible (stacked : (generate method g).Stacked stack)
    (reaches : method.Reaches g (spell stack) item) (complete : item.next? g = none)
    {rule : Rule} (known : item.rule? g = some rule) :
    (generate method g).Reducible rule stack := by
  obtain ⟨_, member, sameRule, inRange⟩ := reaches.rule?
  cases known.symm.trans sameRule
  have dot : item.dot = rule.production.length := by
    rw [Item.next?, Item.rest_of_rule known, List.head?_eq_none_iff, List.drop_eq_nil_iff]
      at complete
    omega
  obtain ⟨before, shape, front⟩ := reaches.split known
  rw [dot, ← rule.length_symbols, List.take_length] at shape
  obtain ⟨long, rfl, matched⟩ := stacked.split shape
  have under := stacked.drop _ long
  rw [rule.length_symbols] at long matched under front
  obtain ⟨uncovered, below, remaining, leads⟩ := under.leads
  refine ⟨long, matched, uncovered, below, ?_⟩
  rcases front.origin rfl with ⟨_, initial⟩ | ⟨parent, reached, expanded⟩
  · have same : rule = g.start := by
      have starts := method.initialItem_rule? g
      rw [← initial] at starts
      exact Option.some.inj (known.symm.trans starts)
    obtain ⟨production, _, _, right, marked⟩ := g.start_production
    obtain ⟨_, _, _, stackLeads⟩ := stacked.leads
    refine absurd ?_ stackLeads.endMarker_not_mem
    rw [shape, same, Rule.symbols, production, right]
    simp [marked]
  · obtain ⟨_, other, _, otherKnown, token, next, left⟩ := Method.expand_rule? expanded
    cases known.symm.trans otherKnown
    obtain ⟨target, actions⟩ := actions?_of_goto leads reached next
      (by rw [left]; exact g.left_nonterminal member)
    rw [left] at actions
    exact ⟨target, remaining, actions⟩

theorem Stacked.reducible_of_lookup {top : Frame} {below : List Frame} {token : Token}
    {id : RuleId} (stacked : (generate method g).Stacked (top :: below))
    (found : (generate method g).lookup top.state token = .ok (some (.reduce id))) :
    ∃ rule ∈ g.rules, (generate method g).rule? id = some rule ∧
      (generate method g).Reducible rule (top :: below) := by
  obtain ⟨_, _, shape, leads⟩ := stacked.leads
  cases shape
  obtain ⟨item, reaches, rfl, complete, _⟩ :=
    (lists_iff_reaches leads).mp (lists_of_lookup found)
  obtain ⟨rule, member, known, _⟩ := reaches.rule?
  refine ⟨rule, member, ?_, stacked.reducible reaches complete known⟩
  rw [generate_rule?]
  exact known

theorem Stacked.fail_cases {configuration : Configuration} {error : Error}
    (stacked : (generate method g).Stacked configuration.stack)
    (failed : (generate method g).step configuration = .fail error) :
    configuration.input = [] ∧ error = .notAccepted ∨
      (∃ declared actions, error = .unresolvableConflict declared actions) ∨
      ∃ top below token rest, configuration = { stack := top :: below, input := token :: rest } ∧
        (generate method g).lookup top.state token = .ok none ∧
        error = .unexpectedToken token ((generate method g).expectedTokens top.state) := by
  rcases fail_of_step failed with ended | ⟨empty, _⟩ | ⟨top, below, token, rest, rfl, cause⟩
  · exact Or.inl ended
  · rw [empty] at stacked
    cases stacked
  · rcases cause with conflict | unexpected | ⟨id, found, refused⟩
    · exact Or.inr (Or.inl (conflict_of_lookup_error conflict))
    · exact Or.inr (Or.inr ⟨top, below, token, rest, rfl, unexpected⟩)
    · obtain ⟨rule, _, known, reducible⟩ := stacked.reducible_of_lookup found
      obtain ⟨_, reduced⟩ := reducible.reduction_eq known
      rw [reduced] at refused
      cases refused

theorem Stacked.step_ne_inconsistent {configuration : Configuration}
    (stacked : (generate method g).Stacked configuration.stack) (fault : TableFault) :
    (generate method g).step configuration ≠ .fail (.inconsistentTable fault) := by
  intro failed
  rcases stacked.fail_cases failed with ⟨_, same⟩ | ⟨_, _, same⟩ | ⟨_, _, _, _, _, _, same⟩
  · cases same
  · cases same
  · cases same

theorem Steps.matched {input : List Token} {moves : List Move} {configuration : Configuration}
    (steps : (generate method g).Steps ((generate method g).start input) moves configuration) :
    ∀ made ∈ moves.filterMap Move.reduction?,
      made.1 ∈ g.rules ∧ made.2.map Token.symbol = made.1.symbols := by
  induction steps with
  | refl => simp
  | move steps transition ih =>
      intro made member
      rw [List.filterMap_append] at member
      rcases List.mem_append.mp member with earlier | last
      · exact ih made earlier
      · cases transition with
        | shift found => cases last
        | reduce found reduced =>
            obtain ⟨rule, ruleMember, known, reducible⟩ :=
              steps.stacked.reducible_of_lookup found
            obtain ⟨sameRule, _, _, arguments, _⟩ := reduction_eq_ok reduced
            cases known.symm.trans sameRule
            rw [List.mem_singleton.mp last, arguments]
            exact ⟨ruleMember, reducible.matched⟩

/-- No run over a generated table finds it inconsistent, whatever the input. What it
reduces can be reduced, and handlers get the productions of their rules. -/
theorem generate_consistent {σ : Type} (method : Method) (g : Grammar) (handlers : Handlers σ)
    (limit : Nat) (input : List Token) (initial : σ) :
    let parser : Parser σ := { table := generate method g, handlers }
    let parse := parser.parse limit input initial
    (∀ fault, parse.run.outcome ≠ .failed (.inconsistentTable fault) ∧
      parser.table.step parse.run.last ≠ .fail (.inconsistentTable fault)) ∧
    (∀ top below token rest id,
      parse.run.last = { stack := top :: below, input := token :: rest } →
      parser.table.lookup top.state token = .ok (some (.reduce id)) →
      ∃ rule ∈ g.rules, parser.table.rule? id = some rule ∧
        parser.table.Reducible rule (top :: below)) ∧
    parse.state = parse.run.reductions.foldl
      (fun state made => handlers.invoke made.1.id made.2 state) initial ∧
    ∀ made ∈ parse.run.reductions,
      made.1 ∈ g.rules ∧ made.2.map Token.symbol = made.1.symbols := by
  intro parser parse
  have same : parse.run = parser.table.run limit input := parser.parseFrom_run _ _ _
  have steps : parser.table.Steps (parser.table.start input) parse.run.moves parse.run.last := by
    rw [same]
    exact runFrom_steps parser.table limit (parser.table.start input)
  have consistent := fun fault => steps.stacked.step_ne_inconsistent fault
  refine ⟨?_, ?_, ?_, steps.matched⟩
  · intro fault
    refine ⟨?_, consistent fault⟩
    intro failed
    apply consistent fault
    rw [same] at failed ⊢
    exact step_of_failed failed
  · intro top below token rest id last found
    have stacked := steps.stacked
    rw [last] at stacked
    exact stacked.reducible_of_lookup found
  · rw [same]
    exact parser.parseFrom_state _ _ _

end Generated

end Table

end ShiftReduce
