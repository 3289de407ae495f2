import ShiftReduce.Grammar.Samples
import ShiftReduce.Proofs.Automaton.GotoGraph
import ShiftReduce.Proofs.Table.Generated

/-! Generated cells hold exactly what the items of their states justify, in the order of
the items. Terminals that a method looks for after a complete item are no
nonterminals and not ε, and the end marker is never passed, which rules most
combinations of actions out. -/

namespace ShiftReduce

namespace Automaton

variable {method : Method} {g : Grammar} {number : StateId} {state : State} {item : Item}
  {token : Token}

/-- The edge over the symbol at the dot of an item leads to the state with the goto. -/
theorem target?_of_mem (found : (build method g).state? number = some state)
    (inside : item ∈ state.items) (next : item.next? g = some token)
    (proper : token.symbol ≠ .endMarker) :
    ∃ target, (build method g).target? number token.symbol = some target ∧
      (build method g).find? (.ofClosed g (state.items.goto g token.symbol)) = some target := by
  obtain ⟨declared, plain⟩ := Item.declared_of_next next
  have label : token ∈ labels g := mem_labels.mpr ⟨declared, proper, plain⟩
  have nonempty : state.items.goto g token.symbol ≠ [] := by
    intro empty
    have has := ItemSet.goto_has (ItemSet.has_of_mem inside) next
    rw [empty] at has
    cases has
  obtain ⟨target, edge⟩ := target?_of_goto found label nonempty
  obtain ⟨_, source, reached, sourceFound, reachedFound, same⟩ := target?_spec edge
  cases found.symm.trans sourceFound
  exact ⟨target, edge, (growing_build method g).listed.find?_iff.mpr ⟨reached, reachedFound, same⟩⟩

end Automaton

namespace Method

variable {method : Method} {g : Grammar} {item : Item} {symbol : Symbol}

/-- The terminals on which a complete item is reduced: all of the grammar but ε, those that
can follow its left-hand side, or its own lookahead. -/
def ReducesOn (method : Method) (g : Grammar) (item : Item) (symbol : Symbol) : Prop :=
  match method with
  | lr0 => symbol ∈ g.terminals.map Token.symbol ∧ symbol ≠ .epsilon
  | slr => ∃ rule follow, item.rule? g = some rule ∧
      g.follow? rule.left.symbol = some follow ∧ symbol ∈ follow.map Token.symbol
  | lr1 => item.lookahead.map Token.symbol = some symbol

theorem expects_iff_reducesOn : method.Expects g item symbol ↔ method.ReducesOn g item symbol := by
  cases method with
  | lr0 =>
      simp only [expects_lr0, ReducesOn, Grammar.Declares, Grammar.terminals, List.mem_map,
        List.mem_filter]
      constructor
      · rintro ⟨terminal, ⟨token, member, rfl⟩, proper⟩
        exact ⟨⟨token, ⟨member, terminal⟩, rfl⟩, proper⟩
      · rintro ⟨⟨token, ⟨member, terminal⟩, rfl⟩, proper⟩
        exact ⟨terminal, ⟨token, member, rfl⟩, proper⟩
  | slr =>
      simp only [Expects, reduceLookaheads, ReducesOn]
      cases item.rule? g with
      | none => simp
      | some rule => cases found : g.follow? rule.left.symbol <;> simp [found]
  | lr1 =>
      simp only [Expects, reduceLookaheads, ReducesOn]
      cases item.lookahead <;> simp [eq_comm]

/-- The action on a symbol that an item among the given ones justifies: acceptance, its
reduction if it is complete, or the shift to where all of them lead. -/
def justified? (method : Method) (g : Grammar) (a : Automaton) (items : ItemSet) (symbol : Symbol)
    (item : Item) : Option Action :=
  if item.isAccepting g then if symbol = .endMarker then some .accept else none
  else match item.next? g with
    | none =>
        if symbol ∈ (method.reduceLookaheads g item).map Token.symbol then
          some (.reduce item.rule)
        else none
    | some token =>
        if token.symbol = symbol ∧ symbol ≠ .endMarker then
          (a.find? (.ofClosed g (items.goto g symbol))).map .shift
        else none

theorem actions_itemEntries {number : StateId} {state : State}
    (found : (Automaton.build method g).state? number = some state) (inside : item ∈ state.items)
    (symbol : Symbol) :
    ((method.itemEntries g (Automaton.build method g) number item).filter
        fun entry => entry.token.symbol = symbol).map Entry.action =
      (method.justified? g (Automaton.build method g) state.items symbol item).toList := by
  unfold itemEntries justified?
  by_cases accepting : item.isAccepting g = true
  · rw [if_pos accepting, if_pos accepting]
    by_cases marked : symbol = .endMarker
    · simp [marked, Token.endMarker]
    · simp [marked, Token.endMarker, Ne.symm marked]
  · rw [if_neg accepting, if_neg accepting]
    cases next : item.next? g with
    | none =>
        -- Each lookahead is entered once, so an item does not enter its reduction twice.
        have distinct := method.nodup_reduceLookaheads g item
        rw [List.filter_map, Function.comp_def, Keyed.filter_key distinct symbol]
        cases looked : Keyed.find? Token.symbol symbol (method.reduceLookaheads g item) with
        | none =>
            have absent : symbol ∉ (method.reduceLookaheads g item).map Token.symbol := by
              intro member
              obtain ⟨token, tokenMember, rfl⟩ := List.mem_map.mp member
              rw [Keyed.find?_mem distinct tokenMember] at looked
              cases looked
            rw [if_neg absent]
            rfl
        | some token =>
            obtain ⟨member, rfl⟩ := Keyed.find?_some looked
            rw [if_pos (List.mem_map_of_mem member)]
            rfl
    | some token =>
        dsimp only
        by_cases marked : token.symbol = .endMarker
        · cases edge : (Automaton.build method g).target? number token.symbol with
          | none =>
              have excluded : ¬ (token.symbol = symbol ∧ symbol ≠ .endMarker) :=
                fun both => both.2 (both.1 ▸ marked)
              rw [if_neg excluded]
              rfl
          | some target => exact absurd marked (Automaton.target?_spec edge).1
        · obtain ⟨target, edge, goto⟩ := Automaton.target?_of_mem found inside next marked
          rw [edge]
          by_cases here : token.symbol = symbol
          · subst here
            rw [if_pos ⟨rfl, marked⟩, goto]
            simp
          · simp [here]

end Method

namespace Table

variable {method : Method} {g : Grammar} {number : StateId} {state : State} {symbol : Symbol}

/-- What is entered for a cell comes from the items of its state alone. -/
theorem filter_entries (found : (Automaton.build method g).state? number = some state)
    (symbol : Symbol) :
    (((Automaton.build method g).states.flatMap
        (method.stateEntries g (Automaton.build method g))).filter
          fun entry => entry.state = number ∧ entry.token.symbol = symbol) =
      state.items.flatMap fun item =>
        (method.itemEntries g (Automaton.build method g) number item).filter
          fun entry => entry.token.symbol = symbol := by
  have listed := (Automaton.growing_build method g).listed
  obtain ⟨member, numbered⟩ := listed.number_of_state? found
  obtain ⟨before, after, shape⟩ := List.append_of_mem member
  have distinct : (before ++ state :: after).Nodup := shape ▸ List.Nodup.of_map _ listed.distinct
  have alone : state ∉ before ++ after := (List.nodup_middle.mp distinct).notMem
  have elsewhere {other : State} (inside : other ∈ before ++ after) :
      (method.stateEntries g (Automaton.build method g) other).filter
        (fun entry => entry.state = number ∧ entry.token.symbol = symbol) = [] := by
    refine List.filter_eq_nil_iff.mpr fun entry entered here => alone ?_
    have known : other ∈ (Automaton.build method g).states := by
      rw [shape]
      simpa [or_left_comm] using Or.inr (List.mem_append.mp inside)
    obtain ⟨own, ownNumber, ownFound⟩ := listed.state?_of_mem known
    rw [Method.stateEntries, ownNumber] at entered
    obtain ⟨item, _, fromItem⟩ := List.mem_flatMap.mp entered
    have same : own = number := by
      rw [← Method.itemEntries_state fromItem]
      exact (of_decide_eq_true here).1
    rw [same] at ownFound
    cases found.symm.trans ownFound
    exact inside
  rw [shape, List.flatMap_append, List.flatMap_cons, List.filter_append, List.filter_append,
    List.filter_flatMap, List.filter_flatMap,
    List.flatMap_eq_nil_iff.mpr fun other inside => elsewhere (List.mem_append_left _ inside),
    List.flatMap_eq_nil_iff.mpr fun other inside => elsewhere (List.mem_append_right _ inside),
    Method.stateEntries, numbered, List.nil_append, List.append_nil, List.filter_flatMap]
  refine List.flatMap_congr fun item _ => List.filter_congr fun entry entered => ?_
  simp [Method.itemEntries_state entered]

theorem actions_generate (found : (Automaton.build method g).state? number = some state)
    (symbol : Symbol) :
    ((generate method g).actions? number symbol).getD [] =
      (state.items.filterMap
        (method.justified? g (Automaton.build method g) state.items symbol)).eraseDups := by
  have entered : ((((Automaton.build method g).states.flatMap
      (method.stateEntries g (Automaton.build method g))).filter
        fun entry => entry.state = number ∧ entry.token.symbol = symbol).map Entry.action) =
      state.items.filterMap
        (method.justified? g (Automaton.build method g) state.items symbol) := by
    rw [filter_entries found, List.map_flatMap, List.filterMap_eq_flatMap_toList]
    exact List.flatMap_congr fun item inside => Method.actions_itemEntries found inside symbol
  rw [← entered, generate, ofAutomaton, actions?, cell?_ofEntries]
  cases ((Automaton.build method g).states.flatMap
      (method.stateEntries g (Automaton.build method g))).filter
        (fun entry => entry.state = number ∧ entry.token.symbol = symbol) with
  | nil => rfl
  | cons first rest => rfl

theorem mem_actions_iff {table : Table} {action : Action} :
    action ∈ (table.actions? number symbol).getD [] ↔ table.Lists number symbol action := by
  rw [actions?, Lists]
  cases table.cell? number symbol <;> simp

theorem proper_of_shift {target : StateId}
    (lists : (generate method g).Lists number symbol (.shift target)) :
    symbol ≠ .endMarker ∧ g.Declares symbol := by
  obtain ⟨_, _, item, _, _, next, edge⟩ := exists_item_of_lists lists
  refine ⟨(Automaton.target?_spec edge).1, ?_⟩
  obtain ⟨token, atDot, rfl⟩ := Option.map_eq_some_iff.mp next
  obtain ⟨declared, plain⟩ := Item.declared_of_next atDot
  exact ⟨List.mem_map_of_mem declared, plain⟩

/-- Reductions are made on terminals only, and never by the start rule: its last symbol is
the end marker, which no path passes. -/
theorem proper_of_reduce {rule : RuleId}
    (lists : (generate method g).Lists number symbol (.reduce rule)) :
    symbol.isTerminal = true ∧ g.Declares symbol ∧ rule ≠ g.start.id := by
  obtain ⟨state, found, _⟩ := exists_item_of_lists lists
  obtain ⟨path, leads⟩ := Automaton.exists_leads_to found
  obtain ⟨item, reaches, rfl, complete, expects⟩ := (lists_iff_reaches leads).mp lists
  obtain ⟨terminal, declared⟩ := reaches.terminal_of_expects expects
  refine ⟨terminal, declared, fun isStart => leads.endMarker_not_mem ?_⟩
  have known : item.rule? g = some g.start := by
    rw [Item.rule?, isStart]
    exact Grammar.rule?_of_mem g.start_mem
  obtain ⟨before, shape, _⟩ := reaches.split known
  obtain ⟨production, _, _, right, marked⟩ := g.start_production
  rw [shape, Item.take_of_complete known complete, Rule.symbols, production, right]
  simp [marked]

theorem shift_unique {first second : StateId}
    (firstLists : (generate method g).Lists number symbol (.shift first))
    (secondLists : (generate method g).Lists number symbol (.shift second)) : first = second := by
  obtain ⟨_, _, _, _, _, _, edge⟩ := exists_item_of_lists firstLists
  obtain ⟨_, _, _, _, _, _, otherEdge⟩ := exists_item_of_lists secondLists
  exact Option.some.inj (edge.symm.trans otherEdge)

theorem cell?_epsilon (method : Method) (g : Grammar) (number : StateId) :
    (generate method g).cell? number .epsilon = none := by
  cases found : (generate method g).cell? number .epsilon with
  | none => rfl
  | some cell =>
      obtain ⟨action, inside⟩ := List.exists_mem_of_ne_nil _ (tidy_ofEntries _ _ _ _ _ cell found).1
      have lists : (generate method g).Lists number .epsilon action := ⟨cell, found, inside⟩
      cases action with
      | shift target => exact absurd rfl (proper_of_shift lists).2.2
      | reduce rule => exact absurd rfl (proper_of_reduce lists).2.1.2
      | accept =>
          obtain ⟨_, _, _, _, marked, _⟩ := exists_item_of_lists lists
          exact absurd marked (by decide)

theorem actions_nonterminal (nonterminal : symbol.isTerminal = false) {actions : List Action}
    (found : (generate method g).actions? number symbol = some actions) :
    ∃ target, actions = [.shift target] := by
  have shifts {action : Action} (lists : (generate method g).Lists number symbol action) :
      ∃ target, action = .shift target := by
    cases action with
    | shift target => exact ⟨target, rfl⟩
    | reduce rule =>
        rw [(proper_of_reduce lists).1] at nonterminal
        cases nonterminal
    | accept =>
        obtain ⟨_, _, _, _, rfl, _⟩ := exists_item_of_lists lists
        cases nonterminal
  obtain ⟨cell, cellFound, rfl⟩ := Option.map_eq_some_iff.mp found
  have tidy : (generate method g).Tidy := tidy_ofEntries _ _ _
  obtain ⟨action, inside⟩ := List.exists_mem_of_ne_nil _ (tidy _ _ cell cellFound).1
  have lists : (generate method g).Lists number symbol action := ⟨cell, cellFound, inside⟩
  obtain ⟨target, rfl⟩ := shifts lists
  refine ⟨target, Option.some.inj (found.symm.trans (actions?_of_lists tidy lists ?_))⟩
  intro other otherLists
  obtain ⟨another, rfl⟩ := shifts otherLists
  rw [shift_unique otherLists lists]

/-- The actions of a cell are those that the items of its state justify, in the order of
these items. -/
structure Justified (method : Method) (g : Grammar) (a : Automaton) (items : ItemSet)
    (symbol : Symbol) (actions : List Action) : Prop where
  accept : .accept ∈ actions ↔
    symbol = .endMarker ∧ ∃ item ∈ items, item.isAccepting g = true
  reduce : ∀ rule, .reduce rule ∈ actions ↔ ∃ item ∈ items,
    item.rule = rule ∧ item.isComplete g = true ∧ method.ReducesOn g item symbol
  shift : ∀ target, .shift target ∈ actions ↔ symbol ≠ .endMarker ∧
    (∃ item ∈ items, (item.next? g).map Token.symbol = some symbol) ∧
    ∃ next, a.state? target = some next ∧ next.items.keys = (items.goto g symbol).keys
  ordered : actions = (items.filterMap (method.justified? g a items symbol)).eraseDups

theorem justified_generate (found : (Automaton.build method g).state? number = some state)
    (symbol : Symbol) :
    Justified method g (.build method g) state.items symbol
      (((generate method g).actions? number symbol).getD []) := by
  refine ⟨?_, fun rule => ?_, fun target => ?_, actions_generate found symbol⟩
  · rw [mem_actions_iff, lists_generate found]
    simp only [Method.Entails, and_left_comm, exists_and_left]
  · rw [mem_actions_iff, lists_generate found]
    simp only [Method.Entails, Item.isComplete, Option.isNone_iff_eq_none,
      Method.expects_iff_reducesOn]
  · rw [mem_actions_iff]
    constructor
    · intro lists
      obtain ⟨item, inside, _, next, edge⟩ := (lists_generate found).mp lists
      obtain ⟨proper, source, reached, sourceFound, reachedFound, same⟩ :=
        Automaton.target?_spec edge
      cases found.symm.trans sourceFound
      exact ⟨proper, ⟨item, inside, next⟩, reached, reachedFound, same⟩
    · rintro ⟨proper, ⟨item, inside, next⟩, reached, reachedFound, same⟩
      obtain ⟨token, atDot, rfl⟩ := Option.map_eq_some_iff.mp next
      obtain ⟨other, edge, goto⟩ := Automaton.target?_of_mem found inside atDot proper
      obtain ⟨_, otherFound, otherSame⟩ :=
        (Automaton.growing_build method g).listed.find?_some goto
      obtain rfl : target = other := (Automaton.growing_build method g).listed.eq_of_keys
        reachedFound otherFound (same.trans otherSame.symm)
      refine (lists_generate found).mpr ⟨item, inside, ?_, next, edge⟩
      rw [Bool.eq_false_iff]
      intro accepting
      obtain ⟨_, _, marked, same⟩ := Item.isAccepting_iff.mp accepting
      cases atDot.symm.trans marked
      exact proper same

/-- The cells of a generated table are what the items of their states justify. So a cell has
one shift at most, the end marker is never shifted, ε has no column, the start rule is
never reduced, and in the columns of nonterminals there is a shift and nothing else. -/
theorem generate_justified (found : (Automaton.build method g).state? number = some state)
    (symbol : Symbol) :
    let table := generate method g
    Justified method g (.build method g) state.items symbol
      ((table.actions? number symbol).getD []) ∧
    (∀ first second, table.Lists number symbol (.shift first) →
      table.Lists number symbol (.shift second) → first = second) ∧
    (∀ target, ¬ table.Lists number .endMarker (.shift target)) ∧
    table.cell? number .epsilon = none ∧
    ¬ table.Lists number symbol (.reduce g.start.id) ∧
    (symbol.isTerminal = false → ∀ actions, table.actions? number symbol = some actions →
      ∃ target, actions = [.shift target]) := by
  refine ⟨justified_generate found symbol, fun _ _ => shift_unique, ?_,
    cell?_epsilon method g number, ?_, fun nonterminal _ => actions_nonterminal nonterminal⟩
  · exact fun _ lists => (proper_of_shift lists).1 rfl
  · exact fun lists => (proper_of_reduce lists).2.2 rfl

/-- After `EXPR + EXPR`, a postfix operator meets the finished sum before its own rule. -/
theorem generate_justified_postfix :
    ∃ g state, Grammar.define Samples.operators = .ok g ∧
      (Automaton.build .slr g).state? 9 = some state ∧
      Justified .slr g (.build .slr g) state.items (.terminal "!") [.reduce 1, .shift 6] := by
  have evaluated : (Grammar.define Samples.operators).toOption.any (fun g =>
      ((Automaton.build .slr g).state? 9).isSome ∧
        (generate .slr g).actions? 9 (.terminal "!") = some [.reduce 1, .shift 6]) = true := by
    decide +kernel
  cases defined : Grammar.define Samples.operators with
  | error fault =>
      rw [defined] at evaluated
      cases evaluated
  | ok g =>
      rw [defined] at evaluated
      obtain ⟨reached, actions⟩ := of_decide_eq_true evaluated
      obtain ⟨state, found⟩ := Option.isSome_iff_exists.mp reached
      have justified := (generate_justified found (.terminal "!")).1
      rw [actions] at justified
      exact ⟨g, state, rfl, found, justified⟩

end Table

end ShiftReduce
