import ShiftReduce.Table.Generate
import ShiftReduce.Proofs.Automaton.Construction
import ShiftReduce.Proofs.Grammar.Follow
import ShiftReduce.Proofs.Table.Cells

/-! The cells of a generated table: a state lists an action exactly if an item
reached along a path to it justifies the action. -/

namespace ShiftReduce

namespace Item

variable {g : Grammar} {item other : Item}

theorem isAccepting_congr (same : item.key = other.key) :
    item.isAccepting g = other.isAccepting g := by
  have rules := same
  simp only [key, Prod.mk.injEq] at rules
  rw [isAccepting, isAccepting, next?_congr same, rules.1]

theorem isAccepting_iff : item.isAccepting g = true ↔
    item.rule = g.start.id ∧ ∃ token, item.next? g = some token ∧ token.symbol = .endMarker := by
  simp only [isAccepting, Bool.and_eq_true, decide_eq_true_eq, Option.any_eq_true,
    Token.isEndMarker]

end Item

namespace Method

variable {method : Method} {g : Grammar} {item other : Item} {symbol : Symbol}

/-- Whether a terminal may come after an item, in the eyes of the method. -/
def Expects (method : Method) (g : Grammar) (item : Item) (symbol : Symbol) : Prop :=
  symbol ∈ (method.reduceLookaheads g item).map Token.symbol

theorem expects_congr (same : item.key = other.key) :
    method.Expects g item symbol ↔ method.Expects g other symbol := by
  simp only [Item.key, Prod.mk.injEq] at same
  obtain ⟨rule, _, lookahead⟩ := same
  cases method with
  | lr0 => rfl
  | slr => simp only [Expects, reduceLookaheads, Item.rule?, rule]
  | lr1 =>
      simp only [Expects, reduceLookaheads]
      cases first : item.lookahead <;> cases second : other.lookahead <;> simp_all

theorem expects_slr {rule : Rule} (known : item.rule? g = some rule) :
    Method.slr.Expects g item symbol ↔ g.Follow rule.left.symbol symbol := by
  rw [Grammar.Follow, Family.has_iff_getD, Expects, reduceLookaheads, known]
  rfl

theorem expects_lr1 {token : Token} (carried : item.lookahead = some token) :
    Method.lr1.Expects g item symbol ↔ symbol = token.symbol := by
  simp [Expects, reduceLookaheads, carried]

theorem expects_lr0 :
    Method.lr0.Expects g item symbol ↔ symbol.isTerminal = true ∧ g.Declares symbol := by
  simp only [Expects, reduceLookaheads, Grammar.terminals, Grammar.Declares, List.mem_map,
    List.mem_filter]
  constructor
  · rintro ⟨token, ⟨⟨member, terminal⟩, plain⟩, rfl⟩
    exact ⟨terminal, ⟨token, member, rfl⟩, by simpa [Token.isEpsilon] using plain⟩
  · rintro ⟨terminal, ⟨token, member, rfl⟩, proper⟩
    exact ⟨token, ⟨⟨member, terminal⟩, by simpa [Token.isEpsilon] using proper⟩, rfl⟩

theorem Reaches.terminal_of_expects {path : List Symbol} (reaches : method.Reaches g path item)
    (expects : method.Expects g item symbol) : symbol.isTerminal = true ∧ g.Declares symbol := by
  cases method with
  | lr0 => exact expects_lr0.mp expects
  | slr =>
      obtain ⟨rule, _, known, _⟩ := reaches.rule?
      exact Grammar.terminal_of_follow ((expects_slr known).mp expects)
  | lr1 =>
      rcases reaches.lookahead with ⟨different, _⟩ | ⟨_, token, carried, terminal, declared⟩
      · exact absurd rfl different
      · rw [(expects_lr1 carried).mp expects]
        exact ⟨terminal, declared⟩

theorem nodup_reduceLookaheads (method : Method) (g : Grammar) (item : Item) :
    ((method.reduceLookaheads g item).map Token.symbol).Nodup := by
  cases method with
  | lr0 =>
      refine g.symbols_nodup.sublist (List.Sublist.map _ ?_)
      exact List.filter_sublist.trans List.filter_sublist
  | slr =>
      simp only [reduceLookaheads]
      cases found : (item.rule? g).bind fun rule => g.follow? rule.left.symbol with
      | none => exact List.nodup_nil
      | some set =>
          obtain ⟨rule, _, follow⟩ := Option.bind_eq_some_iff.mp found
          exact g.within_follow.get?_nodup follow
  | lr1 =>
      simp only [reduceLookaheads]
      cases item.lookahead <;> simp

/-- The actions of a state on a symbol that an item entails: accepting, reducing if
it is complete and expects the symbol, or shifting the symbol at its dot. -/
def Entails (method : Method) (g : Grammar) (a : Automaton) (state : StateId) (item : Item)
    (symbol : Symbol) : Action → Prop
  | .accept => symbol = .endMarker ∧ item.isAccepting g = true
  | .reduce rule => item.rule = rule ∧ item.next? g = none ∧ method.Expects g item symbol
  | .shift target => item.isAccepting g = false ∧
      (item.next? g).map Token.symbol = some symbol ∧ a.target? state symbol = some target

theorem entails_congr (same : item.key = other.key) {a : Automaton} {state : StateId}
    {action : Action} :
    method.Entails g a state item symbol action ↔ method.Entails g a state other symbol action := by
  have rules := same
  simp only [Item.key, Prod.mk.injEq] at rules
  cases action <;> simp only [Entails, Item.isAccepting_congr same, Item.next?_congr same,
    expects_congr same, rules.1]

theorem itemEntries_state {a : Automaton} {state : StateId} {entry : Entry}
    (member : entry ∈ method.itemEntries g a state item) : entry.state = state := by
  unfold itemEntries at member
  split at member
  · rw [List.mem_singleton.mp member]
  · split at member
    · obtain ⟨_, _, rfl⟩ := List.mem_map.mp member
      rfl
    · split at member
      · cases member
      · rw [List.mem_singleton.mp member]

theorem exists_itemEntries {a : Automaton} {state : StateId} {action : Action} :
    (∃ entry ∈ method.itemEntries g a state item,
      entry.token.symbol = symbol ∧ entry.action = action) ↔
      method.Entails g a state item symbol action := by
  unfold itemEntries
  by_cases accepting : item.isAccepting g = true
  · obtain ⟨_, token, next, _⟩ := Item.isAccepting_iff.mp accepting
    cases action <;> simp [Entails, accepting, next, Token.endMarker, eq_comm]
  · rw [if_neg accepting]
    cases next : item.next? g with
    | none =>
        cases action with
        | shift target => simp [Entails, next]
        | accept => simp [Entails, accepting]
        | reduce rule =>
            simp only [List.mem_map, Entails, next, true_and, Expects]
            constructor
            · rintro ⟨_, ⟨token, inside, rfl⟩, rfl, same⟩
              exact ⟨Action.reduce.inj same, token, inside, rfl⟩
            · rintro ⟨rfl, token, inside, rfl⟩
              exact ⟨_, ⟨token, inside, rfl⟩, rfl, rfl⟩
    | some token =>
        cases action with
        | reduce rule => cases edge : a.target? state token.symbol <;> simp [Entails, next, edge]
        | accept => cases edge : a.target? state token.symbol <;> simp [Entails, accepting, edge]
        | shift target =>
            have plain : item.isAccepting g = false := by simpa using accepting
            simp only [Entails, plain, next, Option.map_some, Option.some.injEq, true_and]
            constructor
            · rintro ⟨entry, inside, rfl, same⟩
              cases edge : a.target? state token.symbol with
              | none => simp [edge] at inside
              | some found =>
                  simp only [edge, List.mem_singleton] at inside
                  subst inside
                  exact ⟨rfl, edge.trans (congrArg some (Action.shift.inj same))⟩
            · rintro ⟨rfl, edge⟩
              simp [edge]

end Method

namespace Table

variable {method : Method} {g : Grammar} {path : List Symbol} {state : StateId}
  {symbol : Symbol} {action : Action}

theorem generate_rule? (method : Method) (g : Grammar) (id : RuleId) :
    (generate method g).rule? id = g.rule? id := by
  rw [rule?, generate, ofAutomaton, ofEntries, rules_addAll, rules_empty .initial g.ids_nodup]
  rfl

theorem generate_initial (method : Method) (g : Grammar) :
    (generate method g).initial = .initial := by
  rw [generate, ofAutomaton, ofEntries, initial_addAll]
  rfl

theorem exists_item_of_lists (lists : (generate method g).Lists state symbol action) :
    ∃ found, (Automaton.build method g).state? state = some found ∧ ∃ item ∈ found.items,
      method.Entails g (Automaton.build method g) state item symbol action := by
  rw [generate, ofAutomaton, lists_ofEntries] at lists
  obtain ⟨entry, inside, rfl, rfl, rfl⟩ := lists
  obtain ⟨found, member, inState⟩ := List.mem_flatMap.mp inside
  obtain ⟨number, numbered, atNumber⟩ :=
    (Automaton.growing_build method g).listed.state?_of_mem member
  rw [Method.stateEntries, numbered] at inState
  obtain ⟨item, itemMember, inItem⟩ := List.mem_flatMap.mp inState
  rw [← Method.itemEntries_state inItem] at atNumber inItem
  exact ⟨found, atNumber, item, itemMember,
    Method.exists_itemEntries.mp ⟨entry, inItem, rfl, rfl⟩⟩

theorem lists_generate {found : State}
    (atState : (Automaton.build method g).state? state = some found) :
    (generate method g).Lists state symbol action ↔ ∃ item ∈ found.items,
      method.Entails g (Automaton.build method g) state item symbol action := by
  constructor
  · intro lists
    obtain ⟨other, atOther, entailed⟩ := exists_item_of_lists lists
    cases atOther.symm.trans atState
    exact entailed
  · rintro ⟨item, itemMember, entails⟩
    obtain ⟨entry, inItem, rfl, rfl⟩ := Method.exists_itemEntries.mpr entails
    obtain ⟨member, numbered⟩ :=
      (Automaton.growing_build method g).listed.number_of_state? atState
    rw [generate, ofAutomaton, lists_ofEntries]
    refine ⟨entry, List.mem_flatMap.mpr ⟨found, member, ?_⟩, Method.itemEntries_state inItem,
      rfl, rfl⟩
    rw [Method.stateEntries, numbered]
    exact List.mem_flatMap.mpr ⟨item, itemMember, inItem⟩

/-- The state at the end of a path lists what the items reached along it entail. -/
theorem lists_iff_reaches (leads : (Automaton.build method g).Leads path state) :
    (generate method g).Lists state symbol action ↔ ∃ item, method.Reaches g path item ∧
      method.Entails g (Automaton.build method g) state item symbol action := by
  obtain ⟨found, atState, represents⟩ := leads.represents
  rw [lists_generate atState]
  constructor
  · rintro ⟨item, member, entails⟩
    obtain ⟨other, same, reaches⟩ := (represents item).mp (ItemSet.has_of_mem member)
    exact ⟨other, reaches, (Method.entails_congr same).mpr entails⟩
  · rintro ⟨item, reaches, entails⟩
    obtain ⟨own, member, same⟩ := List.mem_map.mp ((represents item).mpr ⟨item, rfl, reaches⟩)
    exact ⟨own, member, (Method.entails_congr same).mpr entails⟩

theorem lists_shift (leads : (Automaton.build method g).Leads path state) {item : Item}
    (reaches : method.Reaches g path item) {token : Token} (next : item.next? g = some token)
    (proper : token.symbol ≠ .endMarker) :
    ∃ target, (Automaton.build method g).target? state token.symbol = some target ∧
      (generate method g).Lists state token.symbol (.shift target) := by
  obtain ⟨target, edge⟩ := leads.target? reaches next proper
  refine ⟨target, edge, (lists_iff_reaches leads).mpr ⟨item, reaches, ?_, by rw [next]; rfl, edge⟩⟩
  rw [Bool.eq_false_iff]
  intro accepting
  obtain ⟨_, _, found, marker⟩ := Item.isAccepting_iff.mp accepting
  cases next.symm.trans found
  exact proper marker

end Table

end ShiftReduce
