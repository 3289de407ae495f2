import ShiftReduce.Proofs.Automaton.DeclarationOrder
import ShiftReduce.Proofs.Table.Generated

/-! Choices of generated tables fall by declared associativity. Whatever set or row a token
comes through on its way into a cell, it is the one that was declared, payload
included. The end marker is apart: the construction brings it in by itself. -/

namespace ShiftReduce

namespace Assoc

/-- What a choice between a shift and a reduction falls on. -/
def choice (assoc : Assoc) (target : StateId) (rule : RuleId) : Action :=
  if assoc = left ∨ assoc = post then .reduce rule else .shift target

theorem choice_eq (assoc : Assoc) (target : StateId) (rule : RuleId) :
    (if assoc.prefersReduce then .reduce rule else .shift target) = assoc.choice target rule := by
  cases assoc <;> rfl

end Assoc

theorem shiftReduce?_of_perm {actions : List Action} {target : StateId} {rule : RuleId}
    (pair : actions.Perm [.shift target, .reduce rule]) :
    shiftReduce? actions = some (target, rule) := by
  obtain ⟨first, second, rfl⟩ := List.length_eq_two.mp pair.length_eq
  have either := pair.mem_iff.mp List.mem_cons_self
  simp only [List.mem_cons, List.not_mem_nil, or_false] at either
  rcases either with rfl | rfl
  · obtain rfl : second = .reduce rule := by simpa using (List.perm_cons _).mp pair
    rfl
  · have swapped := pair.trans (List.Perm.swap _ _ [])
    obtain rfl : second = .shift target := by simpa using (List.perm_cons _).mp swapped
    rfl

theorem Cell.resolve_congr {cell : Cell} {first second : Token}
    (same : cell.assocFor first = cell.assocFor second) :
    cell.resolve first = cell.resolve second := by
  rw [resolve, resolve, same]

theorem Cell.resolve_pair {cell : Cell} {target : StateId} {rule : RuleId}
    (pair : cell.actions.Perm [.shift target, .reduce rule]) (input : Token) :
    cell.resolve input = match cell.assocFor input with
      | some assoc => .ok (some (assoc.choice target rule))
      | none => .error (.unresolvableConflict cell.token cell.actions) := by
  have two := pair.length_eq
  unfold resolve
  split
  · rename_i nothing
    simp [nothing] at two
  · rename_i single
    simp [single] at two
  · rw [shiftReduce?_of_perm pair]
    cases cell.assocFor input with
    | none => rfl
    | some assoc => simp only [assoc.choice_eq]

variable {method : Method} {g : Grammar} {item : Item}

/-- The lookahead is as it was declared, unless it is the end marker. -/
def Item.Faithful (g : Grammar) (item : Item) : Prop :=
  ∀ token, item.lookahead = some token → token.symbol ≠ .endMarker → token ∈ g.tokens

theorem Item.faithful_of_mem_expand {next : Item} (member : next ∈ item.expand g) :
    next.Faithful g := by
  intro token carried _
  rcases Grammar.mem_pool.mp (drawn_of_mem_expand member token carried) with rfl | ⟨declared, _⟩
  · obtain ⟨_, _, _, _, _, _, _, lookahead, inside, rfl⟩ := mem_expand.mp member
    cases carried
    rcases mem_inherited inside with ⟨_, bare⟩ | ⟨_, found, _, same, leads⟩
    · cases bare
    · cases same
      exact absurd rfl (Grammar.terminal_of_leads leads).2.2
  · exact declared

theorem Item.faithful_closure {items : List Item} (faithful : ∀ item ∈ items, item.Faithful g) :
    ∀ item ∈ ItemSet.closure g items, item.Faithful g :=
  ItemSet.closure_induction (Item.Faithful g) faithful fun _ _ _ => faithful_of_mem_expand

theorem Automaton.faithful_of_mem {state : State} (member : state ∈ (build method g).states) :
    ∀ item ∈ state.items, item.Faithful g := by
  refine build_induction (motive := fun state => ∀ item ∈ state.items, item.Faithful g)
    (fun _ _ faithful => faithful) ?_ ?_ state member
  · refine Item.faithful_closure fun item single => ?_
    rw [List.mem_singleton.mp single]
    intro token carried proper
    cases method with
    | lr0 => cases carried
    | slr => cases carried
    | lr1 =>
        cases carried
        exact absurd rfl proper
  · intro state faithful token _ _
    refine Item.faithful_closure fun item moved => ?_
    obtain ⟨before, inside, rfl⟩ := List.mem_map.mp moved
    exact faithful before (List.mem_filter.mp inside).1

theorem Method.mem_tokens_of_lookahead (faithful : item.Faithful g) {token : Token}
    (member : token ∈ method.reduceLookaheads g item) (proper : token.symbol ≠ .endMarker) :
    token ∈ g.tokens := by
  cases method with
  | lr0 => exact (List.mem_filter.mp (List.mem_filter.mp member).1).1
  | lr1 => exact faithful token (Option.mem_toList.mp member) proper
  | slr =>
      have drawn : g.sets.follow.Drawn (g.nonterminals.map Token.symbol) (.endMarker :: g.pool) :=
        Grammar.drawn_follow (fun _ => List.mem_cons_of_mem _) List.mem_cons_self
      have expects : Method.slr.Expects g item token.symbol := List.mem_map_of_mem member
      cases known : item.rule? g with
      | none => simp [reduceLookaheads, known] at member
      | some rule =>
          cases follow : g.follow? rule.left.symbol with
          | none => simp [reduceLookaheads, known, follow] at member
          | some set =>
              have inside : token ∈ set := by
                simpa [reduceLookaheads, known, follow] using member
              rcases List.mem_cons.mp (drawn.get?_some follow token inside) with rfl | pooled
              · exact absurd rfl proper
              · rcases Grammar.mem_pool.mp pooled with rfl | ⟨declared, _⟩
                · exact absurd rfl (Grammar.terminal_of_follow ((expects_slr known).mp expects)).2.2
                · exact declared

theorem Method.mem_tokens_of_entry (faithful : item.Faithful g) {a : Automaton} {number : StateId}
    {entry : Entry} (member : entry ∈ method.itemEntries g a number item)
    (proper : entry.token.symbol ≠ .endMarker) : entry.token ∈ g.tokens := by
  unfold itemEntries at member
  split at member
  · rw [List.mem_singleton.mp member] at proper
    exact absurd rfl proper
  · split at member
    · obtain ⟨token, inside, rfl⟩ := List.mem_map.mp member
      exact mem_tokens_of_lookahead faithful inside proper
    · rename_i token next
      split at member
      · cases member
      · rw [List.mem_singleton.mp member]
        exact (Item.declared_of_next next).1

namespace Table

/-- The token of a cell is the declared one. -/
theorem mem_tokens_of_cell {state : StateId} {symbol : Symbol} {cell : Cell}
    (found : (generate method g).cell? state symbol = some cell) (proper : symbol ≠ .endMarker) :
    cell.token ∈ g.tokens := by
  rw [generate, ofAutomaton, cell?_ofEntries] at found
  obtain ⟨entry, first, rfl⟩ := Option.map_eq_some_iff.mp found
  obtain ⟨entered, here⟩ := List.mem_filter.mp (List.mem_of_head? first)
  obtain ⟨known, member, inState⟩ := List.mem_flatMap.mp entered
  obtain ⟨number, numbered, _⟩ := (Automaton.growing_build method g).listed.state?_of_mem member
  rw [Method.stateEntries, numbered] at inState
  obtain ⟨item, inside, inItem⟩ := List.mem_flatMap.mp inState
  refine Method.mem_tokens_of_entry (Automaton.faithful_of_mem member item inside) inItem ?_
  rw [(of_decide_eq_true here).2]
  exact proper

variable {declared : Token}

theorem token_of_cell {state : StateId} (member : declared ∈ g.tokens)
    (proper : declared.symbol ≠ .endMarker) {cell : Cell}
    (found : (generate method g).cell? state declared.symbol = some cell) :
    cell.token = declared := by
  obtain ⟨_, _, _, _, same⟩ := mem_of_cell? found
  exact List.inj_on_of_nodup_map g.symbols_nodup (mem_tokens_of_cell found proper) member same

theorem lookup_of_pair {state : StateId} (member : declared ∈ g.tokens)
    (proper : declared.symbol ≠ .endMarker) {actions : List Action} {target : StateId}
    {rule : RuleId} (cell : (generate method g).actions? state declared.symbol = some actions)
    (pair : actions.Perm [.shift target, .reduce rule]) {input : Token}
    (same : input.symbol = declared.symbol) :
    (generate method g).lookup state input =
      match declared.assoc <|> input.assoc with
      | some assoc => .ok (some (assoc.choice target rule))
      | none => .error (.unresolvableConflict declared actions) := by
  obtain ⟨cell, found, rfl⟩ := Option.map_eq_some_iff.mp cell
  rw [lookup, same, found]
  simp only [Cell.resolve_pair pair, Cell.assocFor, token_of_cell member proper found]

/-- A token of the grammar but the end marker is in the table as it was declared: with the
payload of the last token for it among those the grammar was built from. Declared
associativity alone settles its choices, and that of the input where none was
declared. -/
theorem generate_associativity (method : Method) (member : declared ∈ g.tokens)
    (proper : declared.symbol ≠ .endMarker) :
    let table := generate method g
    (∀ start rules tokens, Grammar.build start rules tokens = .ok g →
      tokens.reverse.find? (fun token => token.symbol = declared.symbol) = some declared) ∧
    (∀ row ∈ table.rows, ∀ cell ∈ row.cells, cell.token.symbol = declared.symbol →
      cell.token = declared) ∧
    (declared.assoc ≠ none → ∀ state first second, first.symbol = declared.symbol →
      second.symbol = declared.symbol → table.lookup state first = table.lookup state second) ∧
    ∀ state actions target rule, table.actions? state declared.symbol = some actions →
      actions.Perm [.shift target, .reduce rule] → ∀ input, input.symbol = declared.symbol →
      (∀ assoc, declared.assoc = some assoc →
        table.lookup state input = .ok (some (assoc.choice target rule))) ∧
      (declared.assoc = none →
        (∀ assoc, input.assoc = some assoc →
          table.lookup state input = .ok (some (assoc.choice target rule))) ∧
        (input.assoc = none →
          table.lookup state input = .error (.unresolvableConflict declared actions))) := by
  intro table
  refine ⟨?_, ?_, ?_, ?_⟩
  · intro start rules tokens built
    rw [(Grammar.build_eq_ok built).1] at member
    exact Token.find?_of_mem_sorted member
  · intro row rowMember cell inside same
    have found := (indexed_ofEntries _ _ _ : table.Indexed).cell?_of_mem rowMember inside
    rw [Cell.symbol, same] at found
    exact token_of_cell member proper found
  · intro associates state first second firstSame secondSame
    rw [lookup, lookup, firstSame, secondSame]
    cases found : table.cell? state declared.symbol with
    | none => rfl
    | some cell =>
        obtain ⟨assoc, declares⟩ := Option.ne_none_iff_exists'.mp associates
        apply Cell.resolve_congr
        rw [Cell.assocFor, Cell.assocFor, token_of_cell member proper found, declares]
        rfl
  · intro state actions target rule cell pair input same
    have result := lookup_of_pair member proper cell pair same
    refine ⟨fun assoc declares => ?_, fun undeclared => ⟨fun assoc carries => ?_, fun bare => ?_⟩⟩
    · rw [result, declares]
      rfl
    · rw [result, undeclared, carries]
      rfl
    · rw [result, undeclared, bare]
      rfl

/-- The operator of the sum is declared twice, and right-associative in its rule: the last
declaration decides, whatever the input carries. -/
theorem generate_associativity_sum :
    let s := Token.nonterminal "S"
    let e := Token.nonterminal "E"
    let x := Token.terminal "x"
    let plus := Token.operator "+" .left
    let start : Rule := { id := 0, left := s, right := [e, .endMarker] }
    let sum : Rule := { id := 1, left := e, right := [e, .operator "+" .right, e] }
    let rules : List Rule := [start, sum, { id := 2, left := e, right := [x] }]
    ∃ g, Grammar.build start rules [.endMarker, s, e, x, .terminal "+", plus] = .ok g ∧
      ∀ input, input.symbol = .terminal "+" →
        (generate .slr g).lookup 5 input = .ok (some (.reduce 1)) := by
  intro s e x plus start sum rules
  have evaluated : (Grammar.build start rules
      [.endMarker, s, e, x, .terminal "+", plus]).toOption.any (fun g => plus ∈ g.tokens ∧
        (generate .slr g).actions? 5 (.terminal "+") = some [.shift 4, .reduce 1]) = true := by
    decide +kernel
  cases built : Grammar.build start rules [.endMarker, s, e, x, .terminal "+", plus] with
  | error fault =>
      rw [built] at evaluated
      cases evaluated
  | ok g =>
      rw [built] at evaluated
      obtain ⟨member, actions⟩ := of_decide_eq_true evaluated
      obtain ⟨_, _, _, choices⟩ := generate_associativity .slr member (by decide)
      refine ⟨g, rfl, fun input same => ?_⟩
      exact (choices 5 _ 4 1 actions (List.Perm.refl _) input same).1 .left rfl

end Table

end ShiftReduce
