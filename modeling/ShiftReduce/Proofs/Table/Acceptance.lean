import ShiftReduce.Proofs.Automaton.GotoGraph
import ShiftReduce.Proofs.Lookahead.ValidItems

/-! One way to accept. Items of the start rule come from the initial item alone if its
left-hand side is on no right-hand side, so the path to an accepting item is the start
rule itself, and only one state is at the end of it. -/

namespace ShiftReduce

theorem Grammar.start_symbols (g : Grammar) :
    g.start.symbols = g.start.right.dropLast.map Token.symbol ++ [.endMarker] := by
  obtain ⟨production, before, last, right, marked⟩ := g.start_production
  rw [Rule.symbols, production, right, List.dropLast_concat, List.map_append, List.map_singleton,
    marked]

namespace Method

variable {method : Method} {g : Grammar} {path : List Symbol} {item : Item}

theorem Reaches.path_of_start (reaches : method.Reaches g path item) (augmented : g.Augmented)
    (known : item.rule? g = some g.start) : path = g.start.symbols.take item.dot := by
  obtain ⟨before, shape, front⟩ := reaches.split known
  rcases front.origin rfl with ⟨rfl, _⟩ | ⟨parent, reached, expanded⟩
  · exact shape
  · obtain ⟨_, rule, _, ruleKnown, token, next, left⟩ := expand_rule? expanded
    cases known.symm.trans ruleKnown
    obtain ⟨parentRule, member, parentKnown, _⟩ := reached.rule?
    have inside := List.mem_of_getElem? (Item.getElem?_of_next parentKnown next)
    exact absurd left (augmented.fresh parentRule member token (Rule.mem_right inside))

theorem Reaches.path_of_accepting (reaches : method.Reaches g path item)
    (augmented : g.Augmented) (accepting : item.isAccepting g = true) :
    path ++ [.endMarker] = g.start.symbols := by
  obtain ⟨isStart, token, next, marker⟩ := Item.isAccepting_iff.mp accepting
  have known : item.rule? g = some g.start := by
    rw [Item.rule?, isStart]
    exact Grammar.rule?_of_mem g.start_mem
  obtain ⟨production, before, last, right, marked⟩ := g.start_production
  have atDot := Item.getElem?_of_next known next
  rw [production, right] at atDot
  have dot : item.dot = before.length := by
    rcases Nat.lt_trichotomy item.dot before.length with early | same | late
    · rw [List.getElem?_append_left early] at atDot
      refine absurd marker (augmented.ending token ?_)
      rw [right, List.dropLast_concat]
      exact List.mem_of_getElem? atDot
    · exact same
    · rw [List.getElem?_eq_none (by simp; omega)] at atDot
      cases atDot
  rw [reaches.path_of_start augmented known, dot, Rule.symbols, production, right]
  simp [marked]

theorem exists_accepting (method : Method) (symbols : path ++ [.endMarker] = g.start.symbols) :
    ∃ item, method.Reaches g path item ∧ item.isAccepting g = true := by
  have known := method.initialItem_rule? g
  have moved := Reaches.initial.advance_to known (method.initialItem_dot g) symbols.symm
  obtain ⟨token, next, marked, _⟩ := Item.next_of_rest (Item.rest_at known symbols.symm)
  exact ⟨_, moved, Item.isAccepting_iff.mpr ⟨method.initialItem_rule g, token, next, marked⟩⟩

end Method

namespace Automaton

variable {method : Method} {g : Grammar} {path : List Symbol} {number : StateId} {state : State}

theorem Leads.isFinal_iff (leads : (build method g).Leads path number)
    (found : (build method g).state? number = some state) :
    state.isFinal = true ↔ ∃ item, method.Reaches g path item ∧ item.isAccepting g = true := by
  obtain ⟨same, sameFound, represents⟩ := leads.represents
  cases found.symm.trans sameFound
  rw [Automaton.isFinal_iff ((growing_build method g).listed.number_of_state? found).1]
  constructor
  · rintro ⟨item, inside, accepting⟩
    obtain ⟨other, key, reaches⟩ := (represents item).mp (ItemSet.has_of_mem inside)
    exact ⟨other, reaches, (Item.isAccepting_congr key).trans accepting⟩
  · rintro ⟨item, reaches, accepting⟩
    obtain ⟨own, inside, key⟩ := List.mem_map.mp ((represents item).mpr ⟨item, rfl, reaches⟩)
    exact ⟨own, inside, (Item.isAccepting_congr key).trans accepting⟩

theorem Leads.path_of_isFinal (augmented : g.Augmented) (leads : (build method g).Leads path number)
    (found : (build method g).state? number = some state) (final : state.isFinal = true) :
    path ++ [.endMarker] = g.start.symbols := by
  obtain ⟨item, reaches, accepting⟩ := (leads.isFinal_iff found).mp final
  exact reaches.path_of_accepting augmented accepting

theorem exists_leads_start (augmented : g.Augmented) (method : Method)
    (symbols : path ++ [.endMarker] = g.start.symbols) :
    ∃ number state, (build method g).Leads path number ∧
      (build method g).state? number = some state ∧ state.isFinal = true := by
  have proper : Symbol.endMarker ∉ path := by
    rw [g.start_symbols, List.append_cancel_right_eq] at symbols
    rw [symbols]
    intro member
    obtain ⟨token, inside, marked⟩ := List.mem_map.mp member
    exact augmented.ending token inside marked
  obtain ⟨item, reaches, accepting⟩ := method.exists_accepting symbols
  obtain ⟨number, leads⟩ := exists_leads reaches proper
  obtain ⟨state, found, _⟩ := leads.represents
  exact ⟨number, state, leads, found, (leads.isFinal_iff found).mpr ⟨item, reaches, accepting⟩⟩

theorem Leads.eq_of_isFinal (augmented : g.Augmented) {final : StateId}
    (leads : (build method g).Leads path final)
    (symbols : path ++ [.endMarker] = g.start.symbols)
    (found : (build method g).state? number = some state) (flagged : state.isFinal = true) :
    number = final := by
  obtain ⟨other, otherLeads⟩ := exists_leads_to found
  have same := otherLeads.path_of_isFinal augmented found flagged
  rw [← symbols, List.append_cancel_right_eq] at same
  subst same
  exact otherLeads.unique leads

end Automaton

namespace Table

variable {method : Method} {g : Grammar} {number : StateId} {symbol : Symbol}

theorem lists_accept : (generate method g).Lists number symbol .accept ↔
    symbol = .endMarker ∧ ∃ state, (Automaton.build method g).state? number = some state ∧
      state.isFinal = true := by
  have listed := (Automaton.growing_build method g).listed
  constructor
  · intro lists
    obtain ⟨state, found, item, inside, marked, accepting⟩ := exists_item_of_lists lists
    exact ⟨marked, state, found,
      (Automaton.isFinal_iff (listed.number_of_state? found).1).mpr ⟨item, inside, accepting⟩⟩
  · rintro ⟨marked, state, found, flagged⟩
    obtain ⟨item, inside, accepting⟩ :=
      (Automaton.isFinal_iff (listed.number_of_state? found).1).mp flagged
    exact (lists_generate found).mpr ⟨item, inside, marked, accepting⟩

/-- An action that is listed in one cell only is entered once. -/
theorem filter_entries_of_lists {table : Table} (tidy : table.Tidy) (indexed : table.Indexed)
    {action : Action} (lists : table.Lists number symbol action)
    (only : ∀ other column, table.Lists other column action → other = number ∧ column = symbol) :
    ∃ token, token.symbol = symbol ∧
      table.entries.filter (fun entry => entry.action = action) =
        [{ state := number, token, action }] := by
  obtain ⟨cell, found, inside⟩ := lists
  obtain ⟨_, _, _, _, rfl⟩ := mem_of_cell? found
  refine ⟨cell.token, rfl, filter_eq_singleton (nodup_entries tidy indexed)
    (indexed.mem_entries.mpr ⟨cell, found, rfl, inside⟩) (by simp) ?_⟩
  rintro ⟨other, token, entered⟩ member same
  obtain rfl : entered = action := of_decide_eq_true same
  obtain ⟨again, againFound, sameToken, listed⟩ := indexed.mem_entries.mp member
  obtain ⟨rfl, column⟩ := only _ _ ⟨again, againFound, listed⟩
  rw [column, found] at againFound
  cases againFound
  rw [sameToken]

/-- A grammar whose start rule stands above the others is accepted in one way: one state is
final, the start rule up to its end marker is the only path there, and no other entry of the
table accepts. -/
theorem generate_accepts_once (augmented : g.Augmented) (method : Method) :
    ∃ final state marker, (Automaton.build method g).state? final = some state ∧
      (Automaton.build method g).states.filter State.isFinal = [state] ∧
      (∀ path, (Automaton.build method g).Leads path final ↔
        path = g.start.right.dropLast.map Token.symbol) ∧
      marker.symbol = .endMarker ∧
      (generate method g).entries.filter (fun entry => entry.action = .accept) =
        [{ state := final, token := marker, action := .accept }] := by
  have listed := (Automaton.growing_build method g).listed
  have symbols := g.start_symbols.symm
  obtain ⟨final, state, leads, found, flagged⟩ :=
    Automaton.exists_leads_start augmented method symbols
  have alone : (Automaton.build method g).states.filter State.isFinal = [state] := by
    refine filter_eq_singleton (List.Nodup.of_map _ listed.distinct)
      (listed.number_of_state? found).1 flagged fun other member otherFlagged => ?_
    obtain ⟨number, _, otherFound⟩ := listed.state?_of_mem member
    rw [leads.eq_of_isFinal augmented symbols otherFound otherFlagged] at otherFound
    exact Option.some.inj (otherFound.symm.trans found)
  obtain ⟨marker, marked, entered⟩ := filter_entries_of_lists (tidy_ofEntries _ _ _)
    (indexed_ofEntries _ _ _) (lists_accept.mpr ⟨rfl, state, found, flagged⟩)
    (fun other column lists => by
      obtain ⟨columnMarked, _, otherFound, otherFlagged⟩ := lists_accept.mp lists
      exact ⟨leads.eq_of_isFinal augmented symbols otherFound otherFlagged, columnMarked⟩)
  refine ⟨final, state, marker, found, alone, fun path => ⟨fun other => ?_, ?_⟩, marked, entered⟩
  · have whole := other.path_of_isFinal augmented found flagged
    rwa [← symbols, List.append_cancel_right_eq] at whole
  · rintro rfl
    exact leads

/-- The calculator accepts after an expression and nowhere else. -/
theorem generate_accepts_once_expression :
    ∃ final marker, (∀ path, (Automaton.build .lr1 Calculator.grammar).Leads path final ↔
        path = [.nonterminal "E"]) ∧ marker.symbol = .endMarker ∧
      (generate .lr1 Calculator.grammar).entries.filter (fun entry => entry.action = .accept) =
        [{ state := final, token := marker, action := .accept }] := by
  have start : Calculator.grammar.start.right.dropLast.map Token.symbol =
      [.nonterminal "E"] := by
    decide +kernel
  obtain ⟨final, _, marker, _, _, paths, marked, entered⟩ :=
    generate_accepts_once Calculator.grammar_delimited.toAugmented .lr1
  rw [start] at paths
  exact ⟨final, marker, paths, marked, entered⟩

end Table

end ShiftReduce
