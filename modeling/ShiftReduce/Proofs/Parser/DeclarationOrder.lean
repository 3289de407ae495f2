import ShiftReduce.Parser.Basic
import ShiftReduce.Proofs.Automaton.DeclarationOrder
import ShiftReduce.Proofs.Table.Generated

/-! Tables of grammars that differ in the order of their rules have the same cells,
though perhaps in another order, and parsers do not see a difference. -/

namespace ShiftReduce

namespace Grammar.Reordered

variable {method : Method} {g h : Grammar} (reordered : g.Reordered h)

include reordered

theorem reduceLookaheads_perm (plain : g.PlainEnd) (method : Method) (item : Item) :
    (method.reduceLookaheads h item).Perm (method.reduceLookaheads g item) := by
  cases method with
  | lr0 =>
      rw [Method.reduceLookaheads, terminals, reordered.tokens]
      rfl
  | slr =>
      simp only [Method.reduceLookaheads, Item.rule?, reordered.rule?_eq]
      cases g.rule? item.rule with
      | none => rfl
      | some rule => exact perm_getD (reordered.follow?_rel plain rule.left.symbol)
  | lr1 => rfl

theorem filter_itemEntries (plain : g.PlainEnd) (a : Automaton) (number : StateId) (item : Item)
    (state : StateId) (symbol : Symbol) :
    (method.itemEntries h a number item).filter
        (fun entry => entry.state = state ∧ entry.token.symbol = symbol) =
      (method.itemEntries g a number item).filter
        (fun entry => entry.state = state ∧ entry.token.symbol = symbol) := by
  simp only [Method.itemEntries, reordered.isAccepting_eq, reordered.next?_eq]
  split
  · rfl
  · split
    · rw [List.filter_map, List.filter_map]
      congr 1
      -- Each lookahead is entered once, so their order does not show in one cell.
      by_cases here : number = state
      · have distinct := method.nodup_reduceLookaheads h item
        simp only [Function.comp_def, here, true_and]
        rw [Keyed.filter_key distinct, Keyed.filter_key (method.nodup_reduceLookaheads g item),
          Keyed.find?_perm distinct (reordered.reduceLookaheads_perm plain method item)]
      · simp [Function.comp_def, here]
    · rfl

theorem cell?_eq (plain : g.PlainEnd) (method : Method) (state : StateId) (symbol : Symbol) :
    (Table.generate method h).cell? state symbol =
      (Table.generate method g).cell? state symbol := by
  rw [Table.generate, Table.generate, reordered.build_eq plain, Table.ofAutomaton,
    Table.ofAutomaton, Table.ofEntries, Table.ofEntries, Table.cell?_addAll, Table.cell?_addAll,
    List.filter_flatMap, List.filter_flatMap]
  have entries (found : State) :
      (method.stateEntries h (Automaton.build method g) found).filter
          (fun entry => entry.state = state ∧ entry.token.symbol = symbol) =
        (method.stateEntries g (Automaton.build method g) found).filter
          (fun entry => entry.state = state ∧ entry.token.symbol = symbol) := by
    simp only [Method.stateEntries]
    split
    · rfl
    · simp only [List.filter_flatMap, reordered.filter_itemEntries plain]
  simp only [entries]
  rfl

end Grammar.Reordered

namespace Table

variable {table other : Table}

/-- Tables that the machine cannot tell apart. -/
structure Alike (table other : Table) : Prop where
  initial : table.initial = other.initial
  rules : ∀ id, table.rule? id = other.rule? id
  cells : ∀ state symbol, table.cell? state symbol = other.cell? state symbol
  expected : ∀ state, table.expectedTokens state = other.expectedTokens state

theorem alike_reordered {g h : Grammar} (reordered : g.Reordered h) (plain : g.PlainEnd)
    (method : Method) : (generate method h).Alike (generate method g) := by
  refine ⟨?_, ?_, reordered.cell?_eq plain method, ?_⟩
  · rw [generate_initial, generate_initial]
  · intro id
    rw [generate_rule?, generate_rule?, reordered.rule?_eq]
  · intro state
    exact expectedTokens_congr (indexed_ofEntries _ _ _) (indexed_ofEntries _ _ _)
      (reordered.cell?_eq plain method state)

theorem Alike.lookup_eq (alike : table.Alike other) (state : StateId) (token : Token) :
    table.lookup state token = other.lookup state token := by
  rw [lookup, lookup, alike.cells]

theorem Alike.reduction_eq (alike : table.Alike other) (id : RuleId) (stack : List Frame) :
    table.reduction id stack = other.reduction id stack := by
  simp only [reduction, alike.rules, alike.lookup_eq]

theorem Alike.step_eq (alike : table.Alike other) (configuration : Configuration) :
    table.step configuration = other.step configuration := by
  simp only [step, alike.lookup_eq, alike.reduction_eq, alike.expected]

theorem Alike.parseFrom_eq {σ : Type} (alike : table.Alike other) (handlers : Handlers σ)
    (limit : Nat) (configuration : Configuration) (state : σ) :
    Parser.parseFrom { table, handlers } limit configuration state =
      Parser.parseFrom { table := other, handlers } limit configuration state := by
  induction limit generalizing configuration state with
  | zero => rfl
  | succ limit ih => simp only [Parser.parseFrom, alike.step_eq, ih]

theorem Alike.parse_eq {σ : Type} (alike : table.Alike other) (handlers : Handlers σ)
    (limit : Nat) (input : List Token) (state : σ) :
    Parser.parse { table, handlers } limit input state =
      Parser.parse { table := other, handlers } limit input state := by
  simp only [Parser.parse, start, alike.initial, alike.parseFrom_eq]

end Table

namespace Grammar

/-- Rules and tokens can be declared in any order: the grammar has the same sets of
symbols, each method gives the same automaton and the same cells, and the parsers
do the same on every input. -/
theorem build_reordered {start : Rule} {rules otherRules : List Rule}
    {tokens otherTokens : List Token} {g : Grammar} (distinct : (tokens.map Token.symbol).Nodup)
    (plain : ∀ token ∈ tokens, token.symbol = .endMarker → token = .endMarker)
    (built : build start rules tokens = .ok g) (rulesPerm : rules.Perm otherRules)
    (tokensPerm : tokens.Perm otherTokens) :
    ∃ h, build start otherRules otherTokens = .ok h ∧
      (∀ symbol, h.isNullable symbol = g.isNullable symbol ∧
        Option.Rel List.Perm (h.first? symbol) (g.first? symbol) ∧
        Option.Rel List.Perm (h.follow? symbol) (g.follow? symbol)) ∧
      ∀ method, Automaton.build method h = Automaton.build method g ∧
        (∀ state symbol, (Table.generate method h).actions? state symbol =
          (Table.generate method g).actions? state symbol) ∧
        (∀ state token, (Table.generate method h).lookup state token =
          (Table.generate method g).lookup state token) ∧
        (∀ state, (Table.generate method h).expectedTokens state =
          (Table.generate method g).expectedTokens state) ∧
        ∀ (σ : Type) (handlers : Handlers σ) (limit : Nat) (input : List Token) (initial : σ),
          Parser.parse { table := .generate method h, handlers } limit input initial =
            Parser.parse { table := .generate method g, handlers } limit input initial := by
  obtain ⟨h, otherBuilt, reordered⟩ := exists_reordered distinct built rulesPerm tokensPerm
  have plainEnd : g.PlainEnd := by
    intro token member
    rw [(build_eq_ok built).1] at member
    exact plain token (Sorted.mem_of_mem_ofList member)
  refine ⟨h, otherBuilt, ?_, fun method => ?_⟩
  · exact fun symbol => ⟨reordered.isNullable_eq symbol, reordered.first?_rel symbol,
      reordered.follow?_rel plainEnd symbol⟩
  · have alike := Table.alike_reordered reordered plainEnd method
    refine ⟨reordered.build_eq plainEnd method, ?_, alike.lookup_eq, alike.expected, ?_⟩
    · intro state symbol
      rw [Table.actions?, Table.actions?, alike.cells]
    · exact fun σ handlers limit input initial => alike.parse_eq handlers limit input initial

/-- Sums with a left-associative operator, declared from the last rule and token to the
first. -/
theorem build_reordered_sum :
    let s := Token.nonterminal "S"
    let e := Token.nonterminal "E"
    let x := Token.terminal "x"
    let plus := Token.operator "+" .left
    let start : Rule := { id := 0, left := s, right := [e, .endMarker] }
    let rules : List Rule :=
      [start, { id := 1, left := e, right := [e, plus, e] }, { id := 2, left := e, right := [x] }]
    let tokens := [.endMarker, s, e, x, plus]
    ∃ g h, build start rules tokens = .ok g ∧ build start rules.reverse tokens.reverse = .ok h ∧
      Automaton.build .lr1 h = Automaton.build .lr1 g ∧
      ∀ state token, (Table.generate .lr1 h).lookup state token =
        (Table.generate .lr1 g).lookup state token := by
  intro s e x plus start rules tokens
  have succeeds : (build start rules tokens).isOk = true := by decide +kernel
  cases built : build start rules tokens with
  | error fault =>
      rw [built] at succeeds
      cases succeeds
  | ok g =>
      obtain ⟨h, otherBuilt, _, methods⟩ := build_reordered (by decide) (by decide) built
        rules.reverse_perm.symm tokens.reverse_perm.symm
      exact ⟨g, h, rfl, otherBuilt, (methods .lr1).1, (methods .lr1).2.2.1⟩

end Grammar

end ShiftReduce
