import ShiftReduce.Proofs.Grammar.Derivation
import ShiftReduce.Proofs.Table.Generated

/-! What may come after an item. Whatever input an item awaits after the nonterminal
at its dot is awaited by an item that the closure step brings in for it. -/

namespace ShiftReduce

namespace Method

variable {method : Method} {g : Grammar} {item : Item} {symbol : Symbol} {path : List Symbol}
  {later trees : List Tree} {following : List Token}

theorem expects_dot (dot : Nat) :
    method.Expects g { item with dot } symbol ↔ method.Expects g item symbol := by
  cases method <;> rfl

theorem expects_initial (method : Method) (g : Grammar) :
    method.Expects g (method.initialItem g) .endMarker := by
  cases method with
  | lr0 => exact expects_lr0.mpr ⟨rfl, g.declares_endMarker⟩
  | slr => exact (expects_slr (initialItem_rule? .slr g)).mpr g.follow_start
  | lr1 => exact (expects_lr1 rfl).mpr rfl

/-- The input goes on as an item has it: with the leaves of a forest for its last
symbols, or else with a terminal that is expected after it. -/
def Awaits (method : Method) (g : Grammar) (item : Item) (later : List Tree)
    (following : List Token) : Prop :=
  ∃ symbol, method.Expects g item symbol ∧
    following.head?.map Token.symbol = ((Tree.yields later).map Token.symbol ++ [symbol]).head?

theorem Awaits.before (awaits : method.Awaits g item later following) (trees : List Tree) :
    method.Awaits g item (trees ++ later) (Tree.yields trees ++ following) := by
  obtain ⟨symbol, expects, head⟩ := awaits
  refine ⟨symbol, expects, ?_⟩
  cases leaves : Tree.yields trees with
  | nil => simpa [leaves] using head
  | cons token rest => simp [leaves]

theorem awaits_dot (dot : Nat) :
    method.Awaits g { item with dot } later following ↔ method.Awaits g item later following := by
  simp only [Awaits, expects_dot]

/-- What can come after a nonterminal at the dot is expected after an item that the
closure step brings in: what begins the symbols after it or, if these are nullable,
what is expected after the whole item. -/
theorem Reaches.inherits (reaches : method.Reaches g path item) {own rule : Rule}
    (ownMember : own ∈ g.rules) (known : item.rule? g = some own) (member : rule ∈ g.rules)
    {before after : List Symbol} (symbols : own.symbols = before ++ rule.left.symbol :: after)
    (expects : method.Expects g item symbol) {look : Symbol}
    (begins : g.sets.Leads after look ∨
      (∀ root ∈ after, g.sets.isNullable root = true) ∧ look = symbol) :
    ∃ lookahead ∈ item.inherited g after,
      method.Expects g { rule := rule.id, dot := 0, lookahead } look := by
  have kind := g.left_nonterminal member
  cases method with
  | lr0 =>
      have bare : item.lookahead = none := by simpa using reaches.lookahead
      refine ⟨none, by simp [Item.inherited, bare], expects_lr0.mpr ?_⟩
      rcases begins with leads | ⟨_, rfl⟩
      · exact Grammar.terminal_of_leads leads
      · exact expects_lr0.mp expects
  | slr =>
      have bare : item.lookahead = none := by simpa using reaches.lookahead
      let child : Item := { rule := rule.id, dot := 0, lookahead := none }
      have childRule : child.rule? g = some rule := Grammar.rule?_of_mem member
      refine ⟨none, by simp [Item.inherited, bare], (expects_slr childRule).mpr ?_⟩
      rcases begins with leads | ⟨skipped, rfl⟩
      · exact Grammar.follow_of_leads ownMember symbols kind leads
      · exact Grammar.follow_of_left ownMember symbols kind skipped ((expects_slr known).mp expects)
  | lr1 =>
      obtain ⟨carried, lookahead, terminal, declared⟩ := reaches.lookahead_lr1
      have same := (expects_lr1 lookahead).mp expects
      have leads : g.sets.Leads (after ++ [carried.symbol]) look := by
        rcases begins with leads | ⟨skipped, rfl⟩
        · exact leads.append _
        · rw [same]
          exact ⟨after, carried.symbol, [], rfl, skipped, Grammar.first_self declared terminal,
            declared.2⟩
      obtain ⟨inherited, found, inside⟩ := Item.inherited_of_leads lookahead leads
      exact ⟨some inherited, inside, (expects_lr1 rfl).mpr found.symm⟩

theorem Reaches.expand_awaits (reaches : method.Reaches g path item) {token : Token}
    (next : item.next? g = some token) {rule : Rule} (member : rule ∈ g.rules)
    (left : rule.left.symbol = token.symbol) (valid : ∀ tree ∈ later, tree.Valid g)
    (roots : later.map (·.root.symbol) = (item.advance.rest g).map Token.symbol)
    (terminals : ∀ token ∈ Tree.yields later, token.isTerminal = true)
    (awaits : method.Awaits g item later following) :
    ∃ child ∈ item.expand g, child.rule? g = some rule ∧ child.dot = 0 ∧
      method.Awaits g child [] following := by
  obtain ⟨symbol, expects, head⟩ := awaits
  obtain ⟨own, ownMember, known, _⟩ := reaches.rule?
  have symbols := Item.symbols_of_next known next
  rw [← roots, ← left] at symbols
  have declared : ∀ root ∈ later.map (·.root.symbol), g.Declares root := by
    intro root inside
    apply Grammar.declares_of_mem_symbols ownMember
    rw [symbols]
    exact List.mem_append_right _ (List.mem_cons_of_mem _ inside)
  obtain ⟨look, looked, begins⟩ := Grammar.leads_or_nullable valid declared terminals symbol
  obtain ⟨lookahead, inside, expected⟩ :=
    reaches.inherits ownMember known member symbols expects begins
  rw [roots] at inside
  refine ⟨{ rule := rule.id, dot := 0, lookahead }, ?_, Grammar.rule?_of_mem member, rfl, look,
    expected, ?_⟩
  · refine Item.mem_expand.mpr ⟨token, _, Item.rest_of_next next, ?_, rule, member, left,
      lookahead, inside, rfl⟩
    rw [Token.isTerminal, ← left]
    exact g.left_nonterminal member
  · rw [head, looked]
    rfl

end Method

end ShiftReduce
