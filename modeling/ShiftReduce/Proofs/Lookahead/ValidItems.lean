import ShiftReduce.Calculator.Basic
import ShiftReduce.Proofs.Lookahead.Followed

/-! The canonical collection holds exactly the valid items: those that rightmost
derivations bring to the end of a path. -/

namespace ShiftReduce

/-- An item is valid for a path if the path ends with the symbols before its dot and a
rightmost derivation has its left-hand side in their place, with the lookahead first
among the terminals after it. The start rule is valid from the beginning, with the
end marker for lookahead. -/
inductive Grammar.ValidItem (g : Grammar) :
    List Symbol → Rule → List Symbol → List Symbol → Symbol → Prop
  | start {front back : List Symbol} : g.start.symbols = front ++ back →
      ValidItem g front g.start front back .endMarker
  | inner {rule : Rule} {before front back word : List Symbol} {look : Symbol} :
      rule ∈ g.rules → rule.symbols = front ++ back →
      g.RightDerives g.start.symbols (before ++ rule.left.symbol :: word) →
      (∀ symbol ∈ word, symbol.isTerminal = true) → word.head? = some look →
      ValidItem g (before ++ front) rule front back look

namespace Method

variable {method : Method} {g : Grammar} {path : List Symbol} {item : Item} {rule : Rule}
  {look : Symbol}

/-- The lookahead as the items of a method have it: those of LR(0) and SLR have none. -/
def carried : Method → Symbol → Option Symbol
  | lr0, _ => none
  | slr, _ => none
  | lr1, look => some look

theorem Reaches.key_eq (reaches : method.Reaches g path item) (known : item.rule? g = some rule)
    (expects : method.Expects g item look) :
    item.key = (rule.id, item.dot, method.carried look) := by
  have lookahead : item.lookahead.map Token.symbol = method.carried look := by
    rcases reaches.lookahead with ⟨different, bare⟩ | ⟨rfl, token, carries, _⟩
    · rw [bare]
      cases method with
      | lr0 => rfl
      | slr => rfl
      | lr1 => exact absurd rfl different
    · rw [carries, (expects_lr1 carries).mp expects]
      rfl
  rw [Item.key, lookahead, (Grammar.mem_of_rule? known).2]

theorem Reaches.advance_to (reaches : method.Reaches g path item)
    (known : item.rule? g = some rule) (start : item.dot = 0) {front back : List Symbol}
    (symbols : rule.symbols = front ++ back) :
    method.Reaches g (path ++ front) { item with dot := front.length } := by
  induction front using List.reverseRecOn generalizing back with
  | nil =>
      rw [List.append_nil, List.length_nil, ← start]
      exact reaches
  | append_singleton front symbol ih =>
      rw [List.append_assoc, List.singleton_append] at symbols
      have before := ih symbols
      obtain ⟨token, next, rfl, _⟩ := Item.next_of_rest (Item.rest_at known symbols)
      have moved := before.advance next
      rw [List.append_assoc] at moved
      rw [List.length_append]
      exact moved

/-- A nonterminal in the production of an item brings in items that expect what can
come after it there. -/
theorem Reaches.child (reaches : method.Reaches g path item) {own : Rule}
    (known : item.rule? g = some own) (start : item.dot = 0) {front back word : List Symbol}
    (member : rule ∈ g.rules) (symbols : own.symbols = front ++ rule.left.symbol :: back)
    (derives : g.Derives back word) (terminals : ∀ symbol ∈ word, symbol.isTerminal = true)
    {symbol : Symbol} (expects : method.Expects g item symbol)
    (head : (word ++ [symbol]).head? = some look) :
    ∃ child, method.Reaches g (path ++ front) child ∧ child.rule? g = some rule ∧ child.dot = 0 ∧
      method.Expects g child look := by
  have moved := reaches.advance_to known start symbols
  obtain ⟨token, next, left, rest⟩ := Item.next_of_rest (Item.rest_at known symbols)
  obtain ⟨trees, valid, roots, leaves⟩ := derives.plainForest
  have awaits : method.Awaits g { item with dot := front.length } trees
      ((word ++ [symbol]).map Token.plain) := by
    refine ⟨symbol, (expects_dot _).mpr expects, ?_⟩
    rw [leaves, Token.map_symbol_plain, ← List.head?_map, Token.map_symbol_plain]
  obtain ⟨child, inside, childKnown, childDot, expected, childExpects, looked⟩ :=
    moved.expand_awaits next member left.symm valid (by rw [roots, rest])
      (by simpa [leaves, Token.isTerminal] using terminals) awaits
  rw [← List.head?_map, Token.map_symbol_plain, head] at looked
  obtain rfl : look = expected := Option.some.inj looked
  exact ⟨child, moved.expand inside, childKnown, childDot, childExpects⟩

/-- Wherever a rightmost derivation has a nonterminal, its rules are reached along what
stands before it and expect what the symbols after it begin with. -/
theorem reaches_of_rightDerives (method : Method) {form : List Symbol}
    (rightmost : g.RightDerives g.start.symbols form) (member : rule ∈ g.rules)
    {before after word : List Symbol} (shape : form = before ++ rule.left.symbol :: after)
    (derives : g.Derives after word) (terminals : ∀ symbol ∈ word, symbol.isTerminal = true)
    (head : word.head? = some look) :
    ∃ item, method.Reaches g before item ∧ item.rule? g = some rule ∧ item.dot = 0 ∧
      method.Expects g item look := by
  induction rightmost generalizing rule before after word look with
  | refl =>
      have root := Reaches.initial.child (method.initialItem_rule? g) (method.initialItem_dot g)
        member shape derives terminals (method.expects_initial g)
        (by rw [List.head?_append, head]; rfl)
      simpa using root
  | tail earlier step ih =>
      cases step with
      | @rewrite other front back otherMember backTerminals =>
          have outside : rule.left.symbol ∉ back := by
            intro inside
            have terminal := backTerminals _ inside
            rw [g.left_nonterminal member] at terminal
            cases terminal
          rcases occurrence_cases shape with
            ⟨middle, rfl, rfl⟩ | ⟨left, right, symbols, rfl, rfl⟩ | ⟨middle, rfl, _⟩
          · -- The occurrence is older: what now follows it was derived from what followed it.
            refine ih member (List.append_assoc before _ _) ?_ terminals head
            exact ((Grammar.Derives.rule otherMember).context middle back).trans derives
          · -- The occurrence is new: its rule comes in through the item of the rule applied.
            obtain ⟨near, far, rfl, nearDerived, farDerived⟩ := derives.split
            obtain rfl := farDerived.eq_of_terminals backTerminals
            obtain ⟨symbol, begins⟩ :=
              (Grammar.RightDerives.derives earlier).head?_after otherMember
            obtain ⟨parent, reaches, known, dot, expects⟩ :=
              ih otherMember rfl (Grammar.Derives.refl far) backTerminals begins
            refine reaches.child known dot member symbols nearDerived ?_ expects ?_
            · exact fun symbol inside => terminals symbol (List.mem_append_left _ inside)
            · rw [List.head?_append, begins] at head
              rw [List.head?_append]
              exact head
          · exact absurd (by simp) outside

theorem Followed.valid {after : List Symbol} (followed : method.Followed g path item after)
    (known : item.rule? g = some rule) :
    ∃ look, method.Expects g item look ∧
      g.ValidItem path rule (rule.symbols.take item.dot) (rule.symbols.drop item.dot) look := by
  obtain ⟨look, head, expects⟩ := followed.expects
  have halves := (List.take_append_drop item.dot rule.symbols).symm
  refine ⟨look, expects, ?_⟩
  rcases followed.origin known with ⟨rfl, rfl, rfl⟩ | ⟨before, rfl, rightmost⟩
  · obtain rfl := Option.some.inj head
    exact Grammar.ValidItem.start halves
  · have member := (Grammar.mem_of_rule? known).1
    obtain ⟨symbol, begins⟩ := rightmost.derives.head?_after member
    rw [List.head?_append, begins] at head
    obtain rfl := Option.some.inj head
    exact Grammar.ValidItem.inner member halves rightmost followed.terminals begins

theorem exists_reaches_of_valid (method : Method) {front back : List Symbol}
    (valid : g.ValidItem path rule front back look) :
    ∃ item, method.Reaches g path item ∧
      item.key = (rule.id, front.length, method.carried look) := by
  cases valid with
  | start symbols =>
      have known := method.initialItem_rule? g
      have reaches := Reaches.initial.advance_to known (method.initialItem_dot g) symbols
      exact ⟨_, reaches, reaches.key_eq known ((expects_dot _).mpr (method.expects_initial g))⟩
  | inner member symbols rightmost terminals head =>
      obtain ⟨item, reaches, known, dot, expects⟩ := reaches_of_rightDerives method rightmost member
        rfl (Grammar.Derives.refl _) terminals head
      have moved := reaches.advance_to known dot symbols
      exact ⟨_, moved, moved.key_eq known ((expects_dot _).mpr expects)⟩

end Method

namespace ItemSet

variable {method : Method} {g : Grammar}

theorem represents_foldl {items : ItemSet} {path : List Symbol}
    (represents : items.Represents method g path) (more : List Symbol) :
    (more.foldl (goto g) items).Represents method g (path ++ more) := by
  induction more generalizing items path with
  | nil =>
      rw [List.append_nil]
      exact represents
  | cons symbol rest ih =>
      have next := ih (represents_goto represents symbol)
      rw [List.append_assoc] at next
      exact next

/-- Going along a path from the initial items, one comes to exactly the items that are
valid for it: for LR(1) with their lookaheads, for LR(0) and SLR to their cores. -/
theorem keys_path_valid (productive : g.Productive) (method : Method) (path : List Symbol)
    (key : ItemKey) :
    key ∈ keys (path.foldl (goto g) (method.initialItems g)) ↔
      ∃ rule front back look, g.ValidItem path rule front back look ∧
        key = (rule.id, front.length, method.carried look) := by
  have represents := represents_foldl (represents_initial method g) path
  rw [List.nil_append] at represents
  rw [represents.mem_keys]
  constructor
  · rintro ⟨item, reaches, rfl⟩
    obtain ⟨rule, _, known, inRange⟩ := reaches.rule?
    obtain ⟨_, followed⟩ := reaches.followed productive
    obtain ⟨look, expects, valid⟩ := followed.valid known
    refine ⟨rule, _, _, look, valid, ?_⟩
    rw [reaches.key_eq known expects, List.length_take, rule.length_symbols,
      Nat.min_eq_left inRange]
  · rintro ⟨rule, front, back, look, valid, rfl⟩
    exact Method.exists_reaches_of_valid method valid

/-- After `( E +` a product can begin that goes on with `*`, so some rightmost
derivation of the calculator comes to it. -/
theorem keys_path_valid_product :
    ∃ rule front back look, Calculator.grammar.ValidItem
      [.terminal "(", .nonterminal "E", .terminal "+"] rule front back look ∧
      (4, 0, some (.terminal "*")) = (rule.id, front.length, Method.lr1.carried look) := by
  refine (keys_path_valid Calculator.grammar_productive .lr1 _ _).mp ?_
  decide +kernel

end ItemSet

end ShiftReduce
