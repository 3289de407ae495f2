import ShiftReduce.Proofs.Grammar.Exactness
import ShiftReduce.Proofs.Grammar.Rightmost
import ShiftReduce.Proofs.Lookahead.Awaits

/-! Items with the terminals that come after them in a sentence. In a productive
grammar every item reached along a path is part of a sentence, and what it expects
is what comes after it there. -/

namespace ShiftReduce

namespace Item

variable {g : Grammar} {item : Item} {rule : Rule}

theorem rest_symbols (known : item.rule? g = some rule) :
    (item.rest g).map Token.symbol = rule.symbols.drop item.dot := by
  rw [rest_of_rule known, List.map_drop, Rule.symbols]

theorem rest_at (known : item.rule? g = some rule) {front back : List Symbol}
    (symbols : rule.symbols = front ++ back) :
    (rest g { item with dot := front.length }).map Token.symbol = back := by
  have placed : rule? g { item with dot := front.length } = some rule := known
  rw [rest_symbols placed, symbols, List.drop_left]

theorem rest_declared (member : rule ∈ g.rules) (known : item.rule? g = some rule) :
    ∀ symbol ∈ (item.rest g).map Token.symbol, g.Declares symbol := by
  intro symbol inside
  rw [rest_symbols known] at inside
  exact Grammar.declares_of_mem_symbols member (List.mem_of_mem_drop inside)

end Item

namespace Method

variable {method : Method} {g : Grammar} {path after : List Symbol} {item : Item}

/-- An item reached along a path, with the terminals that come after its production
in a sentence. What the item expects is the first of them or, after the start rule,
the end marker. -/
inductive Followed (method : Method) (g : Grammar) : List Symbol → Item → List Symbol → Prop
  | initial : Followed method g [] (method.initialItem g) []
  | expand {path after word : List Symbol} {item child : Item} {look : Symbol} :
      Followed method g path item after → child ∈ item.expand g →
      g.Derives ((item.advance.rest g).map Token.symbol) word →
      (∀ symbol ∈ word, symbol.isTerminal = true) →
      (word ++ (after ++ [Symbol.endMarker])).head? = some look → method.Expects g child look →
      Followed method g path child (word ++ after)
  | advance {path after : List Symbol} {item : Item} {token : Token} :
      Followed method g path item after → item.next? g = some token →
      Followed method g (path ++ [token.symbol]) item.advance after

theorem Followed.reaches (followed : method.Followed g path item after) :
    method.Reaches g path item := by
  induction followed with
  | initial => exact Reaches.initial
  | expand _ member _ _ _ _ ih => exact ih.expand member
  | advance _ next ih => exact ih.advance next

theorem Followed.terminals (followed : method.Followed g path item after) :
    ∀ symbol ∈ after, symbol.isTerminal = true := by
  induction followed with
  | initial => simp
  | expand _ _ _ wordTerminals _ _ ih =>
      intro symbol inside
      rcases List.mem_append.mp inside with early | late
      · exact wordTerminals symbol early
      · exact ih symbol late
  | advance _ _ ih => exact ih

theorem Followed.expects (followed : method.Followed g path item after) :
    ∃ look, (after ++ [Symbol.endMarker]).head? = some look ∧ method.Expects g item look := by
  induction followed with
  | initial => exact ⟨.endMarker, rfl, method.expects_initial g⟩
  | expand _ _ _ _ head expects _ => exact ⟨_, by rw [List.append_assoc]; exact head, expects⟩
  | advance _ _ ih =>
      obtain ⟨look, head, expects⟩ := ih
      exact ⟨look, head, (expects_dot _).mpr expects⟩

theorem rightDerives_expand {token : Token} {word : List Symbol}
    (rightmost : g.RightDerives g.start.symbols
      (path ++ ((item.rest g).map Token.symbol ++ after)))
    (afterTerminals : ∀ symbol ∈ after, symbol.isTerminal = true)
    (next : item.next? g = some token)
    (derives : g.Derives ((item.advance.rest g).map Token.symbol) word)
    (wordTerminals : ∀ symbol ∈ word, symbol.isTerminal = true) :
    g.RightDerives g.start.symbols (path ++ token.symbol :: (word ++ after)) := by
  have inner := (derives.rightmost wordTerminals).context (path ++ [token.symbol]) after
    afterTerminals
  rw [Item.rest_of_next next] at rightmost
  exact rightmost.trans (by simpa using inner)

theorem Followed.rightDerives (followed : method.Followed g path item after) :
    g.RightDerives g.start.symbols (path ++ ((item.rest g).map Token.symbol ++ after)) := by
  induction followed with
  | initial =>
      rw [Item.rest_symbols (initialItem_rule? method g), initialItem_dot]
      simpa using Grammar.RightDerives.refl _
  | @expand path after word item child look followed member derives terminals head expects ih =>
      obtain ⟨dot, rule, ruleMember, known, token, next, left⟩ := expand_rule? member
      have front := rightDerives_expand ih followed.terminals next derives terminals
      rw [Item.rest_symbols known, dot, List.drop_zero]
      rw [left] at front
      refine front.tail (Grammar.RightProduces.rewrite path (word ++ after) ruleMember ?_)
      exact (followed.expand member derives terminals head expects).terminals
  | advance _ next ih =>
      rw [Item.rest_of_next next] at ih
      simpa using ih

/-- Before the production of an item stood its left-hand side, unless it is the start
rule at the root. -/
theorem Followed.origin (followed : method.Followed g path item after) {rule : Rule}
    (known : item.rule? g = some rule) :
    rule = g.start ∧ path = rule.symbols.take item.dot ∧ after = [] ∨
      ∃ before, path = before ++ rule.symbols.take item.dot ∧
        g.RightDerives g.start.symbols (before ++ rule.left.symbol :: after) := by
  induction followed with
  | initial =>
      left
      rw [initialItem_rule?, Option.some.injEq] at known
      rw [initialItem_dot]
      exact ⟨known.symm, rfl, rfl⟩
  | @expand path after word item child look followed member derives terminals _ _ ih =>
      right
      obtain ⟨dot, other, _, otherKnown, token, next, left⟩ := expand_rule? member
      cases known.symm.trans otherKnown
      have front := rightDerives_expand followed.rightDerives followed.terminals next derives
        terminals
      rw [left] at front
      exact ⟨path, by simp [dot], front⟩
  | @advance path after item token _ next ih =>
      rw [Item.rule?_advance] at known
      rw [Item.take_advance known next]
      rcases ih known with ⟨start, shape, none⟩ | ⟨before, shape, rightmost⟩
      · exact Or.inl ⟨start, by rw [shape], none⟩
      · exact Or.inr ⟨before, by rw [shape, List.append_assoc], rightmost⟩

/-- The closure step brings in no item for nothing: for each one, what is left of the
parent derives terminals that begin as the item expects. -/
theorem Followed.exists_word (productive : g.Productive)
    (followed : method.Followed g path item after) {child : Item}
    (member : child ∈ item.expand g) :
    ∃ word look, g.Derives ((item.advance.rest g).map Token.symbol) word ∧
      (∀ symbol ∈ word, symbol.isTerminal = true) ∧
      (word ++ (after ++ [Symbol.endMarker])).head? = some look ∧
      method.Expects g child look := by
  obtain ⟨own, ownMember, known, _⟩ := followed.reaches.rule?
  obtain ⟨symbol, following, expects⟩ := followed.expects
  obtain ⟨token, rest, shape, nonterminal, rule, ruleMember, left, lookahead, inside, rfl⟩ :=
    Item.mem_expand.mp member
  obtain ⟨next, advanced⟩ := Item.next?_of_rest shape
  have begins (word : List Symbol) :
      (word ++ (after ++ [Symbol.endMarker])).head? = (word ++ [symbol]).head? := by
    rw [List.head?_append, following, List.head?_append]
    rfl
  have moved : item.advance.rule? g = some own := known
  have declared := Item.rest_declared ownMember moved
  rw [advanced] at declared ⊢
  rcases Item.mem_inherited inside with ⟨bare, rfl⟩ | ⟨carried, found, own, rfl, leads⟩
  · obtain ⟨word, derives, terminals⟩ := productive.derives declared
    obtain ⟨trees, valid, roots, leaves⟩ := derives.plainForest
    rw [← roots] at declared
    obtain ⟨look, looked, cause⟩ := Grammar.leads_or_nullable valid declared
      (by simpa [leaves, Token.isTerminal] using terminals) symbol
    have symbols := Item.symbols_of_next known next
    rw [advanced, ← left] at symbols
    rw [roots] at cause
    obtain ⟨other, otherInside, expected⟩ :=
      followed.reaches.inherits ownMember known ruleMember symbols expects cause
    obtain rfl : other = none := by simpa [Item.inherited, bare] using otherInside
    refine ⟨word, look, derives, terminals, ?_, expected⟩
    rw [leaves, Token.map_symbol_plain] at looked
    rw [begins]
    exact looked
  · rcases followed.reaches.lookahead with ⟨_, bare⟩ | ⟨rfl, other, carries, terminal, _⟩
    · rw [own] at bare
      cases bare
    · cases own.symm.trans carries
      obtain ⟨word, derives, terminals, head⟩ := productive.derives_of_leads declared terminal leads
      refine ⟨word, found.symbol, derives, terminals, ?_, (expects_lr1 rfl).mpr rfl⟩
      rw [begins, (expects_lr1 own).mp expects]
      exact head

theorem Reaches.followed (productive : g.Productive) (reaches : method.Reaches g path item) :
    ∃ after, method.Followed g path item after := by
  induction reaches with
  | initial => exact ⟨[], Followed.initial⟩
  | expand _ member ih =>
      obtain ⟨after, followed⟩ := ih
      obtain ⟨word, look, derives, terminals, head, expects⟩ :=
        followed.exists_word productive member
      exact ⟨word ++ after, followed.expand member derives terminals head expects⟩
  | advance _ next ih =>
      obtain ⟨after, followed⟩ := ih
      exact ⟨after, followed.advance next⟩

end Method

end ShiftReduce
