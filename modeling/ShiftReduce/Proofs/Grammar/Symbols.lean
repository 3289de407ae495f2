import ShiftReduce.Grammar.Basic
import ShiftReduce.Proofs.Collections

/-! The rules of a grammar and the symbols they are made of. -/

namespace ShiftReduce

namespace Rule

variable {rule : Rule} {tokens : List Token}

theorem Declared.production_cases (declared : rule.Declared tokens) :
    rule.right = [Token.epsilon] ∧ rule.production = [] ∨
      rule.production = rule.right ∧ rule.right ≠ [] ∧
        ∀ token ∈ rule.right, token.isEpsilon = false ∧ token ∈ tokens := by
  rcases declared.right_declared with empty | ⟨nonempty, plain⟩
  · have isEmpty : rule.isEmpty = true := by
      rw [isEmpty, empty]
      rfl
    exact Or.inl ⟨empty, by rw [production, if_pos isEmpty]⟩
  · refine Or.inr ⟨?_, nonempty, plain⟩
    have filled : ¬ rule.isEmpty = true := by
      intro isEmpty
      obtain ⟨token, only, empty⟩ := List.map_eq_singleton_iff.mp (isEmpty_iff.mp isEmpty)
      exact of_decide_eq_false (plain token (by rw [only]; simp)).1 empty
    rw [production, if_neg filled]

theorem Declared.mem_production (declared : rule.Declared tokens) {token : Token}
    (member : token ∈ rule.production) : token.isEpsilon = false ∧ token ∈ tokens := by
  rcases declared.production_cases with ⟨_, empty⟩ | ⟨same, _, plain⟩
  · rw [empty] at member
    cases member
  · exact plain token (same ▸ member)

theorem mem_right {rule : Rule} {token : Token} (member : token ∈ rule.production) :
    token ∈ rule.right := by
  unfold production at member
  split at member
  · cases member
  · exact member

theorem length_symbols (rule : Rule) : rule.symbols.length = rule.production.length := by
  simp [symbols]

end Rule

namespace Grammar

variable (g : Grammar)

def Declares (symbol : Symbol) : Prop :=
  symbol ∈ g.tokens.map Token.symbol ∧ symbol ≠ .epsilon

variable {g}

theorem mem_of_rule? {id : RuleId} {rule : Rule} (found : g.rule? id = some rule) :
    rule ∈ g.rules ∧ rule.id = id :=
  Keyed.find?_some found

theorem rule?_of_mem {rule : Rule} (member : rule ∈ g.rules) : g.rule? rule.id = some rule :=
  Keyed.find?_mem g.ids_nodup member

theorem mem_productionsOf {symbol : Symbol} {rule : Rule} :
    rule ∈ g.productionsOf symbol ↔ rule ∈ g.rules ∧ rule.left.symbol = symbol := by
  simp [productionsOf]

theorem declares_of_mem_symbols {rule : Rule} (member : rule ∈ g.rules) {symbol : Symbol}
    (inside : symbol ∈ rule.symbols) : g.Declares symbol := by
  obtain ⟨token, tokenMember, rfl⟩ := List.mem_map.mp inside
  obtain ⟨plain, declared⟩ := (g.rules_declared rule member).mem_production tokenMember
  exact ⟨List.mem_map_of_mem declared, by simpa [Token.isEpsilon] using plain⟩

theorem declares_left {rule : Rule} (member : rule ∈ g.rules) :
    g.Declares rule.left.symbol := by
  have declared := g.rules_declared rule member
  exact ⟨List.mem_map_of_mem declared.left_mem,
    Token.symbol_ne_epsilon declared.left_nonterminal⟩

theorem left_nonterminal {rule : Rule} (member : rule ∈ g.rules) :
    rule.left.symbol.isTerminal = false :=
  (g.rules_declared rule member).left_nonterminal

theorem symbols_nodup (g : Grammar) : (g.tokens.map Token.symbol).Nodup :=
  Token.nodup_symbols g.tokens_increasing

theorem start_production (g : Grammar) :
    g.start.production = g.start.right ∧ ∃ before last,
      g.start.right = before ++ [last] ∧ last.symbol = .endMarker := by
  have ends := g.start_endsInput
  rw [Rule.endsInput] at ends
  obtain ⟨last, found, marker⟩ := (Option.any_eq_true _ _).mp ends
  have marked : last.symbol = .endMarker := by simpa [Token.isEndMarker] using marker
  obtain ⟨before, shape⟩ := List.getLast?_eq_some_iff.mp found
  refine ⟨?_, before, last, shape, marked⟩
  rcases (g.rules_declared g.start g.start_mem).production_cases with ⟨empty, _⟩ | ⟨same, _⟩
  · rw [empty] at found
    have only : Token.epsilon = last := by simpa using found
    rw [← only] at marked
    exact absurd marked (by decide)
  · exact same

theorem declares_endMarker (g : Grammar) : g.Declares .endMarker := by
  obtain ⟨same, before, last, shape, marked⟩ := g.start_production
  apply declares_of_mem_symbols g.start_mem
  rw [Rule.symbols, same, shape]
  simp [marked]

end Grammar

end ShiftReduce
