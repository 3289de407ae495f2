import ShiftReduce.Calculator.Basic
import ShiftReduce.Proofs.Grammar.First

/-! Sentences: the terminal strings that the right-hand side of the start rule
derives. Their parse trees have the start rule at the root. -/

namespace ShiftReduce

theorem Tree.Valid.start_children {g : Grammar} {children : List Tree}
    (valid : (Tree.node g.start children).Valid g) :
    ∃ trees marker, children = trees ++ [Tree.leaf marker] ∧ marker.symbol = .endMarker ∧
      (∀ tree ∈ trees, tree.Valid g) ∧
      (trees ++ [Tree.leaf marker]).map (·.root.symbol) = g.start.symbols := by
  cases valid with
  | node _ matched below =>
      obtain ⟨production, before, last, right, marked⟩ := g.start_production
      have symbols := matched
      rw [Rule.symbols, production, right, List.map_append] at symbols
      obtain ⟨trees, tail, rfl, _, tailRoots⟩ := List.map_eq_append_iff.mp symbols
      obtain ⟨tree, rfl, same⟩ := List.map_eq_singleton_iff.mp tailRoots
      rw [marked] at same
      have leaf := (below tree (by simp)).eq_leaf (by rw [same]; rfl)
      rw [leaf] at matched ⊢
      refine ⟨trees, tree.root, rfl, same, ?_, matched⟩
      exact fun inner member => below inner (by simp [member])

namespace Grammar

variable {g : Grammar}

/-- The start rule stands above the others: its left-hand side is on no right-hand
side, and the end marker is its last symbol only. -/
structure Augmented (g : Grammar) : Prop where
  fresh : ∀ rule ∈ g.rules, ∀ token ∈ rule.right, token.symbol ≠ g.start.left.symbol
  ending : ∀ token ∈ g.start.right.dropLast, token.symbol ≠ .endMarker

/-- The end marker is in no other rule either. -/
structure Delimited (g : Grammar) : Prop extends Augmented g where
  elsewhere : ∀ rule ∈ g.rules, rule ≠ g.start → ∀ token ∈ rule.right, token.symbol ≠ .endMarker

def Productive (g : Grammar) : Prop :=
  ∀ token ∈ g.nonterminals, ∃ word, g.Derives [token.symbol] word ∧
    ∀ symbol ∈ word, symbol.isTerminal = true

def Sentence (g : Grammar) (word : List Symbol) : Prop :=
  g.Derives g.start.symbols word ∧ ∀ symbol ∈ word, symbol.isTerminal = true

theorem Productive.derives (productive : g.Productive) {form : List Symbol}
    (declared : ∀ symbol ∈ form, g.Declares symbol) :
    ∃ word, g.Derives form word ∧ ∀ symbol ∈ word, symbol.isTerminal = true := by
  induction form with
  | nil => exact ⟨[], Derives.refl _, by simp⟩
  | cons symbol rest ih =>
      obtain ⟨back, backDerived, backTerminal⟩ :=
        ih fun other member => declared other (by simp [member])
      obtain ⟨front, frontDerived, frontTerminal⟩ : ∃ front, g.Derives [symbol] front ∧
          ∀ other ∈ front, other.isTerminal = true := by
        cases kind : symbol.isTerminal with
        | true => exact ⟨[symbol], Derives.refl _, by simpa using kind⟩
        | false =>
            obtain ⟨token, member, rfl⟩ := List.mem_map.mp (declared symbol (by simp)).1
            refine productive token (List.mem_filter.mpr ⟨member, ?_⟩)
            simpa [Token.isTerminal] using kind
      refine ⟨front ++ back, frontDerived.append backDerived, ?_⟩
      intro other inside
      rcases List.mem_append.mp inside with early | late
      · exact frontTerminal other early
      · exact backTerminal other late

theorem Derives.getLast?_eq {form derived : List Symbol} {last : Symbol}
    (derives : g.Derives form derived) (ends : form.getLast? = some last)
    (terminal : last.isTerminal = true) : derived.getLast? = some last := by
  induction derives with
  | refl => exact ends
  | tail _ step ih =>
      cases step with
      | @rewrite rule before after member =>
          cases back : after.getLast? with
          | none =>
              have same : rule.left.symbol = last := by
                simpa [List.getLast?_append, List.getLast?_cons, back] using ih
              rw [← same, g.left_nonterminal member] at terminal
              cases terminal
          | some other =>
              have same : other = last := by
                simpa [List.getLast?_append, List.getLast?_cons, back] using ih
              simp [List.getLast?_append, back, same]

theorem Derives.ends_input {derived : List Symbol} (derives : g.Derives g.start.symbols derived) :
    derived.getLast? = some .endMarker := by
  refine derives.getLast?_eq ?_ rfl
  obtain ⟨production, before, last, right, marked⟩ := g.start_production
  rw [Rule.symbols, production, right]
  simp [marked]

/-- Something comes after every nonterminal of a form: the end marker at the latest. -/
theorem Derives.head?_after {rule : Rule} {before after : List Symbol} (member : rule ∈ g.rules)
    (derives : g.Derives g.start.symbols (before ++ rule.left.symbol :: after)) :
    ∃ symbol, after.head? = some symbol := by
  cases after with
  | cons symbol _ => exact ⟨symbol, rfl⟩
  | nil =>
      have ends := derives.ends_input
      rw [List.getLast?_concat] at ends
      have nonterminal := g.left_nonterminal member
      rw [Option.some.inj ends] at nonterminal
      cases nonterminal

theorem Sentence.tree (delimited : g.Delimited) {tokens : List Token}
    (sentence : g.Sentence (tokens.map Token.symbol)) :
    ∃ children word marker, (Tree.node g.start children).Valid g ∧ tokens = word ++ [marker] ∧
      Tree.yields children = word ++ [marker] ∧ marker.symbol = .endMarker ∧
      ∀ token ∈ word, token.isTerminal = true ∧ token.symbol ≠ .endMarker := by
  obtain ⟨children, below, roots, leaves⟩ := sentence.1.forest
  have valid : (Tree.node g.start children).Valid g := Tree.Valid.node g.start_mem roots below
  obtain ⟨trees, marker, rfl, marked, treesValid, symbols⟩ := valid.start_children
  have whole : Tree.yields (trees ++ [Tree.leaf marker]) = Tree.yields trees ++ [marker] := by
    simp [Tree.yields, Tree.yield]
  rw [whole] at leaves
  refine ⟨_, Tree.yields trees, marker, valid, leaves.symm, whole, marked, ?_⟩
  have kept : ∀ symbol ∈ (Tree.yields trees).map Token.symbol,
      symbol ≠ .endMarker ∧ symbol ≠ g.start.left.symbol := by
    have derives := derives_yields fun tree member => derives_yield (treesValid tree member)
    refine derives.preserves (fun symbol => symbol ≠ .endMarker ∧ symbol ≠ g.start.left.symbol)
      ?_ ?_
    · rintro rule member ⟨_, other⟩ symbol inside
      obtain ⟨token, tokenMember, rfl⟩ := List.mem_map.mp inside
      have right := Rule.mem_right tokenMember
      exact ⟨delimited.elsewhere rule member (fun same => other (by rw [same])) token right,
        delimited.fresh rule member token right⟩
    · have shorter := congrArg List.dropLast symbols
      rw [Rule.symbols, g.start_production.1, ← List.map_dropLast, ← List.map_dropLast,
        List.dropLast_concat] at shorter
      intro symbol inside
      rw [shorter] at inside
      obtain ⟨token, member, rfl⟩ := List.mem_map.mp inside
      exact ⟨delimited.ending token member,
        delimited.fresh g.start g.start_mem token (List.dropLast_subset _ member)⟩
  intro token member
  refine ⟨?_, (kept token.symbol (List.mem_map_of_mem member)).1⟩
  refine sentence.2 token.symbol (List.mem_map_of_mem ?_)
  rw [← leaves]
  exact List.mem_append_left _ member

end Grammar

theorem Calculator.grammar_productive : grammar.Productive := by
  have unit (id : RuleId) (left right : Token)
      (member : { id, left, right := [right] } ∈ grammar.rules)
      (proper : right.isEpsilon = false) :
      grammar.Derives [left.symbol] [right.symbol] := by
    have derives := Grammar.Derives.rule member
    simpa [Rule.symbols, Rule.production, Rule.isEmpty, proper] using derives
  have factor := unit 7 (.nonterminal "F") (.terminal numberName) (by decide +kernel)
    (by decide)
  have product := (unit 6 (.nonterminal "T") (.nonterminal "F") (by decide +kernel)
    (by decide)).trans factor
  have sum := (unit 3 (.nonterminal "E") (.nonterminal "T") (by decide +kernel)
    (by decide)).trans product
  have whole := (Grammar.Derives.rule grammar.start_mem).trans
    (sum.append (Grammar.Derives.refl [.endMarker]))
  have all : grammar.nonterminals = [grammar.start.left, .nonterminal "E",
      .nonterminal "F", .nonterminal "T"] := by
    decide +kernel
  intro token member
  rw [all] at member
  simp only [List.mem_cons, List.not_mem_nil, or_false] at member
  rcases member with rfl | rfl | rfl | rfl
  · exact ⟨_, whole, by decide⟩
  · exact ⟨_, sum, by decide⟩
  · exact ⟨_, factor, by decide⟩
  · exact ⟨_, product, by decide⟩

theorem Calculator.grammar_delimited : grammar.Delimited :=
  ⟨⟨by decide +kernel, by decide +kernel⟩, by decide +kernel⟩

end ShiftReduce
