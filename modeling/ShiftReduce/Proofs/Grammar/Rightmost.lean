import ShiftReduce.Proofs.Grammar.Derivation

/-! Rightmost derivations: each step rewrites the last nonterminal of a form. Every
terminal string that can be derived has one. -/

namespace ShiftReduce.Grammar

variable {g : Grammar} {form derived : List Symbol}

/-- A step of a rightmost derivation: only terminals stand after what it rewrites. -/
inductive RightProduces (g : Grammar) : List Symbol → List Symbol → Prop
  | rewrite {rule : Rule} (before after : List Symbol) : rule ∈ g.rules →
      (∀ symbol ∈ after, symbol.isTerminal = true) →
      RightProduces g (before ++ rule.left.symbol :: after) (before ++ (rule.symbols ++ after))

def RightDerives (g : Grammar) : List Symbol → List Symbol → Prop :=
  Relation.ReflTransGen g.RightProduces

theorem RightDerives.refl (form : List Symbol) : g.RightDerives form form :=
  Relation.ReflTransGen.refl

theorem RightDerives.trans {first second third : List Symbol}
    (left : g.RightDerives first second) (right : g.RightDerives second third) :
    g.RightDerives first third :=
  Relation.ReflTransGen.trans left right

theorem RightDerives.derives (rightmost : g.RightDerives form derived) :
    g.Derives form derived := by
  induction rightmost with
  | refl => exact Derives.refl _
  | tail _ step ih =>
      cases step with
      | rewrite before after member _ => exact ih.tail (Produces.rewrite before after member)

theorem RightDerives.context (rightmost : g.RightDerives form derived)
    (before after : List Symbol) (terminals : ∀ symbol ∈ after, symbol.isTerminal = true) :
    g.RightDerives (before ++ (form ++ after)) (before ++ (derived ++ after)) := by
  induction rightmost with
  | refl => exact RightDerives.refl _
  | tail _ step ih =>
      refine ih.tail ?_
      cases step with
      | rewrite inner outer member outerTerminals =>
          have wider : ∀ symbol ∈ outer ++ after, symbol.isTerminal = true := by
            intro symbol inside
            rcases List.mem_append.mp inside with early | late
            · exact outerTerminals symbol early
            · exact terminals symbol late
          have step := RightProduces.rewrite (before ++ inner) (outer ++ after) member wider
          simpa only [List.append_assoc, List.cons_append] using step

theorem RightDerives.rule {rule : Rule} (member : rule ∈ g.rules) :
    g.RightDerives [rule.left.symbol] rule.symbols := by
  have step := RightProduces.rewrite [] [] member (by simp)
  simp only [List.nil_append, List.append_nil] at step
  exact Relation.ReflTransGen.single step

theorem rightDerives_yields {trees : List Tree}
    (derived : ∀ tree ∈ trees, (∀ token ∈ tree.yield, token.isTerminal = true) →
      g.RightDerives [tree.root.symbol] (tree.yield.map Token.symbol))
    (terminals : ∀ token ∈ Tree.yields trees, token.isTerminal = true) :
    g.RightDerives (trees.map (·.root.symbol)) ((Tree.yields trees).map Token.symbol) := by
  induction trees with
  | nil => exact RightDerives.refl _
  | cons tree rest ih =>
      rw [Tree.yields] at terminals
      have restTerminals : ∀ token ∈ Tree.yields rest, token.isTerminal = true :=
        fun token inside => terminals token (List.mem_append_right _ inside)
      have head := derived tree (by simp) fun token inside =>
        terminals token (List.mem_append_left _ inside)
      have tail := ih (fun other member => derived other (by simp [member])) restTerminals
      -- The trees after the first one come first: then only terminals stand after it.
      have back := tail.context [tree.root.symbol] [] (by simp)
      have front := head.context [] ((Tree.yields rest).map Token.symbol)
        (by simpa [Token.isTerminal] using restTerminals)
      rw [List.append_nil, List.append_nil] at back
      simpa [Tree.yields] using back.trans front

theorem rightDerives_yield {tree : Tree} (valid : tree.Valid g)
    (terminals : ∀ token ∈ tree.yield, token.isTerminal = true) :
    g.RightDerives [tree.root.symbol] (tree.yield.map Token.symbol) := by
  induction valid with
  | leaf token => exact RightDerives.refl _
  | node member matched _ ih =>
      have below := rightDerives_yields ih terminals
      rw [matched] at below
      exact (RightDerives.rule member).trans below

theorem Derives.rightmost {word : List Symbol} (derives : g.Derives form word)
    (terminals : ∀ symbol ∈ word, symbol.isTerminal = true) : g.RightDerives form word := by
  obtain ⟨trees, valid, roots, leaves⟩ := derives.plainForest
  have rightmost := rightDerives_yields
    (fun tree member => rightDerives_yield (valid tree member))
    (by simpa [leaves, Token.isTerminal] using terminals)
  rwa [roots, leaves, Token.map_symbol_plain] at rightmost

end ShiftReduce.Grammar
