import Mathlib.Logic.Relation
import ShiftReduce.Grammar.Basic

/-! Derivations of a grammar and its parse trees. A sentential form derives
another exactly if a forest of parse trees has the first for its roots and the
second for its leaves. -/

namespace ShiftReduce

/-- The token of a symbol, without payload. -/
def Token.plain (symbol : Symbol) : Token :=
  { symbol }

@[simp] theorem Token.symbol_plain (symbol : Symbol) : (plain symbol).symbol = symbol := rfl

@[simp] theorem Token.map_symbol_plain (word : List Symbol) :
    (word.map plain).map Token.symbol = word := by
  simp [Function.comp_def]

inductive Tree where
  | leaf (token : Token)
  | node (rule : Rule) (children : List Tree)

namespace Tree

def root : Tree → Token
  | leaf token => token
  | node rule _ => rule.left

mutual

def yield : Tree → List Token
  | leaf token => [token]
  | node _ children => yields children

def yields : List Tree → List Token
  | [] => []
  | tree :: rest => tree.yield ++ yields rest

end

mutual

/-- The inner nodes in post-order, each with the tokens its children stand for. -/
def reductions : Tree → List (Rule × List Token)
  | leaf _ => []
  | node rule children => forestReductions children ++ [(rule, children.map root)]

def forestReductions : List Tree → List (Rule × List Token)
  | [] => []
  | tree :: rest => tree.reductions ++ forestReductions rest

end

/-- Every inner node is a rule of the grammar whose production its children match. -/
inductive Valid (g : Grammar) : Tree → Prop
  | leaf (token : Token) : Valid g (leaf token)
  | node {rule : Rule} {children : List Tree} : rule ∈ g.rules →
      children.map (·.root.symbol) = rule.symbols → (∀ child ∈ children, Valid g child) →
      Valid g (node rule children)

@[simp] theorem root_leaf (token : Token) : (leaf token).root = token := rfl

@[simp] theorem root_node (rule : Rule) (children : List Tree) :
    (node rule children).root = rule.left := rfl

@[simp] theorem yields_append (first second : List Tree) :
    yields (first ++ second) = yields first ++ yields second := by
  induction first with
  | nil => rfl
  | cons tree rest ih => simp [yields, ih]

@[simp] theorem forestReductions_append (first second : List Tree) :
    forestReductions (first ++ second) = forestReductions first ++ forestReductions second := by
  induction first with
  | nil => rfl
  | cons tree rest ih => simp [forestReductions, ih]

theorem yields_leaves (tokens : List Token) : yields (tokens.map leaf) = tokens := by
  induction tokens with
  | nil => rfl
  | cons token rest ih => simp [yields, yield, ih]

theorem yields_eq_nil {trees : List Tree} (empty : yields trees = []) :
    ∀ tree ∈ trees, tree.yield = [] := by
  induction trees with
  | nil => simp
  | cons tree rest ih =>
      simp only [yields, List.append_eq_nil_iff] at empty
      intro other member
      rcases List.mem_cons.mp member with rfl | later
      · exact empty.1
      · exact ih empty.2 other later

theorem yields_eq_cons {trees : List Tree} {token : Token} {rest : List Token}
    (leaves : yields trees = token :: rest) :
    ∃ before tree after more, trees = before ++ tree :: after ∧ yields before = [] ∧
      tree.yield = token :: more := by
  induction trees with
  | nil => cases leaves
  | cons tree others ih =>
      cases first : tree.yield with
      | nil =>
          simp only [yields, first, List.nil_append] at leaves
          obtain ⟨before, found, after, more, rfl, empty, leading⟩ := ih leaves
          exact ⟨tree :: before, found, after, more, rfl, by simp [yields, first, empty], leading⟩
      | cons head more =>
          simp only [yields, first, List.cons_append, List.cons.injEq] at leaves
          exact ⟨[], tree, others, more, rfl, rfl, by rw [first, leaves.1]⟩

theorem Valid.eq_leaf {g : Grammar} {tree : Tree} (valid : tree.Valid g)
    (terminal : tree.root.symbol.isTerminal = true) : tree = Tree.leaf tree.root := by
  cases valid with
  | leaf token => rfl
  | node member _ _ =>
      have nonterminal := (g.rules_declared _ member).left_nonterminal
      rw [Token.isTerminal] at nonterminal
      rw [root, nonterminal] at terminal
      cases terminal

end Tree

theorem split_cases {front back before after : List Symbol} {symbol : Symbol}
    (shape : front ++ back = before ++ symbol :: after) :
    (∃ middle, front = before ++ symbol :: middle ∧ after = middle ++ back) ∨
      ∃ middle, back = middle ++ symbol :: after ∧ before = front ++ middle := by
  rcases List.append_eq_append_iff.mp shape with ⟨middle, rfl, rest⟩ | ⟨middle, rfl, rest⟩
  · exact Or.inr ⟨middle, rest, rfl⟩
  · cases middle with
    | nil => exact Or.inr ⟨[], rest.symm, by simp⟩
    | cons head middle =>
        obtain ⟨rfl, rfl⟩ := List.cons.inj rest
        exact Or.inl ⟨middle, rfl, rfl⟩

/-- A symbol stands before, inside or after a part of a form. -/
theorem occurrence_cases {front written back before after : List Symbol} {symbol : Symbol}
    (shape : front ++ (written ++ back) = before ++ symbol :: after) :
    (∃ middle, front = before ++ symbol :: middle ∧ after = middle ++ (written ++ back)) ∨
      (∃ left right, written = left ++ symbol :: right ∧ before = front ++ left ∧
        after = right ++ back) ∨
      ∃ middle, back = middle ++ symbol :: after ∧ before = front ++ (written ++ middle) := by
  rcases split_cases shape with inFront | ⟨left, later, rfl⟩
  · exact Or.inl inFront
  · rcases split_cases later with ⟨right, rfl, rfl⟩ | ⟨middle, rfl, rfl⟩
    · exact Or.inr (Or.inl ⟨left, right, rfl, rfl, rfl⟩)
    · exact Or.inr (Or.inr ⟨middle, rfl, rfl⟩)

namespace Grammar

variable {g : Grammar}

/-- One step of a derivation: a rule replaces one occurrence of its left-hand side. -/
inductive Produces (g : Grammar) : List Symbol → List Symbol → Prop
  | rewrite {rule : Rule} (before after : List Symbol) : rule ∈ g.rules →
      Produces g (before ++ rule.left.symbol :: after) (before ++ (rule.symbols ++ after))

def Derives (g : Grammar) : List Symbol → List Symbol → Prop :=
  Relation.ReflTransGen g.Produces

theorem Derives.refl (form : List Symbol) : g.Derives form form :=
  Relation.ReflTransGen.refl

theorem Derives.trans {first second third : List Symbol} (left : g.Derives first second)
    (right : g.Derives second third) : g.Derives first third :=
  Relation.ReflTransGen.trans left right

theorem Derives.context {first second : List Symbol} (before after : List Symbol)
    (derives : g.Derives first second) :
    g.Derives (before ++ (first ++ after)) (before ++ (second ++ after)) := by
  induction derives with
  | refl => exact Derives.refl _
  | tail _ step ih =>
      refine ih.tail ?_
      cases step with
      | rewrite inner outer member =>
          have wider := Produces.rewrite (before ++ inner) (outer ++ after) member
          simpa only [List.append_assoc, List.cons_append] using wider

theorem Derives.append {first second third fourth : List Symbol} (left : g.Derives first second)
    (right : g.Derives third fourth) : g.Derives (first ++ third) (second ++ fourth) := by
  have front := left.context [] third
  have back := right.context second []
  simp only [List.nil_append, List.append_nil] at front back
  exact front.trans back

theorem Derives.rule {rule : Rule} (member : rule ∈ g.rules) :
    g.Derives [rule.left.symbol] rule.symbols := by
  have step := Produces.rewrite [] [] member
  simp only [List.nil_append, List.append_nil] at step
  exact Relation.ReflTransGen.single step

/-- What all rules hand on from left to right, a derivation hands on. -/
theorem Derives.preserves {form derived : List Symbol} (derives : g.Derives form derived)
    (holds : Symbol → Prop)
    (rules : ∀ rule ∈ g.rules, holds rule.left.symbol → ∀ symbol ∈ rule.symbols, holds symbol)
    (initial : ∀ symbol ∈ form, holds symbol) : ∀ symbol ∈ derived, holds symbol := by
  induction derives with
  | refl => exact initial
  | tail _ step ih =>
      cases step with
      | @rewrite rule before after member =>
          have left := ih rule.left.symbol (by simp)
          intro symbol inside
          simp only [List.mem_append] at inside
          rcases inside with early | rewritten | late
          · exact ih symbol (by simp [early])
          · exact rules rule member left symbol rewritten
          · exact ih symbol (by simp [late])

theorem derives_yields {trees : List Tree}
    (derived : ∀ tree ∈ trees, g.Derives [tree.root.symbol] (tree.yield.map Token.symbol)) :
    g.Derives (trees.map (·.root.symbol)) ((Tree.yields trees).map Token.symbol) := by
  induction trees with
  | nil => exact Derives.refl _
  | cons tree rest ih =>
      have head := derived tree (by simp)
      have tail := ih fun other member => derived other (by simp [member])
      simpa [Tree.yields] using head.append tail

theorem derives_yield {tree : Tree} (valid : tree.Valid g) :
    g.Derives [tree.root.symbol] (tree.yield.map Token.symbol) := by
  induction valid with
  | leaf token => exact Derives.refl _
  | node member matched _ ih =>
      have below := derives_yields ih
      rw [matched] at below
      exact (Derives.rule member).trans below

theorem Produces.forest {before after : List Symbol} (step : g.Produces before after)
    {trees : List Tree} (valid : ∀ tree ∈ trees, tree.Valid g)
    (roots : trees.map (·.root.symbol) = after) :
    ∃ folded : List Tree, (∀ tree ∈ folded, tree.Valid g) ∧
      folded.map (·.root.symbol) = before ∧ Tree.yields folded = Tree.yields trees := by
  cases step with
  | @rewrite rule left right member =>
      obtain ⟨front, others, rfl, frontRoots, othersRoots⟩ := List.map_eq_append_iff.mp roots
      obtain ⟨children, back, rfl, matched, backRoots⟩ := List.map_eq_append_iff.mp othersRoots
      refine ⟨front ++ Tree.node rule children :: back, ?_, ?_, ?_⟩
      · intro tree treeMember
        rcases List.mem_append.mp treeMember with early | late
        · exact valid tree (by simp [early])
        · rcases List.mem_cons.mp late with rfl | later
          · exact Tree.Valid.node member matched fun child childMember =>
              valid child (by simp [childMember])
          · exact valid tree (by simp [later])
      · simp [frontRoots, backRoots]
      · simp [Tree.yields, Tree.yield]

theorem Derives.forest {form : List Symbol} {tokens : List Token}
    (derives : g.Derives form (tokens.map Token.symbol)) :
    ∃ trees : List Tree, (∀ tree ∈ trees, tree.Valid g) ∧
      trees.map (·.root.symbol) = form ∧ Tree.yields trees = tokens := by
  induction derives using Relation.ReflTransGen.head_induction_on with
  | refl =>
      refine ⟨tokens.map Tree.leaf, ?_, ?_, Tree.yields_leaves tokens⟩
      · intro tree member
        obtain ⟨token, _, rfl⟩ := List.mem_map.mp member
        exact Tree.Valid.leaf token
      · simp [Function.comp_def]
  | head step _ ih =>
      obtain ⟨trees, valid, roots, leaves⟩ := ih
      obtain ⟨folded, foldedValid, foldedRoots, same⟩ := step.forest valid roots
      exact ⟨folded, foldedValid, foldedRoots, same.trans leaves⟩

theorem Derives.plainForest {form word : List Symbol} (derives : g.Derives form word) :
    ∃ trees : List Tree, (∀ tree ∈ trees, tree.Valid g) ∧
      trees.map (·.root.symbol) = form ∧ Tree.yields trees = word.map Token.plain := by
  rw [← Token.map_symbol_plain word] at derives
  exact derives.forest

theorem Derives.split {first second word : List Symbol}
    (derives : g.Derives (first ++ second) word) :
    ∃ front back, word = front ++ back ∧ g.Derives first front ∧ g.Derives second back := by
  obtain ⟨trees, valid, roots, leaves⟩ := derives.plainForest
  obtain ⟨left, right, rfl, leftRoots, rightRoots⟩ := List.map_eq_append_iff.mp roots
  have whole := congrArg (List.map Token.symbol) leaves
  rw [Token.map_symbol_plain, Tree.yields_append, List.map_append] at whole
  refine ⟨_, _, whole.symm, ?_, ?_⟩
  · rw [← leftRoots]
    exact derives_yields fun tree member => derives_yield (valid tree (by simp [member]))
  · rw [← rightRoots]
    exact derives_yields fun tree member => derives_yield (valid tree (by simp [member]))

end Grammar

end ShiftReduce
