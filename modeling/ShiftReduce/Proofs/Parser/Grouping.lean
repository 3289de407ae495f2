import ShiftReduce.Proofs.Parser.Consistency
import ShiftReduce.Proofs.Table.Operators

/-! How chains of operands are grouped. Operators wait on the stack for their right
operands; one that groups to the right is stacked on those that wait, and one that
groups to the left has all of them reduced before it is stacked itself. -/

namespace ShiftReduce

namespace Table

/-- Moves on the input that leave part of it have grown the forest, its last tree first. -/
def Arrives (table : Table) (input : List Token) (forest : List Tree) (left : List Token) : Prop :=
  ∃ moves stack, table.Steps (table.start input) moves { stack, input := left } ∧
    Tree.grown moves = forest

variable {method : Method} {g : Grammar} {input left : List Token} {forest : List Tree}
  {token : Token}

theorem arrives_start (table : Table) (input : List Token) : table.Arrives input [] input :=
  ⟨[], _, Steps.refl, rfl⟩

theorem Arrives.shift (arrives : (generate method g).Arrives input forest (token :: left))
    (shifts : ∀ state, (Automaton.build method g).Leads (forest.reverse.map (·.root.symbol)) state →
      ∃ target, (generate method g).lookup state token = .ok (some (.shift target))) :
    (generate method g).Arrives input (.leaf token :: forest) left := by
  obtain ⟨moves, stack, steps, rfl⟩ := arrives
  obtain ⟨top, below, rfl, leads⟩ := steps.stacked.leads
  rw [steps.tracks.spell_eq] at leads
  obtain ⟨target, found⟩ := shifts top.state leads
  refine ⟨_, _, steps.move (Transition.shift found), ?_⟩
  rw [Tree.grown_append]
  rfl

theorem Arrives.reduce {children : List Tree}
    (arrives : (generate method g).Arrives input (children.reverse ++ forest) (token :: left))
    {rule : Rule} (member : rule ∈ g.rules)
    (matched : rule.symbols = children.map (·.root.symbol))
    (reduces : ∀ state, (Automaton.build method g).Leads
        (forest.reverse.map (·.root.symbol) ++ rule.symbols) state →
      (generate method g).lookup state token = .ok (some (.reduce rule.id))) :
    (generate method g).Arrives input (.node rule children :: forest) (token :: left) := by
  obtain ⟨moves, stack, steps, grown⟩ := arrives
  obtain ⟨top, below, rfl, leads⟩ := steps.stacked.leads
  rw [steps.tracks.spell_eq, grown, List.reverse_append, List.reverse_reverse, List.map_append,
    ← matched] at leads
  have found := reduces top.state leads
  obtain ⟨_, _, tableRule, reducible⟩ := steps.stacked.reducible_of_lookup found
  obtain ⟨reduction, reduced⟩ := reducible.reduction_eq tableRule
  have same : reduction.rule = rule := by
    have ruleFound := (reduction_eq_ok reduced).1
    rw [generate_rule?, Grammar.rule?_of_mem member] at ruleFound
    exact (Option.some.inj ruleFound).symm
  have count : rule.production.length = children.reverse.length := by
    rw [← rule.length_symbols, matched, List.length_map, List.length_reverse]
  refine ⟨_, _, steps.move (Transition.reduce found reduced), ?_⟩
  rw [Tree.grown_append, grown, same, Tree.grow, count, List.take_left, List.drop_left,
    List.reverse_reverse]

theorem Arrives.accept (arrives : (generate method g).Arrives input forest (token :: left))
    (accepts : ∀ state,
      (Automaton.build method g).Leads (forest.reverse.map (·.root.symbol)) state →
      (generate method g).lookup state token = .ok (some .accept)) :
    ∃ run, (generate method g).Parses input run ∧ run.outcome = .accepted ∧
      run.last.input = token :: left ∧ run.reductions = Tree.forestReductions forest.reverse := by
  obtain ⟨moves, stack, steps, rfl⟩ := arrives
  obtain ⟨top, below, rfl, leads⟩ := steps.stacked.leads
  rw [steps.tracks.spell_eq] at leads
  have ended : (generate method g).step { stack := top :: below, input := token :: left } =
      .accept := by
    simp only [step, accepts top.state leads]
  refine ⟨_, parses_of_steps steps (by rw [ended]; decide), by rw [ended]; rfl, rfl, ?_⟩
  exact steps.tracks.inner

end Table

/-- A first operand, and each later one with the operator before it. -/
structure Chain where
  first : Token
  rest : List (Token × Token)

def Chain.tokens (chain : Chain) : List Token :=
  chain.first :: chain.rest.flatMap fun pair => [pair.1, pair.2]

/-- The pieces of a chain between some of its operators: the first one, and each later one
with the operator before it. -/
def Chain.cut (cuts : Token → Bool) (first : Token) :
    List (Token × Token) → Chain × List (Token × Chain)
  | [] => ({ first, rest := [] }, [])
  | (operator, operand) :: rest =>
      let pieces := cut cuts operand rest
      if cuts operator then ({ first, rest := [] }, (operator, pieces.1) :: pieces.2)
      else ({ first, rest := (operator, pieces.1.first) :: pieces.1.rest }, pieces.2)

theorem Chain.cut_all {cuts : Token → Bool} {first : Token} {rest : List (Token × Token)}
    (all : ∀ pair ∈ rest, cuts pair.1 = true) :
    cut cuts first rest =
      ({ first, rest := [] }, rest.map fun pair => (pair.1, { first := pair.2, rest := [] })) := by
  induction rest generalizing first with
  | nil => rfl
  | cons pair rest ih =>
      obtain ⟨here, later⟩ := List.forall_mem_cons.mp all
      simp only [cut, here, ih later, if_true, List.map_cons]

theorem Chain.cut_none {cuts : Token → Bool} {first : Token} {rest : List (Token × Token)}
    (none : ∀ pair ∈ rest, cuts pair.1 = false) : cut cuts first rest = ({ first, rest }, []) := by
  induction rest generalizing first with
  | nil => rfl
  | cons pair rest ih =>
      obtain ⟨here, later⟩ := List.forall_mem_cons.mp none
      simp only [cut, here, ih later, Bool.false_eq_true, if_false]

/-- A way to read a chain: what each operator has for its operands. -/
inductive Grouping where
  | operand (token : Token)
  | binary (left : Grouping) (operator : Token) (right : Grouping)
deriving DecidableEq

namespace Grouping

def nestRight (first : Token) : List (Token × Token) → Grouping
  | [] => operand first
  | (operator, next) :: rest => binary (operand first) operator (nestRight next rest)

def joinLeft (first : Grouping) (later : List (Token × Grouping)) : Grouping :=
  later.foldl (fun joined piece => binary joined piece.1 piece.2) first

/-- The pieces between operators that group to the left are nested to the right, and joined
from the left. -/
def ofChain (groupsLeft : Token → Bool) (chain : Chain) : Grouping :=
  let pieces := Chain.cut groupsLeft chain.first chain.rest
  joinLeft (nestRight pieces.1.first pieces.1.rest)
    (pieces.2.map fun piece => (piece.1, nestRight piece.2.first piece.2.rest))

variable {groupsLeft : Token → Bool}

theorem ofChain_left {chain : Chain} (left : ∀ pair ∈ chain.rest, groupsLeft pair.1 = true) :
    ofChain groupsLeft chain =
      joinLeft (operand chain.first) (chain.rest.map fun pair => (pair.1, operand pair.2)) := by
  simp only [ofChain, Chain.cut_all left, nestRight, List.map_map, Function.comp_def]

theorem ofChain_right {chain : Chain} (right : ∀ pair ∈ chain.rest, groupsLeft pair.1 = false) :
    ofChain groupsLeft chain = nestRight chain.first chain.rest := by
  simp only [ofChain, Chain.cut_none right, List.map_nil, joinLeft, List.foldl_nil]

/-- What is read when all operators that wait for a right operand get it, the last first. -/
def collapse (last : Grouping) (pending : List (Grouping × Token)) : Grouping :=
  pending.foldl (fun right waiting => binary waiting.1 waiting.2 right) last

/-- What is read in the end, when a chain comes after operators that wait. -/
def finish (groupsLeft : Token → Bool) (pending : List (Grouping × Token)) (first : Token)
    (rest : List (Token × Token)) : Grouping :=
  let pieces := Chain.cut groupsLeft first rest
  joinLeft (collapse (nestRight pieces.1.first pieces.1.rest) pending)
    (pieces.2.map fun piece => (piece.1, nestRight piece.2.first piece.2.rest))

theorem finish_left {operator : Token} (left : groupsLeft operator = true)
    (pending : List (Grouping × Token)) (first next : Token) (rest : List (Token × Token)) :
    finish groupsLeft pending first ((operator, next) :: rest) =
      finish groupsLeft [(collapse (operand first) pending, operator)] next rest := by
  simp [finish, Chain.cut, left, joinLeft, collapse, nestRight]

theorem finish_right {operator : Token} (right : groupsLeft operator = false)
    (pending : List (Grouping × Token)) (first next : Token) (rest : List (Token × Token)) :
    finish groupsLeft pending first ((operator, next) :: rest) =
      finish groupsLeft ((operand first, operator) :: pending) next rest := by
  simp [finish, Chain.cut, right, joinLeft, collapse, nestRight]

end Grouping

/-- The rule with a given production, if there is one. -/
def Grammar.ruleFor (g : Grammar) (symbols : List Symbol) : Rule :=
  (g.rules.find? (·.symbols = symbols)).getD g.start

/-- The tree of a grouping, by the rules whose productions its operators and operands make. -/
def Grouping.tree (g : Grammar) : Grouping → Tree
  | operand token => .node (g.ruleFor [token.symbol]) [.leaf token]
  | binary left operator right =>
      let children := [left.tree g, .leaf operator, right.tree g]
      .node (g.ruleFor (children.map (·.root.symbol))) children

/-- The forest of operators that wait for their right operands, the last one first. -/
def Grouping.pile (g : Grammar) (pending : List (Grouping × Token)) : List Tree :=
  pending.flatMap fun waiting => [.leaf waiting.2, waiting.1.tree g]

namespace OperatorLanguage

variable (language : OperatorLanguage)

def groupsLeft (token : Token) : Bool :=
  language.operators.any fun operator => .terminal operator.1 = token.symbol ∧ operator.2 = .left

/-- The chain is of operands and operators of the language. -/
def Reads (chain : Chain) : Prop :=
  chain.first.symbol = language.atom ∧
    ∀ pair ∈ chain.rest, pair.1.symbol ∈ language.signs ∧ pair.2.symbol = language.atom

def Groups : Grouping → Prop
  | .operand token => token.symbol = language.atom
  | .binary left operator right =>
      Groups left ∧ operator.symbol ∈ language.signs ∧ Groups right

/-- Operators that wait, each with an expression for its left operand. -/
def Waits (pending : List (Grouping × Token)) : Prop :=
  ∀ waiting ∈ pending, language.Groups waiting.1 ∧ waiting.2.symbol ∈ language.signs

/-- The operators that wait, the last one last. -/
def waiting (pending : List (Grouping × Token)) : List Symbol :=
  (pending.map (·.2.symbol)).reverse

variable {language} {g : Grammar} {pending : List (Grouping × Token)} {token : Token}

theorem waiting_cons (grouping : Grouping) (token : Token) (pending : List (Grouping × Token)) :
    waiting ((grouping, token) :: pending) = waiting pending ++ [token.symbol] := by
  simp [waiting]

theorem waits_nil : language.Waits [] := by
  simp [Waits]

theorem Waits.cons (waits : language.Waits pending) {last : Grouping}
    (groups : language.Groups last) (sign : token.symbol ∈ language.signs) :
    language.Waits ((last, token) :: pending) :=
  List.forall_mem_cons.mpr ⟨⟨groups, sign⟩, waits⟩

theorem Waits.known (waits : language.Waits pending) :
    ∀ sign ∈ waiting pending, sign ∈ language.signs := by
  intro sign member
  obtain ⟨one, inside, rfl⟩ := List.mem_map.mp (List.mem_reverse.mp member)
  exact (waits one inside).2

theorem exists_left (left : language.groupsLeft token = true) :
    ∃ operator ∈ language.operators, token.symbol = .terminal operator.1 ∧ operator.2 = .left := by
  obtain ⟨operator, member, both⟩ := List.any_eq_true.mp left
  obtain ⟨same, side⟩ := of_decide_eq_true both
  exact ⟨operator, member, same.symm, side⟩

theorem exists_right (sign : token.symbol ∈ language.signs)
    (right : language.groupsLeft token = false) :
    ∃ operator ∈ language.operators, token.symbol = .terminal operator.1 ∧ operator.2 = .right := by
  obtain ⟨operator, member, same⟩ := List.mem_map.mp sign
  refine ⟨operator, member, same.symm, (language.binary operator member).resolve_left ?_⟩
  intro side
  exact List.any_eq_false.mp right operator member (decide_eq_true ⟨same, side⟩)

theorem groups_collapse {last : Grouping} (waits : language.Waits pending)
    (groups : language.Groups last) : language.Groups (last.collapse pending) := by
  induction pending generalizing last with
  | nil => exact groups
  | cons one pending ih =>
      obtain ⟨⟨before, sign⟩, later⟩ := List.forall_mem_cons.mp waits
      exact ih later ⟨before, sign, groups⟩

theorem groups_finish {first : Token} {rest : List (Token × Token)}
    (reads : language.Reads { first, rest }) (waits : language.Waits pending) :
    language.Groups (Grouping.finish language.groupsLeft pending first rest) := by
  induction rest generalizing first pending with
  | nil => exact groups_collapse waits reads.1
  | cons pair rest ih =>
      obtain ⟨operator, next⟩ := pair
      obtain ⟨operand, pairs⟩ := reads
      obtain ⟨⟨sign, nextOperand⟩, later⟩ := List.forall_mem_cons.mp pairs
      have groups : language.Groups (.operand first) := operand
      cases side : language.groupsLeft operator with
      | true =>
          rw [Grouping.finish_left side]
          exact ih ⟨nextOperand, later⟩ (waits_nil.cons (groups_collapse waits groups) sign)
      | false =>
          rw [Grouping.finish_right side]
          exact ih ⟨nextOperand, later⟩ (waits.cons groups sign)

namespace Describes

variable (describes : language.Describes g)

include describes

theorem ruleFor_spec {right : List Symbol} (known : right ∈ language.rights) :
    g.ruleFor right ∈ g.rules ∧ (g.ruleFor right).symbols = right := by
  obtain ⟨rule, member, symbols⟩ := describes.exists_rule known
  cases found : g.rules.find? (·.symbols = right) with
  | none => simpa [symbols] using List.find?_eq_none.mp found rule member
  | some other =>
      have same : g.ruleFor right = other := by rw [Grammar.ruleFor, found, Option.getD_some]
      rw [same]
      exact ⟨List.mem_of_find?_eq_some found, by simpa using List.find?_some found⟩

theorem node_spec {children : List Tree}
    (known : children.map (·.root.symbol) ∈ language.rights)
    (valid : ∀ child ∈ children, child.Valid g) :
    (g.ruleFor (children.map (·.root.symbol))).left.symbol = language.result ∧
      (Tree.node (g.ruleFor (children.map (·.root.symbol))) children).Valid g := by
  obtain ⟨member, symbols⟩ := describes.ruleFor_spec known
  refine ⟨describes.left_of_right member ?_, Tree.Valid.node member symbols.symm valid⟩
  rw [symbols]
  exact known

theorem tree_spec {grouping : Grouping} (groups : language.Groups grouping) :
    (grouping.tree g).root.symbol = language.result ∧ (grouping.tree g).Valid g := by
  induction grouping with
  | operand token =>
      have known : [Tree.leaf token].map (·.root.symbol) ∈ language.rights := by
        rw [List.map_singleton, Tree.root_leaf, show token.symbol = language.atom from groups]
        exact language.atom_mem_rights
      exact describes.node_spec known (by simpa using Tree.Valid.leaf token)
  | binary left operator right leftSpec rightSpec =>
      obtain ⟨leftGroups, sign, rightGroups⟩ := groups
      obtain ⟨leftRoot, leftValid⟩ := leftSpec leftGroups
      obtain ⟨rightRoot, rightValid⟩ := rightSpec rightGroups
      have known : [left.tree g, .leaf operator, right.tree g].map (·.root.symbol) ∈
          language.rights := by
        simp only [List.map_cons, List.map_nil, leftRoot, rightRoot, Tree.root_leaf]
        exact operator_mem_rights sign
      exact describes.node_spec known (by simpa using ⟨leftValid, Tree.Valid.leaf _, rightValid⟩)

theorem roots_pile (waits : language.Waits pending) :
    (Grouping.pile g pending).reverse.map (·.root.symbol) =
      language.pending (waiting pending) := by
  induction pending with
  | nil => rfl
  | cons one pending ih =>
      obtain ⟨⟨groups, _⟩, later⟩ := List.forall_mem_cons.mp waits
      have root := (describes.tree_spec groups).1
      have before := ih later
      rw [waiting_cons, pending_concat, ← before]
      simp [Grouping.pile, root]

section Machine

variable {method : Method} {input left : List Token} {last : Grouping}

theorem read_operand (waits : language.Waits pending) {next : Token}
    (arrives : (Table.generate method g).Arrives input (Grouping.pile g pending)
      (token :: next :: left))
    (operand : token.symbol = language.atom)
    (follows : next.symbol = .endMarker ∨ next.symbol ∈ language.signs) :
    (Table.generate method g).Arrives input
      ((Grouping.operand token).tree g :: Grouping.pile g pending) (next :: left) := by
  have shifted : (Table.generate method g).Arrives input
      ([Tree.leaf token].reverse ++ Grouping.pile g pending) (next :: left) := by
    refine arrives.shift fun state leads => ?_
    rw [describes.roots_pile waits] at leads
    exact describes.lookup_operand waits.known leads operand
  have known : [token.symbol] ∈ language.rights := by
    rw [operand]
    exact language.atom_mem_rights
  obtain ⟨member, symbols⟩ := describes.ruleFor_spec known
  refine shifted.reduce member symbols fun state leads => ?_
  rw [describes.roots_pile waits, symbols, operand] at leads
  exact describes.lookup_after_operand waits.known leads follows member (by rw [symbols, operand])

theorem reduce_operator {before : Grouping} {operator : Token}
    (waits : language.Waits ((before, operator) :: pending)) (groups : language.Groups last)
    (arrives : (Table.generate method g).Arrives input
      (last.tree g :: Grouping.pile g ((before, operator) :: pending)) (token :: left))
    (ends : token.symbol = .endMarker ∨ language.groupsLeft token = true) :
    (Table.generate method g).Arrives input
      ((Grouping.binary before operator last).tree g :: Grouping.pile g pending)
      (token :: left) := by
  obtain ⟨⟨beforeGroups, sign⟩, later⟩ := List.forall_mem_cons.mp waits
  let children := [before.tree g, .leaf operator, last.tree g]
  have roots : children.map (·.root.symbol) =
      [language.result, operator.symbol, language.result] := by
    simp [children, (describes.tree_spec beforeGroups).1, (describes.tree_spec groups).1]
  have known : children.map (·.root.symbol) ∈ language.rights := by
    rw [roots]
    exact operator_mem_rights sign
  obtain ⟨member, symbols⟩ := describes.ruleFor_spec known
  have stacked : (Table.generate method g).Arrives input
      (children.reverse ++ Grouping.pile g pending) (token :: left) := arrives
  refine stacked.reduce member symbols fun state leads => ?_
  have signs := waits.known
  rw [waiting_cons] at signs
  have production := symbols.trans roots
  rw [describes.roots_pile later, production, pending_operator] at leads
  rcases ends with marked | groupsLeft
  · exact describes.lookup_end leads member production signs marked
  · obtain ⟨declared, inside, same, side⟩ := exists_left groupsLeft
    obtain ⟨target, found⟩ := describes.lookup_sign leads member production signs inside same
    rw [found, side]
    rfl

theorem shift_operator (waits : language.Waits pending) (groups : language.Groups last)
    (arrives : (Table.generate method g).Arrives input (last.tree g :: Grouping.pile g pending)
      (token :: left))
    (sign : token.symbol ∈ language.signs)
    (free : pending = [] ∨ language.groupsLeft token = false) :
    (Table.generate method g).Arrives input (Grouping.pile g ((last, token) :: pending)) left := by
  refine arrives.shift fun state leads => ?_
  rw [List.reverse_cons, List.map_append, describes.roots_pile waits, List.map_singleton,
    (describes.tree_spec groups).1] at leads
  cases pending with
  | nil => exact describes.lookup_first_sign leads sign
  | cons one pending =>
      obtain ⟨before, operator⟩ := one
      obtain ⟨declared, inside, same, side⟩ := exists_right sign (free.resolve_left (by simp))
      have waiting := (waits _ List.mem_cons_self).2
      obtain ⟨rule, member, symbols⟩ := describes.exists_rule (operator_mem_rights waiting)
      have signs := waits.known
      rw [waiting_cons] at signs leads
      obtain ⟨target, found⟩ := describes.lookup_sign leads member symbols signs inside same
      refine ⟨target, ?_⟩
      rw [found, side]
      rfl

/-- What ends a chain, or cuts it, has all operators that wait reduced. -/
theorem reduce_pending (waits : language.Waits pending) (groups : language.Groups last)
    (arrives : (Table.generate method g).Arrives input (last.tree g :: Grouping.pile g pending)
      (token :: left))
    (ends : token.symbol = .endMarker ∨ language.groupsLeft token = true) :
    (Table.generate method g).Arrives input [(last.collapse pending).tree g] (token :: left) := by
  induction pending generalizing last with
  | nil => exact arrives
  | cons one pending ih =>
      obtain ⟨⟨beforeGroups, sign⟩, later⟩ := List.forall_mem_cons.mp waits
      exact ih later ⟨beforeGroups, sign, groups⟩
        (describes.reduce_operator waits groups arrives ends)

theorem read_chain {first marker : Token} {rest : List (Token × Token)}
    (reads : language.Reads { first, rest }) (waits : language.Waits pending)
    (marked : marker.symbol = .endMarker)
    (arrives : (Table.generate method g).Arrives input (Grouping.pile g pending)
      (Chain.tokens { first, rest } ++ marker :: left)) :
    (Table.generate method g).Arrives input
      [(Grouping.finish language.groupsLeft pending first rest).tree g] (marker :: left) := by
  induction rest generalizing first pending with
  | nil =>
      have read := describes.read_operand waits arrives reads.1 (Or.inl marked)
      exact describes.reduce_pending waits reads.1 read (Or.inl marked)
  | cons pair rest ih =>
      obtain ⟨operator, next⟩ := pair
      obtain ⟨operand, pairs⟩ := reads
      obtain ⟨⟨sign, nextOperand⟩, later⟩ := List.forall_mem_cons.mp pairs
      have groups : language.Groups (.operand first) := operand
      have read := describes.read_operand waits arrives operand (Or.inr sign)
      cases side : language.groupsLeft operator with
      | true =>
          have reduced := describes.reduce_pending waits groups read (Or.inr side)
          have collapsed := groups_collapse waits groups
          have shifted := describes.shift_operator waits_nil collapsed reduced sign (Or.inl rfl)
          rw [Grouping.finish_left side]
          exact ih ⟨nextOperand, later⟩ (waits_nil.cons collapsed sign) shifted
      | false =>
          have shifted := describes.shift_operator waits groups read sign (Or.inr side)
          rw [Grouping.finish_right side]
          exact ih ⟨nextOperand, later⟩ (waits.cons groups sign) shifted

theorem accepts_chain (method : Method) {chain : Chain} (reads : language.Reads chain)
    {marker : Token} (marked : marker.symbol = .endMarker) :
    ∃ run, (Table.generate method g).Parses (chain.tokens ++ [marker]) run ∧
      run.outcome = .accepted ∧ run.last.input = [marker] ∧
      run.reductions = ((Grouping.ofChain language.groupsLeft chain).tree g).reductions := by
  have root := (describes.tree_spec (groups_finish reads waits_nil)).1
  have started : (Table.generate method g).Arrives (chain.tokens ++ [marker]) (Grouping.pile g [])
      (chain.tokens ++ [marker]) := Table.arrives_start _ _
  have arrives := describes.read_chain reads waits_nil marked started
  obtain ⟨run, parses, accepted, last, reductions⟩ := arrives.accept fun state leads => by
    rw [List.reverse_singleton, List.map_singleton, root] at leads
    exact describes.lookup_accept leads marked
  refine ⟨run, parses, accepted, last, ?_⟩
  rw [reductions, List.reverse_singleton, Tree.forestReductions, Tree.forestReductions,
    List.append_nil]
  rfl

end Machine

end Describes

/-- In whatever order its tokens and rules are declared, the nonterminal before the rules,
a language has a grammar, and every chain is accepted and grouped by its operators:
cut at those that group to the left, nested to the right between them, and joined to
the left. -/
theorem parse_grouped (language : OperatorLanguage) {declarations : List Declaration}
    (perm : declarations.Perm language.declarations) :
    (∀ before after, declarations = before ++ .nonterminal language.expression :: after →
      (∀ left right, .rule left right ∉ before) →
      language.operators.length + 1 < Draft.ruleLimit →
      ∃ g, Grammar.define declarations = .ok g) ∧
    ∀ g, Grammar.define declarations = .ok g → ∀ method chain marker, language.Reads chain →
      marker.symbol = .endMarker →
      let input := chain.tokens ++ [marker]
      let grouping := Grouping.ofChain language.groupsLeft chain
      (∃ run, (Table.generate method g).Parses input run ∧ run.outcome = .accepted ∧
        run.last.pulled input = input.length ∧ (grouping.tree g).Valid g ∧
        run.reductions = (grouping.tree g).reductions) ∧
      ((∀ pair ∈ chain.rest, language.groupsLeft pair.1 = true) → grouping =
        .joinLeft (.operand chain.first) (chain.rest.map fun pair => (pair.1, .operand pair.2))) ∧
      ((∀ pair ∈ chain.rest, language.groupsLeft pair.1 = false) →
        grouping = .nestRight chain.first chain.rest) := by
  refine ⟨fun before after => exists_define perm, ?_⟩
  intro g defined method chain marker reads marked input grouping
  have describes := describes_of_define perm defined
  obtain ⟨run, parses, accepted, last, reductions⟩ := describes.accepts_chain method reads marked
  refine ⟨⟨run, parses, accepted, ?_, ?_, reductions⟩, Grouping.ofChain_left, Grouping.ofChain_right⟩
  · rw [Configuration.pulled, last]
    rfl
  · exact (describes.tree_spec (groups_finish reads waits_nil)).2

/-- Powers and sums, as in `x ^ x + x ^ x ^ x`. -/
theorem parse_grouped_powers :
    let e := Token.nonterminal "E"
    let x := Token.terminal "x"
    let plus := Token.operator "+" .left
    let caret := Token.operator "^" .right
    let declarations : List Declaration :=
      [.operator "^" .right, .nonterminal "E", .rule e [e, plus, e], .rule e [x],
        .operator "+" .left, .rule e [e, caret, e], .terminal "x"]
    let power : Grouping := .binary (.operand x) caret (.operand x)
    ∃ g, Grammar.define declarations = .ok g ∧ ∀ method, ∃ run,
      (Table.generate method g).Parses
        [x, caret, x, plus, x, caret, x, caret, x, .endMarker] run ∧ run.outcome = .accepted ∧
      run.reductions = ((Grouping.binary power plus
        (.binary (.operand x) caret power)).tree g).reductions := by
  intro e x plus caret declarations power
  let language : OperatorLanguage :=
    { expression := "E"
      operand := "x"
      operators := [("+", .left), ("^", .right)]
      distinct := by decide
      proper := by decide
      binary := by decide }
  let chain : Chain := { first := x, rest := [(caret, x), (plus, x), (caret, x), (caret, x)] }
  obtain ⟨defines, parses⟩ := parse_grouped language
    (by decide +kernel : declarations.Perm language.declarations)
  obtain ⟨g, defined⟩ := defines [.operator "^" .right] _ rfl (by simp) (by decide)
  refine ⟨g, defined, fun method => ?_⟩
  have reads : language.Reads chain := ⟨rfl, by decide +kernel⟩
  obtain ⟨⟨run, parsed, accepted, _, _, reductions⟩, _⟩ :=
    parses g defined method chain .endMarker reads rfl
  have grouped : Grouping.ofChain language.groupsLeft chain =
      .binary power plus (.binary (.operand x) caret power) := by decide +kernel
  rw [grouped] at reductions
  exact ⟨run, parsed, accepted, reductions⟩

end OperatorLanguage

end ShiftReduce
