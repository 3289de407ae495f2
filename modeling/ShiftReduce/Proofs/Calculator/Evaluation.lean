import ShiftReduce.Proofs.Calculator.Expressions
import ShiftReduce.Proofs.Parser.Completeness

/-! The calculator computes the values of expressions. The parser follows the tree of
an expression, its handlers put the value on the stack, and once a node has failed
nothing replaces its fault. -/

namespace ShiftReduce.Calculator

theorem checked_eq (value : Int) : checked value = if Fits value then some value else none := by
  have least : Int64.minValue.toInt = leastValue := by decide
  have greatest : Int64.maxValue.toInt = greatestValue := by decide
  simp only [checked, Fits, least, greatest]

theorem Operator.apply_eq_result? (operator : Operator) (a b : Int) :
    operator.apply a b = operator.result? a b := by
  cases operator with
  | add => simp [apply, result?, exact, checked_eq]
  | sub => simp [apply, result?, exact, checked_eq]
  | mul => simp [apply, result?, exact, checked_eq]
  | div =>
      by_cases zero : b = 0
      · simp [apply, result?, zero]
      · simp [apply, result?, exact, checked_eq, zero]

theorem digitsValue_eq (digits : List Char) :
    digitsValue digits = Nat.ofDigits 10 (digits.reverse.map fun c => c.toNat - '0'.toNat) := by
  induction digits using List.reverseRecOn with
  | nil => rfl
  | append_singleton front c ih =>
      have last : digitsValue (front ++ [c]) = 10 * digitsValue front + (c.toNat - '0'.toNat) := by
        simp [digitsValue]
      rw [last, ih]
      simp [Nat.ofDigits_cons, Nat.add_comm]

theorem numberValue_number (numeral : Numeral) :
    numberValue (number numeral.digits) = numeral.value? := by
  simp [numberValue, number, checked_eq, digitsValue_eq, Numeral.value?, Numeral.value]

theorem Lexeme.token_terminal (lexeme : Lexeme) :
    lexeme.token.isTerminal = true ∧ lexeme.token.symbol ≠ .endMarker := by
  cases lexeme with
  | numeral literal => exact ⟨rfl, by simp [token, number, numberName, Symbol.endMarker]⟩
  | operator operation => cases operation <;> decide
  | opening => decide
  | closing => decide

def Level.token : Level → Token
  | sum => .nonterminal "E"
  | product => .nonterminal "T"
  | factor => .nonterminal "F"

/-- How many rules lie between a level and that of sums. -/
def Level.depth : Level → Nat
  | sum => 0
  | product => 1
  | factor => 2

def Operator.ruleId : Operator → RuleId
  | add => 1
  | sub => 2
  | mul => 4
  | div => 5

namespace Expression

variable {level : Level}

/-- The rule of the outermost node. -/
def rule {level : Level} : Expression level → Rule
  | operate operator _ _ =>
      { id := operator.ruleId
        left := operator.level.token
        right := [operator.level.token, (Lexeme.operator operator).token,
          operator.level.below.token] }
  | product _ => { id := 3, left := Level.token .sum, right := [Level.token .product] }
  | factor _ => { id := 6, left := Level.token .product, right := [Level.token .factor] }
  | number _ => { id := 7, left := Level.token .factor, right := [.terminal numberName] }
  | group _ =>
      { id := 8
        left := Level.token .factor
        right := [Lexeme.opening.token, Level.token .sum, Lexeme.closing.token] }

def tree {level : Level} : Expression level → Tree
  | operate operator left right =>
      .node (operate operator left right).rule
        [left.tree, .leaf (Lexeme.operator operator).token, right.tree]
  | product inner => .node (product inner).rule [inner.tree]
  | factor inner => .node (factor inner).rule [inner.tree]
  | number numeral => .node (number numeral).rule [.leaf (Lexeme.numeral numeral).token]
  | group inner =>
      .node (group inner).rule
        [.leaf Lexeme.opening.token, inner.tree, .leaf Lexeme.closing.token]

theorem rule_mem (expression : Expression level) : expression.rule ∈ grammar.rules := by
  cases expression with
  | operate operator left right =>
      simp only [rule]
      cases operator <;> decide +kernel
  | product inner =>
      simp only [rule]
      decide +kernel
  | factor inner =>
      simp only [rule]
      decide +kernel
  | number numeral =>
      simp only [rule]
      decide +kernel
  | group inner =>
      simp only [rule]
      decide +kernel

theorem root_tree (expression : Expression level) : expression.tree.root = level.token := by
  cases expression <;> rfl

theorem valid_tree (expression : Expression level) : expression.tree.Valid grammar := by
  induction expression with
  | operate operator left right leftIh rightIh =>
      refine Tree.Valid.node (rule_mem _) ?_ (by simp [leftIh, rightIh, Tree.Valid.leaf])
      simp only [List.map_cons, List.map_nil, root_tree, Tree.root_leaf]
      cases operator <;> rfl
  | product inner ih =>
      refine Tree.Valid.node (rule_mem _) ?_ (by simpa using ih)
      simp only [List.map_cons, List.map_nil, root_tree]
      rfl
  | factor inner ih =>
      refine Tree.Valid.node (rule_mem _) ?_ (by simpa using ih)
      simp only [List.map_cons, List.map_nil, root_tree]
      rfl
  | number numeral => exact Tree.Valid.node (rule_mem _) rfl (by simp [Tree.Valid.leaf])
  | group inner ih =>
      refine Tree.Valid.node (rule_mem _) ?_ (by simp [ih, Tree.Valid.leaf])
      simp only [List.map_cons, List.map_nil, root_tree, Tree.root_leaf]
      rfl

theorem yield_tree (expression : Expression level) :
    expression.tree.yield = expression.lexemes.map Lexeme.token := by
  induction expression with
  | operate operator left right leftIh rightIh =>
      simp [tree, Tree.yield, Tree.yields, lexemes, leftIh, rightIh]
  | product inner ih => simp [tree, Tree.yield, Tree.yields, lexemes, ih]
  | factor inner ih => simp [tree, Tree.yield, Tree.yields, lexemes, ih]
  | number numeral => rfl
  | group inner ih => simp [tree, Tree.yield, Tree.yields, lexemes, ih]

theorem length_reductions_tree (expression : Expression level) :
    expression.tree.reductions.length + level.depth ≤ 3 * expression.lexemes.length := by
  induction expression with
  | operate operator left right leftIh rightIh =>
      simp only [tree, lexemes, Tree.reductions, Tree.forestReductions, List.length_append,
        List.length_cons, List.length_nil]
      omega
  | product inner ih =>
      simp only [tree, lexemes, Tree.reductions, Tree.forestReductions, List.length_append,
        List.length_cons, List.length_nil, Level.depth] at ih ⊢
      omega
  | factor inner ih =>
      simp only [tree, lexemes, Tree.reductions, Tree.forestReductions, List.length_append,
        List.length_cons, List.length_nil, Level.depth] at ih ⊢
      omega
  | number numeral => exact Nat.le_refl 3
  | group inner ih =>
      simp only [tree, lexemes, Tree.reductions, Tree.forestReductions, List.length_append,
        List.length_cons, List.length_nil, Level.depth] at ih ⊢
      omega

end Expression

/-- The values after reductions, each with the tokens it takes off the stack. -/
def compute (reductions : List (Rule × List Token)) (values : Values) : Values :=
  reductions.foldl (fun current made => parser.handlers.invoke made.1.id made.2 current) values

theorem parser_table : parser.table = .generate .slr grammar := by
  rw [parser, Parser.onAll_table, Parser.ofGrammar]

theorem compute_append (first second : List (Rule × List Token)) (values : Values) :
    compute (first ++ second) values = compute second (compute first values) :=
  List.foldl_append

/-- A rule without a handler passes on what was computed below it. -/
theorem compute_passed {rule : Rule} {children : List Tree} {inner : Tree}
    (unhandled : parser.handlers.get? rule.id = none)
    (below : Tree.forestReductions children = inner.reductions) (values : Values) :
    compute (Tree.node rule children).reductions values = compute inner.reductions values := by
  rw [Tree.reductions, compute_append, below]
  simp [compute, Handlers.invoke, unhandled]

section Fault

variable {values : Values} {fault : Fault}

theorem Values.fault_pushNumber (failed : values.fault = some fault) (arguments : List Token) :
    (pushNumber arguments values).fault = some fault := by
  unfold pushNumber
  split
  · exact failed
  · simp [fail, failed]

theorem Values.fault_operate (failed : values.fault = some fault) (operator : Operator)
    (arguments : List Token) : (operate operator arguments values).fault = some fault := by
  unfold operate
  dsimp only
  split
  · split
    · exact failed
    · simp [fail, failed]
  · simp [fail, failed]

theorem fault_invoke (failed : values.fault = some fault) (id : RuleId)
    (arguments : List Token) : (parser.handlers.invoke id arguments values).fault = some fault := by
  unfold Handlers.invoke
  split
  · exact failed
  · rename_i handler found
    obtain ⟨entry, listed, rfl⟩ := Option.map_eq_some_iff.mp found
    have member : entry ∈ handlers := List.mem_of_find?_eq_some listed
    simp only [handlers, List.mem_cons, List.not_mem_nil, or_false] at member
    rcases member with rfl | rfl | rfl | rfl | rfl
    · exact Values.fault_operate failed .add arguments
    · exact Values.fault_operate failed .sub arguments
    · exact Values.fault_operate failed .mul arguments
    · exact Values.fault_operate failed .div arguments
    · exact Values.fault_pushNumber failed arguments

theorem fault_compute (failed : values.fault = some fault)
    (reductions : List (Rule × List Token)) : (compute reductions values).fault = some fault := by
  induction reductions generalizing values with
  | nil => exact failed
  | cons made rest ih => exact ih (fault_invoke failed made.1.id made.2)

end Fault

namespace Expression

variable {level : Level}

theorem compute_operate (operator : Operator) (left : Expression operator.level)
    (right : Expression operator.level.below) (values : Values) :
    compute (operate operator left right).tree.reductions values =
      Values.operate operator
        [left.tree.root, (Lexeme.operator operator).token, right.tree.root]
        (compute right.tree.reductions (compute left.tree.reductions values)) := by
  simp only [tree, Tree.reductions, Tree.forestReductions, List.nil_append, List.append_nil,
    compute_append]
  cases operator <;> rfl

theorem compute_product (inner : Expression .product) (values : Values) :
    compute (product inner).tree.reductions values = compute inner.tree.reductions values :=
  compute_passed rfl (by simp [Tree.forestReductions]) values

theorem compute_factor (inner : Expression .factor) (values : Values) :
    compute (factor inner).tree.reductions values = compute inner.tree.reductions values :=
  compute_passed rfl (by simp [Tree.forestReductions]) values

theorem compute_group (inner : Expression .sum) (values : Values) :
    compute (group inner).tree.reductions values = compute inner.tree.reductions values :=
  compute_passed rfl (by simp [Tree.forestReductions, Tree.reductions]) values

theorem compute_number (numeral : Numeral) (values : Values) :
    compute (number numeral).tree.reductions values =
      match numeral.value? with
      | some value => values.push value
      | none => values.fail .invalidNumber := by
  rw [← numberValue_number]
  rfl

/-- An expression with a value puts it on top of the values there are. -/
theorem compute_of_value (expression : Expression level) {value : Int}
    (valued : expression.value? = some value) (values : Values) :
    compute expression.tree.reductions values = values.push value := by
  induction expression generalizing value values with
  | operate operator left right leftIh rightIh =>
      obtain ⟨a, leftValued, rest⟩ := Option.bind_eq_some_iff.mp valued
      obtain ⟨b, rightValued, result⟩ := Option.bind_eq_some_iff.mp rest
      rw [compute_operate, leftIh leftValued, rightIh rightValued]
      simp [Values.operate, Values.push, Operator.apply_eq_result?, result]
  | product inner ih => rw [compute_product, ih valued]
  | factor inner ih => rw [compute_factor, ih valued]
  | number numeral =>
      have shown : numeral.value? = some value := valued
      rw [compute_number, shown]
  | group inner ih => rw [compute_group, ih valued]

theorem faults_of_value (expression : Expression level) {value : Int}
    (valued : expression.value? = some value) : expression.faults = [] := by
  induction expression generalizing value with
  | operate operator left right leftIh rightIh =>
      obtain ⟨a, leftValued, rest⟩ := Option.bind_eq_some_iff.mp valued
      obtain ⟨b, rightValued, result⟩ := Option.bind_eq_some_iff.mp rest
      simp [faults, leftIh leftValued, rightIh rightValued, leftValued, rightValued, result]
  | product inner ih => exact ih valued
  | factor inner ih => exact ih valued
  | number numeral =>
      have shown : numeral.value? = some value := valued
      simp [faults, shown]
  | group inner ih => exact ih valued

/-- An expression without a value has a fault, and the first one is left behind. -/
theorem compute_of_fault (expression : Expression level) (unvalued : expression.value? = none)
    (values : Values) (sound : values.fault = none) :
    ∃ fault, expression.faults.head? = some fault ∧
      (compute expression.tree.reductions values).fault = some fault := by
  induction expression generalizing values with
  | operate operator left right leftIh rightIh =>
      rw [compute_operate]
      cases leftValued : left.value? with
      | none =>
          -- Neither the right operand nor the operation replaces the fault.
          obtain ⟨fault, first, failed⟩ := leftIh leftValued values sound
          refine ⟨fault, by simp [faults, first], ?_⟩
          exact Values.fault_operate (fault_compute failed _) operator _
      | some a =>
          rw [compute_of_value left leftValued]
          have leftSound := faults_of_value left leftValued
          cases rightValued : right.value? with
          | none =>
              have pushed : (values.push a).fault = none := sound
              obtain ⟨fault, first, failed⟩ := rightIh rightValued _ pushed
              refine ⟨fault, by simp [faults, leftSound, first], ?_⟩
              exact Values.fault_operate failed operator _
          | some b =>
              rw [compute_of_value right rightValued]
              have rightSound := faults_of_value right rightValued
              have result : operator.result? a b = none := by
                simpa [value?, leftValued, rightValued] using unvalued
              refine ⟨.arithmetic, ?_, ?_⟩
              · simp [faults, leftSound, rightSound, leftValued, rightValued, result]
              · simp [Values.operate, Values.push, Values.fail, Operator.apply_eq_result?, result,
                  sound]
  | product inner ih =>
      rw [compute_product]
      exact ih unvalued values sound
  | factor inner ih =>
      rw [compute_factor]
      exact ih unvalued values sound
  | number numeral =>
      have shown : numeral.value? = none := unvalued
      refine ⟨.invalidNumber, by simp [faults, shown], ?_⟩
      rw [compute_number, shown]
      simp [Values.fail, sound]
  | group inner ih =>
      rw [compute_group]
      exact ih unvalued values sound

theorem valid_sentence (expression : Expression .sum) :
    (Tree.node grammar.start [expression.tree, .leaf .endMarker]).Valid grammar := by
  have started : grammar.start.symbols = [(Level.token .sum).symbol, .endMarker] := by
    decide +kernel
  refine Tree.Valid.node grammar.start_mem ?_ (by simp [expression.valid_tree, Tree.Valid.leaf])
  rw [started]
  simp only [List.map_cons, List.map_nil, root_tree, Tree.root_leaf]
  rfl

theorem accepts_tokens (expression : Expression .sum) :
    ∃ moves stack, (Table.generate .slr grammar).Steps
        ((Table.generate .slr grammar).start expression.tokens) moves
        { stack, input := [.endMarker] } ∧
      (Table.generate .slr grammar).step { stack, input := [.endMarker] } = .accept ∧
      (Tree.grown moves).reverse = [expression.tree] := by
  have settled : (Table.generate .slr grammar).conflicts = [] := by decide +kernel
  have leaves : Tree.yields [expression.tree, .leaf .endMarker] = expression.tokens := by
    simp [Tree.yields, Tree.yield, yield_tree, tokens]
  have terminals : ∀ token ∈ expression.lexemes.map Lexeme.token,
      token.isTerminal = true ∧ token.symbol ≠ .endMarker := by
    intro token member
    obtain ⟨lexeme, _, rfl⟩ := List.mem_map.mp member
    exact lexeme.token_terminal
  obtain ⟨moves, stack, steps, accepts, grown⟩ :=
    Table.accepts_tree settled expression.valid_sentence leaves rfl terminals []
  have both : [expression.tree] ++ [Tree.leaf .endMarker] =
    (Tree.grown moves).reverse ++ [Tree.leaf .endMarker] := grown
  exact ⟨moves, stack, steps, accepts, (List.append_cancel_right both).symm⟩

/-- The parser accepts the tokens of an expression within its limit of moves, and its
handlers have seen the reductions of the tree. -/
theorem parse_tokens (expression : Expression .sum) :
    (parser.parse (moveLimit expression.tokens) expression.tokens {}).run.outcome = .accepted ∧
      (parser.parse (moveLimit expression.tokens) expression.tokens {}).state =
        compute expression.tree.reductions {} := by
  obtain ⟨moves, stack, steps, accepts, grown⟩ := expression.accepts_tokens
  have enough : moves.length < moveLimit expression.tokens := by
    have few := expression.length_reductions_tree
    have total := steps.length_eq
    simp only [grown, Tree.yields, Tree.forestReductions, List.append_nil, yield_tree,
      List.length_map] at total
    simp only [moveLimit, tokens, List.length_append, List.length_map, List.length_singleton]
    omega
  have parses := Table.parses_of_steps steps (by rw [accepts]; decide)
  have ran := parses.run_eq (moveLimit expression.tokens) enough
  rw [Table.run] at ran
  rw [Parser.parse, Parser.parseFrom_run, Parser.parseFrom_state, parser_table, ran]
  refine ⟨by rw [accepts]; rfl, ?_⟩
  rw [Run.reductions, steps.tracks.inner, grown, Tree.forestReductions, Tree.forestReductions,
    List.append_nil]
  rfl

end Expression

/-- However an expression is written, the calculator reports its value, the only one
left on the stack; or else it reports the first fault of the expression's nodes. -/
theorem report_written {expression : Expression .sum} {input : String}
    (written : expression.Written input.toList) :
    (expression.faults = [] → ∃ value tokens, expression.value? = some value ∧
      scan input.toList = .ok tokens ∧
      (parser.parse (moveLimit tokens) tokens {}).state = { stack := [value], fault := none } ∧
      report (some input) =
        { code := 0
          output := String.ofList (trim input.toList) ++ " = " ++ toString value ++ "\n"
          errors := "" }) ∧
    ∀ fault, expression.faults.head? = some fault →
      report (some input) =
        { code := 1
          output := ""
          errors := "Error: evaluation error: " ++ fault.message ++ "\n" } := by
  obtain ⟨accepted, final⟩ := expression.parse_tokens
  have scanned := written.scan_eq
  cases valued : expression.value? with
  | some value =>
      rw [expression.compute_of_value valued] at final
      constructor
      · intro _
        refine ⟨value, expression.tokens, rfl, scanned, final, ?_⟩
        simp only [report, evaluate, scanned, evaluateTokens, accepted, final]
        rfl
      · intro fault first
        rw [expression.faults_of_value valued] at first
        cases first
  | none =>
      obtain ⟨fault, first, failed⟩ := expression.compute_of_fault valued {} rfl
      rw [← final] at failed
      constructor
      · intro sound
        rw [sound] at first
        cases first
      · intro other same
        obtain rfl : fault = other := Option.some.inj (first.symm.trans same)
        simp only [report, evaluate, scanned, evaluateTokens, accepted, failed]
        cases fault <;> rfl

/-- Both ways to end: operators group to the left and quotients are cut toward zero; of
two faults the first is reported. -/
theorem report_written_quotient :
    (∃ expression : Expression .sum, expression.Written "\t(7 -10)/2 * 2 ".toList ∧
      report (some "\t(7 -10)/2 * 2 ") =
        { code := 0, output := "(7 -10)/2 * 2 = -2\n", errors := "" }) ∧
    ∃ expression : Expression .sum, expression.Written "1/0 + 99999999999999999999".toList ∧
      report (some "1/0 + 99999999999999999999") =
        { code := 1, output := "", errors := "Error: evaluation error: arithmetic error\n" } := by
  have nothing : Blanks [] := by simp [Blanks]
  have space : Blanks [' '] := by simp [Blanks]
  have tab : Blanks ['\t'] := by simp [Blanks]
  constructor
  · let seven : Numeral := ⟨['7'], by decide, by decide⟩
    let ten : Numeral := ⟨['1', '0'], by decide, by decide⟩
    let two : Numeral := ⟨['2'], by decide, by decide⟩
    let difference : Expression .sum :=
      .operate .sub (.product (.factor (.number seven))) (.factor (.number ten))
    let expression : Expression .sum := .product
      (.operate .mul (.operate .div (.factor (.group difference)) (.number two)) (.number two))
    have written : expression.Written "\t(7 -10)/2 * 2 ".toList :=
      .cons ['\t'] tab (.cons [] nothing (.cons [' '] space (.cons [] nothing (.cons [] nothing
        (.cons [] nothing (.cons [] nothing (.cons [' '] space (.cons [' '] space
          (.nil [' '] space)))))))))
    obtain ⟨value, _, valued, _, _, reported⟩ := (report_written written).1 (by decide)
    have known : expression.value? = some (-2) := by decide
    obtain rfl : -2 = value := Option.some.inj (known.symm.trans valued)
    exact ⟨expression, written, reported.trans (by decide +kernel)⟩
  · let one : Numeral := ⟨['1'], by decide, by decide⟩
    let zero : Numeral := ⟨['0'], by decide, by decide⟩
    let large : Numeral := ⟨List.replicate 20 '9', by decide, by decide⟩
    let expression : Expression .sum := .operate .add
      (.product (.operate .div (.factor (.number one)) (.number zero))) (.factor (.number large))
    have written : expression.Written "1/0 + 99999999999999999999".toList :=
      .cons [] nothing (.cons [] nothing (.cons [] nothing (.cons [' '] space (.cons [' '] space
        (.nil [] nothing)))))
    exact ⟨expression, written, (report_written written).2 .arithmetic (by decide)⟩

end ShiftReduce.Calculator
