import ShiftReduce.Proofs.Grammar.Operators
import ShiftReduce.Proofs.Lookahead.ValidItems
import ShiftReduce.Proofs.Table.Associativity
import ShiftReduce.Proofs.Table.Justified

/-! The cells of tables for binary operators. Whatever the method, a state is reached along
operators that wait for their right operands, and after a complete operand the next
sign may be shifted as well as the last one reduced. -/

namespace ShiftReduce

theorem Table.lookup_of_alone {method : Method} {g : Grammar} {state : StateId} {token : Token}
    {action : Action} (lists : (generate method g).Lists state token.symbol action)
    (alone : ∀ other, (generate method g).Lists state token.symbol other → other = action) :
    (generate method g).lookup state token = .ok (some action) :=
  lookup_of_actions? (actions?_of_lists (tidy_ofEntries _ _ _) lists alone)

namespace OperatorLanguage

variable {language : OperatorLanguage}

/-- The path of operators whose right operands are still to come. -/
def pending (language : OperatorLanguage) (signs : List Symbol) : List Symbol :=
  signs.flatMap fun sign => [language.result, sign]

theorem pending_concat (signs : List Symbol) (sign : Symbol) :
    language.pending (signs ++ [sign]) = language.pending signs ++ [language.result, sign] := by
  simp [pending]

theorem pending_operator (signs : List Symbol) (sign : Symbol) :
    language.pending signs ++ [language.result, sign, language.result] =
      language.pending (signs ++ [sign]) ++ [language.result] := by
  simp [pending]

theorem getLast?_pending (signs : List Symbol) :
    (language.pending signs).getLast? = signs.getLast? := by
  induction signs using List.reverseRecOn with
  | nil => rfl
  | append_singleton front sign _ => simp [pending_concat]

/-- A right-hand side ends with an operand, a path of pending operators with a sign. -/
theorem pending_ne {signs : List Symbol} (known : ∀ sign ∈ signs, sign ∈ language.signs)
    {right : List Symbol} (member : right ∈ language.rights) (before : List Symbol) :
    language.pending signs ≠ before ++ right := by
  intro same
  have last := congrArg List.getLast? same
  rw [getLast?_pending] at last
  rcases right_cases member with rfl | ⟨sign, _, rfl⟩
  · rw [List.getLast?_concat] at last
    exact sign_ne_atom (known _ (List.mem_of_getLast? last)) rfl
  · have shape : before ++ [language.result, sign, language.result] =
        (before ++ [language.result, sign]) ++ [language.result] := by simp
    rw [shape, List.getLast?_concat] at last
    exact sign_ne_result (known _ (List.mem_of_getLast? last)) rfl

namespace Describes

variable {method : Method} {g : Grammar} {path : List Symbol} {item : Item}
  (describes : language.Describes g)

include describes

/-- Where a symbol can stand in a rule. -/
theorem symbols_split {rule : Rule} (member : rule ∈ g.rules) {symbol : Symbol}
    {before after : List Symbol} (shape : rule.symbols = before ++ symbol :: after) :
    symbol = language.result ∧ (before = [] ∨ ∃ sign, before = [language.result, sign]) ∨
      symbol = .endMarker ∧ rule = g.start ∧ before = [language.result] ∨
      symbol = language.atom ∧ before = [] ∨
      symbol ∈ language.signs ∧ before = [language.result] := by
  rcases describes.rule_cases member with rfl | ⟨_, _, known⟩
  · rw [describes.start] at shape
    rcases before with _ | ⟨first, _ | ⟨second, more⟩⟩
    · cases shape
      exact Or.inl ⟨rfl, Or.inl rfl⟩
    · cases shape
      exact Or.inr (Or.inl ⟨rfl, rfl, rfl⟩)
    · simp at shape
  · rcases right_cases known with same | ⟨sign, inside, same⟩
    · rw [same] at shape
      rcases before with _ | ⟨first, more⟩
      · cases shape
        exact Or.inr (Or.inr (Or.inl ⟨rfl, rfl⟩))
      · simp at shape
    · rw [same] at shape
      rcases before with _ | ⟨first, _ | ⟨second, _ | ⟨third, more⟩⟩⟩
      · cases shape
        exact Or.inl ⟨rfl, Or.inl rfl⟩
      · cases shape
        exact Or.inr (Or.inr (Or.inr ⟨inside, rfl⟩))
      · cases shape
        exact Or.inl ⟨rfl, Or.inr ⟨sign, rfl⟩⟩
      · simp at shape

/-- An item is reached along some pending operators and what it has passed by itself. -/
theorem reaches_shape (reaches : method.Reaches g path item) :
    ∃ rule ∈ g.rules, item.rule? g = some rule ∧ ∃ signs,
      path = language.pending signs ++ rule.symbols.take item.dot ∧
        (rule = g.start → signs = []) := by
  induction reaches with
  | initial =>
      refine ⟨g.start, g.start_mem, method.initialItem_rule? g, [], ?_, fun _ => rfl⟩
      rw [method.initialItem_dot]
      rfl
  | @expand path item next _ member ih =>
      obtain ⟨rule, ruleMember, known, signs, shape, _⟩ := ih
      obtain ⟨dot, child, childMember, childKnown, token, atDot, left⟩ :=
        Method.expand_rule? member
      have nonterminal := g.left_nonterminal childMember
      rw [← left] at nonterminal
      -- Terminals have no items of their own, so it is an expression that is expanded.
      obtain ⟨same, before⟩ : token.symbol = language.result ∧
          (rule.symbols.take item.dot = [] ∨
            ∃ sign, rule.symbols.take item.dot = [language.result, sign]) := by
        rcases describes.symbols_split ruleMember (Item.symbols_of_next known atDot) with
          found | ⟨marked, _⟩ | ⟨operand, _⟩ | ⟨operator, _⟩
        · exact found
        · rw [marked] at nonterminal
          cases nonterminal
        · rw [operand] at nonterminal
          cases nonterminal
        · rw [sign_terminal operator] at nonterminal
          cases nonterminal
      have other : child ≠ g.start := by
        rintro rfl
        rw [same, describes.start_left] at left
        exact (symbol_proper List.mem_cons_self).2.2 left
      have along : ∃ more, path = language.pending more := by
        rcases before with front | ⟨sign, front⟩
        · exact ⟨signs, by rw [shape, front, List.append_nil]⟩
        · exact ⟨signs ++ [sign], by rw [shape, front, pending_concat]⟩
      obtain ⟨more, rfl⟩ := along
      exact ⟨child, childMember, childKnown, more, by rw [dot, List.take_zero, List.append_nil],
        fun starts => absurd starts other⟩
  | advance reaches next ih =>
      obtain ⟨rule, member, known, signs, shape, starts⟩ := ih
      refine ⟨rule, member, known, signs, ?_, starts⟩
      rw [shape, Item.take_advance known next, List.append_assoc]

section Listed

variable {state : StateId} {symbol : Symbol}
  (leads : (Automaton.build method g).Leads path state)

include leads

theorem path_of_reduce {id : RuleId}
    (lists : (Table.generate method g).Lists state symbol (.reduce id)) :
    ∃ rule ∈ g.rules, rule.id = id ∧ rule.symbols ∈ language.rights ∧
      ∃ signs, path = language.pending signs ++ rule.symbols := by
  obtain ⟨item, reaches, rfl, complete, _⟩ := (Table.lists_iff_reaches leads).mp lists
  obtain ⟨rule, member, known, signs, shape, _⟩ := describes.reaches_shape reaches
  have id := (Grammar.mem_of_rule? known).2
  rw [Item.take_of_complete known complete] at shape
  rcases describes.rule_cases member with rfl | ⟨_, _, right⟩
  · exact absurd id.symm (Table.proper_of_reduce lists).2.2
  · exact ⟨rule, member, id, right, signs, shape⟩

theorem path_of_accept (lists : (Table.generate method g).Lists state symbol .accept) :
    symbol = .endMarker ∧ path = [language.result] := by
  obtain ⟨item, reaches, marked, accepting⟩ := (Table.lists_iff_reaches leads).mp lists
  obtain ⟨isStart, token, next, atDot⟩ := Item.isAccepting_iff.mp accepting
  obtain ⟨rule, member, known, signs, shape, starts⟩ := describes.reaches_shape reaches
  have same : rule = g.start := by
    rw [Item.rule?, isStart, Grammar.rule?_of_mem g.start_mem] at known
    exact (Option.some.inj known).symm
  refine ⟨marked, ?_⟩
  rcases describes.symbols_split member (Item.symbols_of_next known next) with
    ⟨expression, _⟩ | ⟨_, _, front⟩ | ⟨operand, _⟩ | ⟨operator, _⟩
  · cases atDot.symm.trans expression
  · rw [shape, starts same, front]
    rfl
  · exact absurd (operand.symm.trans atDot) language.atom_ne_endMarker
  · exact absurd atDot (sign_ne_endMarker operator)

theorem path_of_shift {target : StateId}
    (lists : (Table.generate method g).Lists state symbol (.shift target))
    (terminal : symbol.isTerminal = true) :
    symbol = language.atom ∨ ∃ signs, path = language.pending signs ++ [language.result] := by
  obtain ⟨item, reaches, _, next, _⟩ := (Table.lists_iff_reaches leads).mp lists
  obtain ⟨token, atDot, rfl⟩ := Option.map_eq_some_iff.mp next
  obtain ⟨rule, member, known, signs, shape, _⟩ := describes.reaches_shape reaches
  rcases describes.symbols_split member (Item.symbols_of_next known atDot) with
    ⟨expression, _⟩ | ⟨marked, _⟩ | ⟨operand, _⟩ | ⟨_, front⟩
  · rw [expression] at terminal
    cases terminal
  · exact absurd marked (Table.proper_of_shift lists).1
  · exact Or.inl operand
  · exact Or.inr ⟨signs, by rw [shape, front]⟩

end Listed

section Reached

variable {signs : List Symbol} (known : ∀ sign ∈ signs, sign ∈ language.signs)

include known

theorem rightDerives_pending :
    g.RightDerives g.start.symbols (language.pending signs ++ [language.result, .endMarker]) := by
  induction signs using List.reverseRecOn with
  | nil =>
      rw [describes.start]
      exact Grammar.RightDerives.refl _
  | append_singleton front sign ih =>
      have before := ih fun other member => known other (List.mem_append_left _ member)
      have right := operator_mem_rights (known sign (by simp))
      obtain ⟨rule, member, symbols⟩ := describes.exists_rule right
      have left := describes.left_of_right member (symbols ▸ right)
      have step := (Grammar.RightDerives.rule member).context (language.pending front)
        [.endMarker] (by simp [Symbol.endMarker, Symbol.isTerminal])
      rw [left, symbols] at step
      rw [pending_concat, List.append_assoc]
      exact before.trans step

/-- Along pending operators all rules are begun, and each expects every operator and the end. -/
theorem exists_begun (method : Method) {look : Symbol}
    (follows : look = .endMarker ∨ look ∈ language.signs) {rule : Rule} (member : rule ∈ g.rules)
    (left : rule.left.symbol = language.result) :
    ∃ item, method.Reaches g (language.pending signs) item ∧ item.rule? g = some rule ∧
      item.dot = 0 ∧ method.Expects g item look := by
  have atomTerminal : language.atom.isTerminal = true := rfl
  have endTerminal : Symbol.endMarker.isTerminal = true := rfl
  rcases follows with rfl | operator
  · have shape : language.pending signs ++ [language.result, .endMarker] =
        language.pending signs ++ rule.left.symbol :: [.endMarker] := by
      rw [left]
    exact Method.reaches_of_rightDerives method (describes.rightDerives_pending known) member
      shape (Grammar.Derives.refl _) (by simp [endTerminal]) rfl
  · -- One more pending operator puts the sign after the expression before it.
    have longer : ∀ sign ∈ signs ++ [look], sign ∈ language.signs := by
      simpa [or_imp, forall_and] using ⟨known, operator⟩
    have shape : language.pending (signs ++ [look]) ++ [language.result, .endMarker] =
        language.pending signs ++
          rule.left.symbol :: ([look] ++ ([language.result] ++ [.endMarker])) := by
      rw [left, pending_concat, List.append_assoc]
      rfl
    have right := language.atom_mem_rights
    obtain ⟨operand, operandMember, symbols⟩ := describes.exists_rule right
    have derives := (Grammar.Derives.rule operandMember).context [look] [.endMarker]
    rw [describes.left_of_right operandMember (symbols ▸ right), symbols] at derives
    refine Method.reaches_of_rightDerives method (describes.rightDerives_pending longer) member
      shape derives ?_ rfl
    simp [sign_terminal operator, atomTerminal, endTerminal]

theorem exists_reaches (method : Method) {look : Symbol}
    (follows : look = .endMarker ∨ look ∈ language.signs) {rule : Rule} (member : rule ∈ g.rules)
    (left : rule.left.symbol = language.result) {front back : List Symbol}
    (symbols : rule.symbols = front ++ back) :
    ∃ item, method.Reaches g (language.pending signs ++ front) item ∧
      item.rule? g = some rule ∧ item.dot = front.length ∧ method.Expects g item look := by
  obtain ⟨item, reaches, itemRule, dot, expects⟩ :=
    describes.exists_begun known method follows member left
  exact ⟨_, reaches.advance_to itemRule dot symbols, itemRule, rfl,
    (Method.expects_dot _).mpr expects⟩

end Reached

section Lookup

variable {signs : List Symbol} (known : ∀ sign ∈ signs, sign ∈ language.signs)
  {state : StateId} {token : Token} {rule : Rule} (member : rule ∈ g.rules)

include known member

theorem lists_reduce
    (leads : (Automaton.build method g).Leads (language.pending signs ++ rule.symbols) state)
    (right : rule.symbols ∈ language.rights) {look : Symbol}
    (follows : look = .endMarker ∨ look ∈ language.signs) :
    (Table.generate method g).Lists state look (.reduce rule.id) := by
  have left := describes.left_of_right member right
  obtain ⟨item, reaches, itemRule, dot, expects⟩ := describes.exists_reaches known method follows
    member left (List.append_nil _).symm
  refine (Table.lists_iff_reaches leads).mpr ⟨item, reaches, ?_, ?_, expects⟩
  · exact (Grammar.mem_of_rule? itemRule).2.symm
  · rw [Item.next?, Item.rest_of_rule itemRule, dot, Rule.length_symbols, List.drop_length]
    rfl

theorem lists_shift {front back : List Symbol} {symbol : Symbol}
    (leads : (Automaton.build method g).Leads (language.pending signs ++ front) state)
    (right : rule.symbols ∈ language.rights) (symbols : rule.symbols = front ++ symbol :: back) :
    ∃ target, (Table.generate method g).Lists state symbol (.shift target) := by
  have left := describes.left_of_right member right
  obtain ⟨item, reaches, itemRule, dot, _⟩ := describes.exists_reaches known method (Or.inl rfl)
    member left symbols
  have rest : (item.rest g).map Token.symbol = symbol :: back := by
    rw [Item.rest_symbols itemRule, dot, symbols, List.drop_left]
  obtain ⟨expected, next, rfl, _⟩ := Item.next_of_rest rest
  have proper : expected.symbol ≠ .endMarker := by
    intro marked
    apply right_unmarked right
    rw [symbols, marked]
    simp
  obtain ⟨target, _, lists⟩ := Table.lists_shift leads reaches next proper
  exact ⟨target, lists⟩

end Lookup

/-- After a complete expression only the last pending operator can be reduced. -/
theorem sign_of_reduce {signs : List Symbol} {state : StateId} {symbol : Symbol} {id : RuleId}
    (leads : (Automaton.build method g).Leads (language.pending signs ++ [language.result]) state)
    (lists : (Table.generate method g).Lists state symbol (.reduce id)) :
    ∃ rule ∈ g.rules, rule.id = id ∧ ∃ sign, signs.getLast? = some sign ∧
      rule.symbols = [language.result, sign, language.result] := by
  obtain ⟨rule, member, same, right, others, shape⟩ := describes.path_of_reduce leads lists
  rcases right_cases right with single | ⟨sign, _, operator⟩
  · rw [single] at shape
    cases (List.append_inj' shape rfl).2
  · refine ⟨rule, member, same, sign, ?_, operator⟩
    rw [operator, pending_operator] at shape
    rw [← getLast?_pending, (List.append_inj' shape rfl).1, getLast?_pending,
      List.getLast?_concat]

section Tokens

variable {signs : List Symbol} (known : ∀ sign ∈ signs, sign ∈ language.signs)
  {state : StateId} {token : Token}

include known

theorem lookup_operand
    (leads : (Automaton.build method g).Leads (language.pending signs) state)
    (operand : token.symbol = language.atom) :
    ∃ target, (Table.generate method g).lookup state token = .ok (some (.shift target)) := by
  have right := language.atom_mem_rights
  obtain ⟨rule, member, symbols⟩ := describes.exists_rule right
  have begins : (Automaton.build method g).Leads (language.pending signs ++ []) state := by
    rwa [List.append_nil]
  obtain ⟨target, shifts⟩ := describes.lists_shift known member begins (symbols ▸ right) symbols
  rw [← operand] at shifts
  refine ⟨target, Table.lookup_of_alone shifts fun other lists => ?_⟩
  cases other with
  | shift another => rw [Table.shift_unique lists shifts]
  | reduce id =>
      obtain ⟨_, _, _, otherRight, _, shape⟩ := describes.path_of_reduce leads lists
      exact absurd shape (pending_ne known otherRight _)
  | accept =>
      rw [operand] at lists
      exact absurd (describes.path_of_accept leads lists).1 language.atom_ne_endMarker

theorem lookup_after_operand
    (leads : (Automaton.build method g).Leads (language.pending signs ++ [language.atom]) state)
    (follows : token.symbol = .endMarker ∨ token.symbol ∈ language.signs) {rule : Rule}
    (member : rule ∈ g.rules) (symbols : rule.symbols = [language.atom]) :
    (Table.generate method g).lookup state token = .ok (some (.reduce rule.id)) := by
  have right : rule.symbols ∈ language.rights := symbols ▸ language.atom_mem_rights
  have terminal : token.symbol.isTerminal = true := by
    rcases follows with marked | operator
    · rw [marked]
      rfl
    · exact sign_terminal operator
  have ends := leads
  rw [← symbols] at ends
  have reduces := describes.lists_reduce known member ends right follows
  refine Table.lookup_of_alone reduces fun other lists => ?_
  cases other with
  | shift target =>
      rcases describes.path_of_shift leads lists terminal with operand | ⟨_, shape⟩
      · rcases follows with marked | operator
        · exact absurd (operand.symm.trans marked) language.atom_ne_endMarker
        · exact absurd operand (sign_ne_atom operator)
      · cases (List.append_inj' shape rfl).2
  | reduce id =>
      obtain ⟨found, foundMember, rfl, foundRight, others, shape⟩ :=
        describes.path_of_reduce leads lists
      rcases right_cases foundRight with single | ⟨sign, _, operator⟩
      · rw [describes.eq_of_symbols foundMember member (single.trans symbols.symm)]
      · rw [operator, pending_operator] at shape
        cases (List.append_inj' shape rfl).2
  | accept =>
      have shape := (describes.path_of_accept leads lists).2
      cases (List.append_inj' (shape.trans (List.nil_append _).symm) rfl).2

theorem exists_shift_sign
    (leads : (Automaton.build method g).Leads (language.pending signs ++ [language.result]) state)
    {sign : Symbol} (operator : sign ∈ language.signs) :
    ∃ target, (Table.generate method g).Lists state sign (.shift target) := by
  have right := operator_mem_rights operator
  obtain ⟨rule, member, symbols⟩ := describes.exists_rule right
  exact describes.lists_shift known member leads (symbols ▸ right) symbols

end Tokens

section First

variable {state : StateId} {token : Token}
  (leads : (Automaton.build method g).Leads [language.result] state)

include leads

theorem not_reduce_first {symbol : Symbol} {id : RuleId} :
    ¬ (Table.generate method g).Lists state symbol (.reduce id) := by
  intro lists
  have pending : (Automaton.build method g).Leads
      (language.pending [] ++ [language.result]) state := leads
  obtain ⟨_, _, _, _, last, _⟩ := describes.sign_of_reduce pending lists
  cases last

theorem lookup_first_sign (operator : token.symbol ∈ language.signs) :
    ∃ target, (Table.generate method g).lookup state token = .ok (some (.shift target)) := by
  have nothing : ∀ sign ∈ ([] : List Symbol), sign ∈ language.signs := by simp
  obtain ⟨target, shifts⟩ := describes.exists_shift_sign nothing leads operator
  refine ⟨target, Table.lookup_of_alone shifts fun other lists => ?_⟩
  cases other with
  | shift another => rw [Table.shift_unique lists shifts]
  | reduce id => exact absurd lists (describes.not_reduce_first leads)
  | accept => exact absurd (describes.path_of_accept leads lists).1 (sign_ne_endMarker operator)

theorem lookup_accept (marked : token.symbol = .endMarker) :
    (Table.generate method g).lookup state token = .ok (some .accept) := by
  have start := method.initialItem_rule? g
  have symbols : g.start.symbols = [language.result] ++ [.endMarker] := describes.start
  have reaches := Method.Reaches.initial.advance_to start (method.initialItem_dot g) symbols
  obtain ⟨expected, next, same, _⟩ := Item.next_of_rest (Item.rest_at start symbols)
  have accepts : (Table.generate method g).Lists state token.symbol .accept :=
    (Table.lists_iff_reaches leads).mpr ⟨_, reaches, marked,
      Item.isAccepting_iff.mpr ⟨method.initialItem_rule g, expected, next, same⟩⟩
  refine Table.lookup_of_alone accepts fun other lists => ?_
  cases other with
  | shift target => exact absurd marked (Table.proper_of_shift lists).1
  | reduce id => exact absurd lists (describes.not_reduce_first leads)
  | accept => rfl

end First

section Choice

variable {signs : List Symbol} {sign : Symbol} {state : StateId} {token : Token}
  (leads : (Automaton.build method g).Leads
    (language.pending (signs ++ [sign]) ++ [language.result]) state)
  {rule : Rule} (member : rule ∈ g.rules)
  (symbols : rule.symbols = [language.result, sign, language.result])

include leads member symbols

theorem eq_of_reduce_sign {look : Symbol} {id : RuleId}
    (lists : (Table.generate method g).Lists state look (.reduce id)) : id = rule.id := by
  obtain ⟨other, otherMember, rfl, last, ends, otherSymbols⟩ := describes.sign_of_reduce leads lists
  rw [List.getLast?_concat] at ends
  cases ends
  rw [describes.eq_of_symbols otherMember member (otherSymbols.trans symbols.symm)]

variable (known : ∀ other ∈ signs ++ [sign], other ∈ language.signs)

include known

theorem lists_reduce_sign {look : Symbol} (follows : look = .endMarker ∨ look ∈ language.signs) :
    (Table.generate method g).Lists state look (.reduce rule.id) := by
  have operator : sign ∈ language.signs := known sign (by simp)
  have right : rule.symbols ∈ language.rights := by
    rw [symbols]
    exact operator_mem_rights operator
  rw [← pending_operator, ← symbols] at leads
  exact describes.lists_reduce (fun other inside => known other (List.mem_append_left _ inside))
    member leads right follows

theorem lookup_end (marked : token.symbol = .endMarker) :
    (Table.generate method g).lookup state token = .ok (some (.reduce rule.id)) := by
  have reduces := describes.lists_reduce_sign leads member symbols known (Or.inl marked)
  refine Table.lookup_of_alone reduces fun other lists => ?_
  cases other with
  | shift target => exact absurd marked (Table.proper_of_shift lists).1
  | reduce id => rw [describes.eq_of_reduce_sign leads member symbols lists]
  | accept =>
      have count := congrArg List.length (describes.path_of_accept leads lists).2
      rw [← pending_operator] at count
      simp at count

/-- Between two operators the one that comes decides, by the side to which it groups. -/
theorem lookup_sign {operator : String × Assoc} (declared : operator ∈ language.operators)
    (same : token.symbol = .terminal operator.1) :
    ∃ target, (Table.generate method g).lookup state token =
      .ok (some (operator.2.choice target rule.id)) := by
  have operates : token.symbol ∈ language.signs := by
    rw [same]
    exact List.mem_map_of_mem declared
  have reduces := describes.lists_reduce_sign leads member symbols known (Or.inr operates)
  obtain ⟨target, shifts⟩ := describes.exists_shift_sign known leads operates
  obtain ⟨actions, cell, pair⟩ := Table.actions?_of_pair (Table.tidy_ofEntries _ _ _) (by simp)
    shifts reduces fun other lists => by
      cases other with
      | shift another => exact Or.inl (by rw [Table.shift_unique lists shifts])
      | reduce id =>
          exact Or.inr (by rw [describes.eq_of_reduce_sign leads member symbols lists])
      | accept =>
          exact absurd (describes.path_of_accept leads lists).1 (sign_ne_endMarker operates)
  have token : Token.operator operator.1 operator.2 ∈ g.tokens := by
    refine describes.tokens _ (List.mem_cons_of_mem _ (List.mem_cons_of_mem _ ?_))
    exact List.mem_map_of_mem declared
  rw [same] at cell operates
  exact ⟨target, Table.lookup_of_pair token (sign_ne_endMarker operates) cell pair same⟩

end Choice

end Describes

end OperatorLanguage

end ShiftReduce
