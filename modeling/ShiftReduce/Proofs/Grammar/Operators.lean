import ShiftReduce.Proofs.Grammar.Definition

/-! Grammars of binary operators. Every operator stands between two expressions, so that
only the side to which it groups tells how a chain of operands is to be read. -/

namespace ShiftReduce

/-- Names for expressions, for their operands and for binary operators, each with the side
to which it groups. -/
structure OperatorLanguage where
  expression : String
  operand : String
  operators : List (String × Assoc)
  distinct : (expression :: operand :: operators.map Prod.fst).Nodup
  proper : ∀ name ∈ expression :: operand :: operators.map Prod.fst,
    name ≠ "" ∧ Draft.isReserved name = false
  binary : ∀ operator ∈ operators, operator.2 = .left ∨ operator.2 = .right

namespace OperatorLanguage

variable (language : OperatorLanguage)

def result : Symbol :=
  .nonterminal language.expression

def atom : Symbol :=
  .terminal language.operand

def signs : List Symbol :=
  language.operators.map fun operator => .terminal operator.1

def tokens : List Token :=
  .nonterminal language.expression :: .terminal language.operand ::
    language.operators.map fun operator => .operator operator.1 operator.2

/-- The right-hand sides of the rules that are declared. -/
def rights : List (List Symbol) :=
  [language.atom] :: language.signs.map fun sign => [language.result, sign, language.result]

/-- Both sides of all rules, the start rule before the others. -/
def sides : List (Symbol × List Symbol) :=
  (.nonterminal Draft.startName, [language.result, .endMarker]) ::
    language.rights.map fun right => (language.result, right)

def declarations : List Declaration :=
  let expression := Token.nonterminal language.expression
  .nonterminal language.expression :: .terminal language.operand ::
    language.operators.map (fun operator => .operator operator.1 operator.2) ++
    .rule expression [.terminal language.operand] ::
      language.operators.map fun operator =>
        .rule expression [expression, .operator operator.1 operator.2, expression]

theorem tokens_declarations :
    language.declarations.filterMap Declaration.token? = language.tokens := by
  simp [declarations, tokens, Declaration.token?, List.filterMap_append, List.filterMap_cons,
    List.filterMap_map, Function.comp_def]

theorem sides_declarations :
    language.declarations.filterMap Declaration.sides? =
      language.rights.map fun right => (language.result, right) := by
  simp [declarations, rights, signs, result, atom, Declaration.sides?, List.filterMap_append,
    List.filterMap_cons, List.filterMap_map, Function.comp_def, Token.nonterminal,
    Token.terminal, Token.operator]

theorem starts_declarations : language.declarations.filterMap Declaration.start? = [] := by
  simp [declarations, Declaration.start?, List.filterMap_append, List.filterMap_cons,
    List.filterMap_map, Function.comp_def]

theorem names_tokens : language.tokens.map (·.symbol.name) =
    language.expression :: language.operand :: language.operators.map Prod.fst := by
  simp [tokens, Function.comp_def, Token.nonterminal, Token.terminal, Token.operator, Symbol.name]

theorem symbols_tokens :
    language.tokens.map Token.symbol = language.result :: language.atom :: language.signs := by
  simp [tokens, signs, result, atom, Function.comp_def, Token.nonterminal, Token.terminal,
    Token.operator]

theorem nodup_symbols : (language.result :: language.atom :: language.signs).Nodup := by
  have names := language.distinct
  rw [← names_tokens] at names
  rw [← symbols_tokens]
  refine List.Nodup.of_map Symbol.name ?_
  rwa [List.map_map]

theorem nodup_rights : language.rights.Nodup := by
  refine List.nodup_cons.mpr ⟨by simp, ?_⟩
  refine (List.nodup_cons.mp (List.nodup_cons.mp language.nodup_symbols).2).2.map ?_
  intro first second same
  simpa using same

variable {language}

theorem symbol_proper {symbol : Symbol}
    (member : symbol ∈ language.result :: language.atom :: language.signs) :
    symbol ≠ .endMarker ∧ symbol ≠ .epsilon ∧ symbol ≠ .nonterminal Draft.startName := by
  apply Draft.symbol_of_not_reserved
  rw [← symbols_tokens] at member
  have named := List.mem_map_of_mem (f := Symbol.name) member
  rw [List.map_map, Function.comp_def, names_tokens] at named
  exact (language.proper _ named).2

theorem nodup_sides (language : OperatorLanguage) : language.sides.Nodup := by
  refine List.nodup_cons.mpr ⟨?_, language.nodup_rights.map ?_⟩
  · intro member
    obtain ⟨right, _, same⟩ := List.mem_map.mp member
    exact (symbol_proper List.mem_cons_self).2.2 (Prod.mk.inj same).1
  · exact fun first second same => (Prod.mk.inj same).2

theorem eq_of_nonterminal {token : Token} (member : token ∈ language.tokens)
    (nonterminal : token.isTerminal = false) : token = .nonterminal language.expression := by
  rcases List.mem_cons.mp member with same | later
  · exact same
  · rcases List.mem_cons.mp later with rfl | operator
    · cases nonterminal
    · obtain ⟨_, _, rfl⟩ := List.mem_map.mp operator
      cases nonterminal

theorem sign_terminal {sign : Symbol} (member : sign ∈ language.signs) :
    sign.isTerminal = true := by
  obtain ⟨operator, _, rfl⟩ := List.mem_map.mp member
  rfl

theorem sign_ne_result {sign : Symbol} (member : sign ∈ language.signs) :
    sign ≠ language.result := by
  rintro rfl
  cases sign_terminal member

theorem sign_ne_atom {sign : Symbol} (member : sign ∈ language.signs) : sign ≠ language.atom := by
  rintro rfl
  exact (List.nodup_cons.mp (List.nodup_cons.mp language.nodup_symbols).2).1 member

theorem sign_ne_endMarker {sign : Symbol} (member : sign ∈ language.signs) :
    sign ≠ .endMarker :=
  (symbol_proper (List.mem_cons_of_mem language.result
    (List.mem_cons_of_mem language.atom member))).1

theorem atom_ne_endMarker (language : OperatorLanguage) : language.atom ≠ .endMarker :=
  (symbol_proper (List.mem_cons_of_mem language.result List.mem_cons_self)).1

theorem atom_mem_rights (language : OperatorLanguage) : [language.atom] ∈ language.rights :=
  List.mem_cons_self

theorem operator_mem_rights {sign : Symbol} (member : sign ∈ language.signs) :
    [language.result, sign, language.result] ∈ language.rights :=
  List.mem_cons_of_mem _ (List.mem_map_of_mem member)

theorem right_cases {right : List Symbol} (known : right ∈ language.rights) :
    right = [language.atom] ∨
      ∃ sign ∈ language.signs, right = [language.result, sign, language.result] := by
  rcases List.mem_cons.mp known with same | operator
  · exact Or.inl same
  · obtain ⟨sign, member, same⟩ := List.mem_map.mp operator
    exact Or.inr ⟨sign, member, same.symm⟩

theorem mem_symbols_of_right {right : List Symbol} (member : right ∈ language.rights)
    {symbol : Symbol} (inside : symbol ∈ right) :
    symbol ∈ language.result :: language.atom :: language.signs := by
  rcases right_cases member with rfl | ⟨sign, known, rfl⟩
  · rw [List.mem_singleton.mp inside]
    simp
  · simp only [List.mem_cons, List.not_mem_nil, or_false] at inside ⊢
    rcases inside with rfl | rfl | rfl
    · exact Or.inl rfl
    · exact Or.inr (Or.inr known)
    · exact Or.inl rfl

theorem right_plain {right : List Symbol} (member : right ∈ language.rights) :
    .epsilon ∉ right :=
  fun inside => (symbol_proper (mem_symbols_of_right member inside)).2.1 rfl

theorem right_unmarked {right : List Symbol} (member : right ∈ language.rights) :
    .endMarker ∉ right :=
  fun inside => (symbol_proper (mem_symbols_of_right member inside)).1 rfl

/-- A grammar with the rules of the language, a start rule and the declared operators. -/
structure Describes (language : OperatorLanguage) (g : Grammar) : Prop where
  start_left : g.start.left.symbol = .nonterminal Draft.startName
  left : ∀ rule ∈ g.rules, rule = g.start ∨ rule.left.symbol = language.result
  start : g.start.symbols = [language.result, .endMarker]
  rights : (g.rules.map Rule.symbols).Perm ([language.result, .endMarker] :: language.rights)
  tokens : ∀ token ∈ language.tokens, token ∈ g.tokens

namespace Describes

variable {g : Grammar} {rule other : Rule} (describes : language.Describes g)

include describes

theorem eq_of_symbols (member : rule ∈ g.rules) (otherMember : other ∈ g.rules)
    (same : rule.symbols = other.symbols) : rule = other := by
  have distinct : (g.rules.map Rule.symbols).Nodup := by
    refine describes.rights.symm.nodup (List.nodup_cons.mpr ⟨fun inside => ?_, nodup_rights _⟩)
    exact right_unmarked inside (by simp)
  exact List.inj_on_of_nodup_map distinct member otherMember same

theorem rule_cases (member : rule ∈ g.rules) :
    rule = g.start ∨ rule ≠ g.start ∧ rule.left.symbol = language.result ∧
      rule.symbols ∈ language.rights := by
  have inside := describes.rights.mem_iff.mp (List.mem_map_of_mem member)
  rcases List.mem_cons.mp inside with same | known
  · exact Or.inl (describes.eq_of_symbols member g.start_mem (same.trans describes.start.symm))
  · by_cases isStart : rule = g.start
    · exact Or.inl isStart
    · exact Or.inr ⟨isStart, (describes.left rule member).resolve_left isStart, known⟩

theorem left_of_right (member : rule ∈ g.rules) (known : rule.symbols ∈ language.rights) :
    rule.left.symbol = language.result := by
  rcases describes.left rule member with rfl | left
  · rw [describes.start] at known
    exact absurd (by simp) (right_unmarked known)
  · exact left

theorem exists_rule {right : List Symbol} (known : right ∈ language.rights) :
    ∃ rule ∈ g.rules, rule.symbols = right := by
  have inside := describes.rights.mem_iff.mpr (List.mem_cons_of_mem _ known)
  obtain ⟨rule, member, same⟩ := List.mem_map.mp inside
  exact ⟨rule, member, same⟩

end Describes

section Define

variable {declarations : List Declaration} {g : Grammar}
  (perm : declarations.Perm language.declarations)

include perm

theorem tokens_of_define (defined : Grammar.define declarations = .ok g) :
    ∀ token ∈ language.tokens, token ∈ g.tokens := by
  obtain ⟨_, _, tokens, _⟩ := Grammar.define_eq_ok defined
  have listed := perm.filterMap Declaration.token?
  rw [tokens_declarations] at listed
  let added := [Token.nonterminal Draft.startName, Token.endMarker]
  have distinct : ((language.tokens ++ added).map Token.symbol).Nodup := by
    rw [List.map_append, symbols_tokens]
    refine List.nodup_append.mpr ⟨language.nodup_symbols, by decide, ?_⟩
    rintro symbol member _ inside rfl
    obtain ⟨unmarked, _, unstarted⟩ := symbol_proper member
    simp only [added, List.map_cons, List.map_nil, List.mem_cons, List.not_mem_nil, or_false]
      at inside
    rcases inside with same | same
    · exact unstarted same
    · exact unmarked same
  rw [tokens, ← Token.sorted_congr distinct (listed.symm.append_right added)]
  intro token member
  exact (Token.sorted_perm distinct).mem_iff.mpr (List.mem_append_left _ member)

theorem sides_of_define (defined : Grammar.define declarations = .ok g) :
    (g.rules.map Rule.sides).Perm language.sides ∧
      g.start.sides = (.nonterminal Draft.startName, [language.result, .endMarker]) := by
  obtain ⟨symbol, chosen, _, sides, start⟩ := Grammar.define_eq_ok defined
  have starts := perm.filterMap Declaration.start?
  rw [starts_declarations] at starts
  rw [starts.eq_nil] at chosen
  have found : (declarations.filterMap Declaration.token?).find? (!·.isTerminal) = some symbol :=
    chosen
  have member := (perm.filterMap Declaration.token?).mem_iff.mp (List.mem_of_find?_eq_some found)
  rw [tokens_declarations] at member
  have nonterminal : symbol.isTerminal = false := by simpa using List.find?_some found
  rw [eq_of_nonterminal member nonterminal] at sides start
  refine ⟨?_, start⟩
  have rights := perm.filterMap Declaration.sides?
  rw [sides_declarations] at rights
  rw [sides]
  exact rights.cons _

theorem describes_of_define (defined : Grammar.define declarations = .ok g) :
    language.Describes g := by
  obtain ⟨listed, start⟩ := sides_of_define perm defined
  have cases {rule : Rule} (member : rule ∈ g.rules) : rule.sides = g.start.sides ∨
      ∃ right ∈ language.rights, (language.result, right) = rule.sides := by
    have inside := listed.mem_iff.mp (List.mem_map_of_mem member)
    rw [sides, ← start, List.mem_cons, List.mem_map] at inside
    exact inside
  have plain {rule : Rule} (member : rule ∈ g.rules) : rule.symbols = rule.sides.2 := by
    apply Rule.symbols_of_right
    rcases cases member with same | ⟨right, known, same⟩
    · have shape : rule.right.map Token.symbol = [language.result, .endMarker] :=
        congrArg Prod.snd (same.trans start)
      rw [shape]
      simp [Symbol.epsilon, Symbol.endMarker, result]
    · have shape : right = rule.right.map Token.symbol := congrArg Prod.snd same
      rw [← shape]
      exact right_plain known
  refine ⟨congrArg Prod.fst start, ?_, ?_, ?_, tokens_of_define perm defined⟩
  · intro rule member
    rcases cases member with same | ⟨right, _, same⟩
    · have distinct := listed.symm.nodup language.nodup_sides
      exact Or.inl (List.inj_on_of_nodup_map distinct member g.start_mem same)
    · exact Or.inr (congrArg Prod.fst same).symm
  · rw [plain g.start_mem, start]
  · have rights : g.rules.map Rule.symbols = (g.rules.map Rule.sides).map Prod.snd := by
      rw [List.map_map]
      exact List.map_congr_left fun rule member => plain member
    rw [rights]
    simpa [sides, Function.comp_def] using listed.map Prod.snd

theorem exists_drafted {before after : List Declaration}
    (shape : declarations = before ++ .nonterminal language.expression :: after)
    (late : ∀ left right, .rule left right ∉ before)
    (few : language.operators.length + 1 < Draft.ruleLimit) :
    ∃ draft, Draft.declareAll {} declarations = .ok draft := by
  have tokens := perm.filterMap Declaration.token?
  have sides := perm.filterMap Declaration.sides?
  rw [tokens_declarations] at tokens
  rw [sides_declarations] at sides
  refine Draft.exists_declareAll .empty ?_ ?_ ?_ ?_ ?_ ?_
  · have distinct := language.distinct
    rw [← names_tokens] at distinct
    exact (tokens.map _).symm.nodup distinct
  · intro token member
    apply language.proper
    rw [← names_tokens]
    exact List.mem_map_of_mem (tokens.mem_iff.mp member)
  · exact sides.symm.nodup (List.nodup_cons.mp language.nodup_sides).2
  · intro front left right back split
    have member : .rule left right ∈ language.declarations := by
      rw [← perm.mem_iff, split]
      simp
    have same : left = .nonterminal language.expression := by
      simp only [OperatorLanguage.declarations, List.mem_append, List.mem_cons, List.mem_map,
        reduceCtorEq, Declaration.rule.injEq, and_false, exists_false, false_or] at member
      rcases member with ⟨same, _⟩ | ⟨_, _, same, _⟩
      · exact same
      · exact same.symm
    have declared : .nonterminal language.expression ∈ front := by
      rcases List.append_eq_append_iff.mp (split.symm.trans shape) with
        ⟨middle, rfl, rest⟩ | ⟨middle, rfl, rest⟩
      · cases middle with
        | nil => cases rest
        | cons head middle =>
            cases rest
            exact absurd (by simp) (late left right)
      · cases middle with
        | nil => cases rest
        | cons head middle =>
            cases rest
            simp
    rw [same]
    refine ⟨rfl, List.mem_map.mpr ⟨_, List.mem_filterMap.mpr ⟨_, declared, rfl⟩, rfl⟩⟩
  · rw [sides.length_eq]
    simpa [rights, signs] using few
  · intro symbol member
    have chosen : symbol ∈ declarations.filterMap Declaration.start? :=
      List.mem_filterMap.mpr ⟨_, member, rfl⟩
    rw [(perm.filterMap Declaration.start?).mem_iff, starts_declarations] at chosen
    cases chosen

/-- The declarations define a grammar if that of the nonterminal is before the rules. -/
theorem exists_define {before after : List Declaration}
    (shape : declarations = before ++ .nonterminal language.expression :: after)
    (late : ∀ left right, .rule left right ∉ before)
    (few : language.operators.length + 1 < Draft.ruleLimit) :
    ∃ g, Grammar.define declarations = .ok g := by
  obtain ⟨draft, drafted⟩ := exists_drafted perm shape late few
  obtain ⟨tokens, sides, start, numbered⟩ := Draft.declareAll_eq_ok drafted
  have tokensPerm : draft.tokens.Perm language.tokens := by
    rw [tokens, ← tokens_declarations]
    exact perm.filterMap _
  have sidesPerm : (draft.rules.map Rule.sides).Perm
      (language.rights.map fun right => (language.result, right)) := by
    rw [sides, ← sides_declarations]
    exact perm.filterMap _
  have declared (symbol : Symbol) : symbol ∈ draft.tokens.map Token.symbol ↔
      symbol ∈ language.result :: language.atom :: language.signs := by
    rw [(tokensPerm.map Token.symbol).mem_iff, symbols_tokens]
  have unchosen : draft.start = none := by
    have starts := perm.filterMap Declaration.start?
    rw [starts_declarations] at starts
    rw [start, starts.eq_nil]
    rfl
  have chosen : draft.startSymbol? = some (.nonterminal language.expression) := by
    rw [Draft.startSymbol?, unchosen, Option.orElse_eq_orElse, Option.orElse_none]
    cases found : draft.tokens.find? (!·.isTerminal) with
    | none =>
        have kind := List.find?_eq_none.mp found (.nonterminal language.expression)
          (tokensPerm.mem_iff.mpr List.mem_cons_self)
        exact absurd rfl kind
    | some token =>
        have member := tokensPerm.mem_iff.mp (List.mem_of_find?_eq_some found)
        have kind : token.isTerminal = false := by simpa using List.find?_some found
        rw [eq_of_nonterminal member kind]
  have finished : ∃ g, draft.finish = .ok g := by
    refine Grammar.exists_finish chosen rfl ((declared _).mpr List.mem_cons_self)
      (numbered .empty).ids ?_
    intro rule member
    obtain ⟨right, known, same⟩ :=
      List.mem_map.mp (sidesPerm.mem_iff.mp (List.mem_map_of_mem member))
    obtain ⟨left, shape⟩ := Prod.mk.inj same
    refine ⟨?_, ?_, ?_, fun token inside => ?_⟩
    · rw [Token.isTerminal, ← left]
      rfl
    · rw [declared, ← left]
      exact List.mem_cons_self
    · intro empty
      rw [shape, empty] at known
      simp [rights] at known
    · have symbol : token.symbol ∈ right := shape ▸ List.mem_map_of_mem inside
      have known := mem_symbols_of_right known symbol
      exact ⟨(symbol_proper known).2.1, (declared _).mpr known⟩
  obtain ⟨g, built⟩ := finished
  exact ⟨g, by rw [Grammar.define, drafted]; exact built⟩

end Define

end OperatorLanguage

end ShiftReduce
