import ShiftReduce.Grammar.Draft
import ShiftReduce.Proofs.Grammar.WellFormed

/-! What a list of declarations defines. The grammar has the declared tokens and, after the
start rule, the declared productions in order; and there is one if every declaration
finds what it needs among those before it. -/

namespace ShiftReduce

theorem Rule.symbols_of_right {rule : Rule} (plain : .epsilon ∉ rule.right.map Token.symbol) :
    rule.symbols = rule.right.map Token.symbol := by
  have filled : ¬ rule.isEmpty = true := by
    intro empty
    rw [isEmpty_iff.mp empty] at plain
    exact plain List.mem_cons_self
  rw [symbols, production, if_neg filled]

namespace Declaration

def token? : Declaration → Option Token
  | .terminal name => some (.terminal name)
  | .operator name assoc => some (.operator name assoc)
  | .nonterminal name => some (.nonterminal name)
  | _ => none

def sides? : Declaration → Option (Symbol × List Symbol)
  | .rule left right =>
      some (left.symbol, (if right = [] then [.epsilon] else right).map Token.symbol)
  | _ => none

def start? : Declaration → Option Token
  | .start symbol => some symbol
  | _ => none

end Declaration

theorem filterMap_cons_toList {α β : Type} (f : α → Option β) (head : α) (rest : List α) :
    (head :: rest).filterMap f = (f head).toList ++ rest.filterMap f := by
  cases found : f head <;> simp [found]

namespace Draft

variable {draft next final : Draft} {declarations : List Declaration}

/-- The rules have the numbers from 1 on, and the counter stands at the one after them. -/
structure Numbered (draft : Draft) : Prop where
  counter : draft.nextRuleId = draft.rules.length + 1
  ids : draft.rules.map Rule.id = List.range' 1 draft.rules.length
  inRange : draft.nextRuleId ≤ ruleLimit

theorem Numbered.empty : Numbered {} :=
  ⟨rfl, rfl, by decide⟩

/-- What an accepted declaration adds to a draft. -/
structure Adds (declaration : Declaration) (draft next : Draft) : Prop where
  tokens : next.tokens = draft.tokens ++ declaration.token?.toList
  sides : next.rules.map Rule.sides = draft.rules.map Rule.sides ++ declaration.sides?.toList
  start : next.start = (declaration.start? <|> draft.start)
  counter : next.nextRuleId = draft.nextRuleId + declaration.sides?.toList.length
  ids : next.rules.map Rule.id =
    draft.rules.map Rule.id ++ declaration.sides?.toList.map fun _ => draft.nextRuleId
  inRange : draft.nextRuleId ≤ ruleLimit → next.nextRuleId ≤ ruleLimit

theorem Adds.length_rules {declaration : Declaration} (adds : Adds declaration draft next) :
    next.rules.length = draft.rules.length + declaration.sides?.toList.length := by
  simpa using congrArg List.length adds.sides

theorem Adds.numbered {declaration : Declaration} (adds : Adds declaration draft next)
    (numbered : draft.Numbered) : next.Numbered := by
  refine ⟨?_, ?_, adds.inRange numbered.inRange⟩
  · rw [adds.counter, numbered.counter, adds.length_rules, Nat.add_right_comm]
  · rw [adds.ids, numbered.ids, numbered.counter, adds.length_rules]
    cases declaration.sides? with
    | none => simp
    | some sides => simp [List.range'_1_concat, Nat.add_comm]

theorem symbol_of_not_reserved {symbol : Symbol} (free : isReserved symbol.name = false) :
    symbol ≠ .endMarker ∧ symbol ≠ .epsilon ∧ symbol ≠ .nonterminal startName := by
  refine ⟨?_, ?_, ?_⟩
  · rintro rfl
    cases free
  · rintro rfl
    cases free
  · rintro rfl
    cases free

section Outcomes

variable {given declared : Declared} {fault : GrammarFault} {made other : Draft}
  {condition : Prop}

theorem ok_outcome_iff (holds : condition) :
    ((.ok given, made) : Except GrammarFault Declared × Draft) = (.ok declared, next) ↔
      condition ∧ declared = given ∧ next = made := by
  simp only [Prod.mk.injEq, Except.ok.injEq, holds, true_and]
  exact and_congr eq_comm eq_comm

theorem error_outcome_iff (fails : ¬ condition) :
    ((.error fault, made) : Except GrammarFault Declared × Draft) = (.ok declared, next) ↔
      condition ∧ declared = given ∧ next = other := by
  simp [fails]

end Outcomes

theorem declareToken_iff {token : Token} {declared : Declared} :
    draft.declareToken token = (.ok declared, next) ↔
      (token.symbol.name ≠ "" ∧ isReserved token.symbol.name = false ∧
        token.symbol.name ∉ draft.tokens.map (·.symbol.name)) ∧
      declared = .token token ∧ next = { draft with tokens := draft.tokens ++ [token] } := by
  have known : draft.tokens.any (·.symbol.name = token.symbol.name) = true ↔
      token.symbol.name ∈ draft.tokens.map (·.symbol.name) := by
    simp
  fun_cases declareToken draft token with
  | case1 name empty => exact error_outcome_iff fun holds => holds.1 empty
  | case2 name nonempty reserved =>
      exact error_outcome_iff fun holds => Bool.false_ne_true (holds.2.1.symm.trans reserved)
  | case3 name nonempty free used => exact error_outcome_iff fun holds => holds.2.2 (known.mp used)
  | case4 name nonempty free fresh =>
      exact ok_outcome_iff ⟨nonempty, Bool.eq_false_iff.mpr free, mt known.mpr fresh⟩

theorem declareRule_iff {left : Token} {right : List Token} {declared : Declared} :
    draft.declareRule left right = (.ok declared, next) ↔
      (left.isTerminal = false ∧ left.symbol ∈ draft.tokens.map Token.symbol ∧
        (left.symbol, (if right = [] then [.epsilon] else right).map Token.symbol) ∉
          draft.rules.map Rule.sides ∧
        draft.nextRuleId < ruleLimit) ∧
      declared = .rule draft.nextRuleId ∧
      next = { draft with
        nextRuleId := draft.nextRuleId + 1
        rules := draft.rules ++ [{
          id := draft.nextRuleId
          left
          right := if right = [] then [.epsilon] else right }] } := by
  have undeclared : (left.isTerminal || draft.tokens.all (·.symbol ≠ left.symbol)) = true ↔
      ¬ (left.isTerminal = false ∧ left.symbol ∈ draft.tokens.map Token.symbol) := by
    cases left.isTerminal <;> simp
  have repeated (rule : Rule) : draft.rules.any (·.sameSides rule) = true ↔
      rule.sides ∈ draft.rules.map Rule.sides := by
    simp only [List.any_eq_true, Rule.sameSides_iff, List.mem_map]
  fun_cases declareRule draft left right with
  | case1 unknown =>
      exact error_outcome_iff fun holds => undeclared.mp unknown ⟨holds.1, holds.2.1⟩
  | case2 id rule known present =>
      exact error_outcome_iff fun holds => holds.2.2.1 ((repeated rule).mp present)
  | case3 id rule known fresh full =>
      exact error_outcome_iff fun holds => Nat.not_lt.mpr full holds.2.2.2
  | case4 id rule known fresh room =>
      obtain ⟨nonterminal, member⟩ := not_not.mp (mt undeclared.mpr known)
      exact ok_outcome_iff ⟨nonterminal, member, mt (repeated rule).mpr fresh, Nat.not_le.mp room⟩

theorem declareStart_iff {symbol : Token} {declared : Declared} :
    draft.declareStart symbol = (.ok declared, next) ↔
      symbol.isTerminal = false ∧
      declared = .start ∧ next = { draft with start := some symbol } := by
  fun_cases declareStart draft symbol with
  | case1 terminal => exact error_outcome_iff (by simp [terminal])
  | case2 nonterminal => exact ok_outcome_iff (Bool.eq_false_iff.mpr nonterminal)

theorem declare_adds {declaration : Declaration} {declared : Declared}
    (made : draft.declare declaration = (.ok declared, next)) :
    Adds declaration draft next := by
  cases declaration with
  | terminal _ | operator _ _ | nonterminal _ =>
      obtain ⟨_, _, rfl⟩ := declareToken_iff.mp made
      exact ⟨rfl, (List.append_nil _).symm, rfl, rfl, (List.append_nil _).symm, id⟩
  | rule left right =>
      obtain ⟨⟨_, _, _, room⟩, _, rfl⟩ := declareRule_iff.mp made
      exact ⟨(List.append_nil _).symm, by simp [Declaration.sides?, Rule.sides], rfl, rfl,
        by simp [Declaration.sides?], fun _ => room⟩
  | start symbol =>
      obtain ⟨_, _, rfl⟩ := declareStart_iff.mp made
      exact ⟨(List.append_nil _).symm, (List.append_nil _).symm, rfl, rfl,
        (List.append_nil _).symm, id⟩

theorem declareAll_eq_ok (made : draft.declareAll declarations = .ok final) :
    final.tokens = draft.tokens ++ declarations.filterMap Declaration.token? ∧
      final.rules.map Rule.sides =
        draft.rules.map Rule.sides ++ declarations.filterMap Declaration.sides? ∧
      final.start = ((declarations.filterMap Declaration.start?).getLast? <|> draft.start) ∧
      (draft.Numbered → final.Numbered) := by
  induction declarations generalizing draft with
  | nil =>
      cases made
      simp
  | cons declaration rest ih =>
      simp only [declareAll] at made
      split at made
      · cases made
      · rename_i declared next first
        have adds := declare_adds first
        obtain ⟨tokens, sides, start, numbered⟩ := ih made
        refine ⟨?_, ?_, ?_, fun before => numbered (adds.numbered before)⟩
        · rw [tokens, adds.tokens]
          rw [filterMap_cons_toList, List.append_assoc]
        · rw [sides, adds.sides]
          rw [filterMap_cons_toList, List.append_assoc]
        · rw [start, adds.start]
          cases declaration <;> simp [Declaration.start?, List.filterMap_cons, List.getLast?_cons]

/-- No declaration is refused if names and productions are distinct, names not reserved,
left-hand sides declared before and the rules not too many. -/
theorem exists_declareAll (numbered : draft.Numbered)
    (names : ((draft.tokens ++ declarations.filterMap Declaration.token?).map
      (·.symbol.name)).Nodup)
    (proper : ∀ token ∈ declarations.filterMap Declaration.token?,
      token.symbol.name ≠ "" ∧ isReserved token.symbol.name = false)
    (sides : (draft.rules.map Rule.sides ++ declarations.filterMap Declaration.sides?).Nodup)
    (lefts : ∀ before left right after, declarations = before ++ .rule left right :: after →
      left.isTerminal = false ∧ left.symbol ∈
        (draft.tokens ++ before.filterMap Declaration.token?).map Token.symbol)
    (few : draft.rules.length + (declarations.filterMap Declaration.sides?).length < ruleLimit)
    (starts : ∀ symbol, .start symbol ∈ declarations → symbol.isTerminal = false) :
    ∃ final, draft.declareAll declarations = .ok final := by
  induction declarations generalizing draft with
  | nil => exact ⟨draft, rfl⟩
  | cons declaration rest ih =>
      rw [filterMap_cons_toList] at names proper sides few
      have token {token : Token} (declares : declaration.token? = some token) :
          ∃ next, draft.declareToken token = (.ok (.token token), next) := by
        rw [declares] at names proper
        obtain ⟨nonempty, free⟩ := proper token (by simp)
        refine ⟨_, declareToken_iff.mpr ⟨⟨nonempty, free, fun used => ?_⟩, rfl, rfl⟩⟩
        rw [List.map_append] at names
        exact (List.nodup_append.mp names).2.2 _ used _ (by simp) rfl
      have accepted : ∃ declared next, draft.declare declaration = (.ok declared, next) := by
        cases declaration with
        | terminal _ | operator _ _ | nonterminal _ => exact ⟨_, token rfl⟩
        | rule left right =>
            obtain ⟨nonterminal, declared⟩ := lefts [] left right rest rfl
            refine ⟨_, _, declareRule_iff.mpr ⟨⟨nonterminal, by simpa using declared,
              fun used => ?_, ?_⟩, rfl, rfl⟩⟩
            · exact (List.nodup_append.mp sides).2.2 _ used _ (by simp [Declaration.sides?]) rfl
            · have room : draft.rules.length + 1 < ruleLimit := by
                simp [Declaration.sides?] at few
                omega
              rw [numbered.counter]
              exact room
        | start symbol =>
            exact ⟨_, _, declareStart_iff.mpr ⟨starts symbol List.mem_cons_self, rfl, rfl⟩⟩
      obtain ⟨declared, next, made⟩ := accepted
      have adds := declare_adds made
      have counted := adds.length_rules
      simp only [declareAll, made]
      refine ih (adds.numbered numbered) ?_ ?_ ?_ ?_ ?_ ?_
      · rwa [adds.tokens, List.append_assoc]
      · exact fun token member => proper token (List.mem_append_right _ member)
      · rwa [adds.sides, List.append_assoc]
      · intro before left right after shape
        have found := lefts (declaration :: before) left right after (by rw [shape]; rfl)
        rwa [filterMap_cons_toList, ← List.append_assoc, ← adds.tokens] at found
      · rw [List.length_append] at few
        omega
      · exact fun symbol member => starts symbol (List.mem_cons_of_mem _ member)

end Draft

namespace Grammar

variable {start : Rule} {rules : List Rule} {tokens : List Token} {g : Grammar}

theorem sides_of_build (built : build start rules tokens = .ok g) :
    g.rules.map Rule.sides = rules.map Rule.sides := by
  rw [(wellFormed_of_build built).2, List.map_map]
  exact List.map_congr_left fun rule _ => rule.sides_latest tokens

variable {declarations : List Declaration}

theorem finish_eq_ok {draft : Draft} (finished : draft.finish = .ok g) :
    ∃ symbol : Token, draft.startSymbol? = some symbol ∧
      g.tokens = Token.sorted (draft.tokens ++ [.nonterminal Draft.startName, .endMarker]) ∧
      g.rules.map Rule.sides = (Draft.startRule symbol).sides :: draft.rules.map Rule.sides ∧
      g.rules.map Rule.id = 0 :: draft.rules.map Rule.id ∧
      g.rules.head? = some g.start ∧ g.start.sides = (Draft.startRule symbol).sides := by
  unfold Draft.finish at finished
  split at finished
  · cases finished
  · rename_i symbol chosen
    obtain ⟨sorted, _, found⟩ := build_eq_ok finished
    obtain ⟨_, rules⟩ := wellFormed_of_build finished
    have meets := List.find?_some found
    refine ⟨symbol, chosen, sorted, ?_, ?_, ?_, Rule.sameSides_iff.mp (of_decide_eq_true meets).2⟩
    · rw [sides_of_build finished, List.map_cons]
    · rw [rules, List.map_map]
      rfl
    · rw [rules, List.map_cons, List.find?_cons_of_pos] at found
      · rw [rules, ← Option.some.inj found]
        rfl
      · exact decide_eq_true ⟨rfl, Rule.sameSides_iff.mpr (Rule.sides_latest _ _)⟩

/-- The grammar that declarations define. -/
theorem define_eq_ok (defined : define declarations = .ok g) :
    ∃ symbol : Token,
      ((declarations.filterMap Declaration.start?).getLast? <|>
        (declarations.filterMap Declaration.token?).find? (!·.isTerminal)) = some symbol ∧
      g.tokens = Token.sorted (declarations.filterMap Declaration.token? ++
        [.nonterminal Draft.startName, .endMarker]) ∧
      g.rules.map Rule.sides =
        (Draft.startRule symbol).sides :: declarations.filterMap Declaration.sides? ∧
      g.start.sides = (Draft.startRule symbol).sides := by
  unfold define at defined
  split at defined
  · cases defined
  · rename_i draft drafted
    obtain ⟨tokens, sides, start, _⟩ := Draft.declareAll_eq_ok drafted
    obtain ⟨symbol, chosen, sorted, rules, _, _, startSides⟩ := finish_eq_ok defined
    refine ⟨symbol, ?_, ?_, ?_, startSides⟩
    · rw [← chosen, Draft.startSymbol?, start, tokens]
      simp
    · rw [sorted, tokens]
      rfl
    · rw [rules, sides]
      rfl

theorem exists_finish {draft : Draft} {symbol : Token} (chosen : draft.startSymbol? = some symbol)
    (nonterminal : symbol.isTerminal = false)
    (declared : symbol.symbol ∈ draft.tokens.map Token.symbol)
    (ids : draft.rules.map Rule.id = List.range' 1 draft.rules.length)
    (rules : ∀ rule ∈ draft.rules, rule.left.isTerminal = false ∧
      rule.left.symbol ∈ draft.tokens.map Token.symbol ∧ rule.right ≠ [] ∧
      ∀ token ∈ rule.right, token.symbol ≠ .epsilon ∧
        token.symbol ∈ draft.tokens.map Token.symbol) :
    ∃ g, draft.finish = .ok g := by
  have known {other : Symbol} (member : other ∈ draft.tokens.map Token.symbol) :
      other ∈ (draft.tokens ++ [.nonterminal Draft.startName, .endMarker] : List Token).map
        Token.symbol := by
    rw [List.map_append]
    exact List.mem_append_left _ member
  simp only [Draft.finish, chosen]
  have starts : (Draft.startRule symbol).WellFormed
      (draft.tokens ++ [.nonterminal Draft.startName, .endMarker]) := by
    refine ⟨rfl, by simp [Draft.startRule], by simp [Draft.startRule],
      Or.inr fun token member => ?_⟩
    rcases List.mem_cons.mp member with rfl | last
    · exact ⟨Token.symbol_ne_epsilon nonterminal, known declared⟩
    · rw [List.mem_singleton.mp last]
      exact ⟨by decide, by simp⟩
  refine exists_build_of_wellFormed ⟨?_, List.forall_mem_cons.mpr ⟨starts, fun rule member => ?_⟩,
    ⟨_, List.mem_cons_self, rfl, rfl⟩, rfl⟩
  · rw [List.map_cons, ids]
    exact List.nodup_cons.mpr ⟨by simp [Draft.startRule], List.nodup_range'⟩
  · obtain ⟨kind, left, nonempty, right⟩ := rules rule member
    exact ⟨kind, known left, nonempty, Or.inr fun token inside =>
      ⟨(right token inside).1, known (right token inside).2⟩⟩

end Grammar

end ShiftReduce
