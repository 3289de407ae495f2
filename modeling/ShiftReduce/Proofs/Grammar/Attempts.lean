import ShiftReduce.Proofs.Grammar.Definition

/-! Declarations made one after another, whether or not some are refused. A refused one
leaves the draft and its counter as they were, so it leaves no trace: the accepted
declarations alone have the same results and define the same grammar, in which no two tokens
share a name and no two rules both sides. -/

namespace ShiftReduce

namespace Draft

variable {draft next : Draft} {declaration : Declaration} {declared : Declared}
  {fault : GrammarFault} {declarations rest : List Declaration}

/-- The declarations that are not refused when all of them are attempted in order. -/
def accepted (draft : Draft) (declarations : List Declaration) : List Declaration :=
  ((declarations.zip (draft.attemptAll declarations).1).filter (·.2.isOk)).map Prod.fst

/-- What the accepted ones among the declarations of rules give back. -/
def ruleResults (draft : Draft) (declarations : List Declaration) : List Declared :=
  (declarations.zip (draft.attemptAll declarations).1).filterMap fun
    | (.rule _ _, .ok declared) => some declared
    | _ => none

-- In each of the three, every branch that refuses hands the draft back.
theorem declareToken_refused {token : Token}
    (refused : draft.declareToken token = (.error fault, next)) : next = draft := by
  revert refused
  fun_cases declareToken draft token <;> rintro ⟨⟩ <;> rfl

theorem declareRule_refused {left : Token} {right : List Token}
    (refused : draft.declareRule left right = (.error fault, next)) : next = draft := by
  revert refused
  fun_cases declareRule draft left right <;> rintro ⟨⟩ <;> rfl

example :
    let draft : Draft := { tokens := [.nonterminal "E"], nextRuleId := ruleLimit }
    draft.declareRule (.nonterminal "E") [] = (.error .tooManyRules, draft) := by
  rfl

theorem declareStart_refused {symbol : Token}
    (refused : draft.declareStart symbol = (.error fault, next)) : next = draft := by
  revert refused
  fun_cases declareStart draft symbol <;> rintro ⟨⟩
  rfl

/-- A refused declaration leaves the draft as it was, the counter included. -/
theorem declare_refused (refused : draft.declare declaration = (.error fault, next)) :
    next = draft := by
  cases declaration with
  | terminal _ | operator _ _ | nonterminal _ => exact declareToken_refused refused
  | rule left right => exact declareRule_refused refused
  | start symbol => exact declareStart_refused refused

theorem attemptAll_cons {result : Except GrammarFault Declared}
    (made : draft.declare declaration = (result, next)) :
    draft.attemptAll (declaration :: rest) =
      (result :: (next.attemptAll rest).1, (next.attemptAll rest).2) := by
  simp only [attemptAll, made]

theorem attemptAll_append (draft : Draft) (front back : List Declaration) :
    draft.attemptAll (front ++ back) =
      ((draft.attemptAll front).1 ++ ((draft.attemptAll front).2.attemptAll back).1,
        ((draft.attemptAll front).2.attemptAll back).2) := by
  induction front generalizing draft with
  | nil => rfl
  | cons declaration rest ih =>
      rw [List.cons_append, attemptAll_cons rfl, attemptAll_cons rfl, ih]
      rfl

/-- Each declaration has its result. -/
theorem length_attemptAll (draft : Draft) (declarations : List Declaration) :
    (draft.attemptAll declarations).1.length = declarations.length := by
  induction declarations generalizing draft with
  | nil => rfl
  | cons declaration rest ih => rw [attemptAll_cons rfl, List.length_cons, ih, List.length_cons]

/-- The result of a declaration is that on the draft which those before it leave. -/
theorem getElem?_attemptAll (draft : Draft) (front back : List Declaration) :
    (draft.attemptAll (front ++ declaration :: back)).1[front.length]? =
      some ((draft.attemptAll front).2.declare declaration).1 := by
  rw [attemptAll_append, ← length_attemptAll draft front,
    List.getElem?_append_right (Nat.le_refl _), Nat.sub_self]
  rfl

theorem accepted_cons_error (refused : draft.declare declaration = (.error fault, next)) :
    draft.accepted (declaration :: rest) = draft.accepted rest := by
  rw [accepted, attemptAll_cons refused, declare_refused refused]
  rfl

theorem accepted_cons_ok (made : draft.declare declaration = (.ok declared, next)) :
    draft.accepted (declaration :: rest) = declaration :: next.accepted rest := by
  rw [accepted, attemptAll_cons made]
  rfl

theorem attemptAll_accepted (draft : Draft) (declarations : List Declaration) :
    draft.attemptAll (draft.accepted declarations) =
      ((draft.attemptAll declarations).1.filter (·.isOk), (draft.attemptAll declarations).2) := by
  induction declarations generalizing draft with
  | nil => rfl
  | cons declaration rest ih =>
      rcases made : draft.declare declaration with ⟨fault | declared, next⟩
      · obtain rfl := declare_refused made
        rw [accepted_cons_error made, attemptAll_cons made, ih]
        rfl
      · rw [accepted_cons_ok made, attemptAll_cons made, attemptAll_cons made, ih]
        rfl

theorem declareAll_accepted (draft : Draft) (declarations : List Declaration) :
    draft.declareAll (draft.accepted declarations) = .ok (draft.attemptAll declarations).2 := by
  induction declarations generalizing draft with
  | nil => rfl
  | cons declaration rest ih =>
      rcases made : draft.declare declaration with ⟨fault | declared, next⟩
      · obtain rfl := declare_refused made
        rw [accepted_cons_error made, attemptAll_cons made, ih]
      · rw [accepted_cons_ok made, attemptAll_cons made, declareAll, made]
        exact ih next

theorem define_accepted (declarations : List Declaration) :
    Grammar.define (accepted {} declarations) = (attemptAll {} declarations).2.finish := by
  rw [Grammar.define, declareAll_accepted]

/-- Rules are numbered from the counter on, in the order in which they are accepted. -/
theorem ruleResults_eq (draft : Draft) (declarations : List Declaration) :
    draft.ruleResults declarations =
      (List.range' draft.nextRuleId
        ((draft.accepted declarations).filterMap Declaration.sides?).length).map .rule := by
  induction declarations generalizing draft with
  | nil => rfl
  | cons declaration rest ih =>
      rcases made : draft.declare declaration with ⟨fault | declared, next⟩
      · obtain rfl := declare_refused made
        rw [accepted_cons_error made, ← ih, ruleResults, attemptAll_cons made]
        cases declaration <;> rfl
      · have later := ih next
        rw [(declare_adds made).counter] at later
        rw [accepted_cons_ok made, ruleResults, attemptAll_cons made]
        cases declaration with
        | rule left right =>
            obtain ⟨_, number, _⟩ := declareRule_iff.mp made
            simp only [Declaration.sides?, List.filterMap_cons, List.length_cons,
              List.range'_succ, List.map_cons, List.zip_cons_cons, number]
            exact congrArg _ later
        | terminal _ | operator _ _ | nonterminal _ | start _ => exact later

/-- What the declarations check and number, for all tokens and rules together. -/
structure Consistent (draft : Draft) : Prop where
  names_nodup : (draft.tokens.map (·.symbol.name)).Nodup
  names_free : ∀ token ∈ draft.tokens, isReserved token.symbol.name = false
  sides_nodup : (draft.rules.map Rule.sides).Nodup
  left_mem : ∀ rule ∈ draft.rules, rule.left.symbol ∈ draft.tokens.map Token.symbol
  start_nonterminal : ∀ symbol, draft.start = some symbol → symbol.isTerminal = false
  numbered : draft.Numbered

theorem Consistent.empty : Consistent {} :=
  ⟨List.nodup_nil, by simp, List.nodup_nil, by simp, by simp, .empty⟩

section Accepted

variable (consistent : draft.Consistent)
include consistent

theorem Consistent.declareToken {token : Token}
    (made : draft.declareToken token = (.ok declared, next)) (numbered : next.Numbered) :
    next.Consistent := by
  obtain ⟨⟨_, free, fresh⟩, _, rfl⟩ := declareToken_iff.mp made
  refine ⟨?_, ?_, consistent.sides_nodup, fun rule member => ?_, consistent.start_nonterminal,
    numbered⟩
  · rw [List.map_append, List.map_singleton, ← List.concat_eq_append]
    exact consistent.names_nodup.concat fresh
  · intro other member
    rcases List.mem_append.mp member with old | new
    · exact consistent.names_free other old
    · rw [List.mem_singleton.mp new]
      exact free
  · rw [List.map_append]
    exact List.mem_append_left _ (consistent.left_mem rule member)

theorem Consistent.declareRule {left : Token} {right : List Token}
    (made : draft.declareRule left right = (.ok declared, next)) (numbered : next.Numbered) :
    next.Consistent := by
  obtain ⟨⟨_, known, fresh, _⟩, _, rfl⟩ := declareRule_iff.mp made
  refine ⟨consistent.names_nodup, consistent.names_free, ?_, fun rule member => ?_,
    consistent.start_nonterminal, numbered⟩
  · rw [List.map_append, List.map_singleton, ← List.concat_eq_append]
    exact consistent.sides_nodup.concat fresh
  · rcases List.mem_append.mp member with old | new
    · exact consistent.left_mem rule old
    · rw [List.mem_singleton.mp new]
      exact known

theorem Consistent.declare (made : draft.declare declaration = (.ok declared, next)) :
    next.Consistent := by
  have numbered := (declare_adds made).numbered consistent.numbered
  cases declaration with
  | terminal _ | operator _ _ | nonterminal _ => exact consistent.declareToken made numbered
  | rule left right => exact consistent.declareRule made numbered
  | start symbol =>
      obtain ⟨nonterminal, _, rfl⟩ := declareStart_iff.mp made
      refine ⟨consistent.names_nodup, consistent.names_free, consistent.sides_nodup,
        consistent.left_mem, fun other chosen => ?_, numbered⟩
      rw [← Option.some.inj chosen]
      exact nonterminal

end Accepted

theorem Consistent.attemptAll (consistent : draft.Consistent) :
    (draft.attemptAll declarations).2.Consistent := by
  induction declarations generalizing draft with
  | nil => exact consistent
  | cons declaration rest ih =>
      rcases made : draft.declare declaration with ⟨fault | declared, next⟩
      · obtain rfl := declare_refused made
        rw [attemptAll_cons made]
        exact ih consistent
      · rw [attemptAll_cons made]
        exact ih (consistent.declare made)

theorem attemptAll_consistent (declarations : List Declaration) :
    (Draft.attemptAll {} declarations).2.Consistent :=
  Consistent.empty.attemptAll

variable {g : Grammar}

theorem Consistent.sides_finish (consistent : draft.Consistent) (finished : draft.finish = .ok g) :
    (g.rules.map Rule.sides).Nodup := by
  obtain ⟨symbol, _, _, sides, _⟩ := Grammar.finish_eq_ok finished
  rw [sides]
  refine List.nodup_cons.mpr ⟨fun member => ?_, consistent.sides_nodup⟩
  obtain ⟨rule, given, same⟩ := List.mem_map.mp member
  obtain ⟨token, declared, left⟩ := List.mem_map.mp (consistent.left_mem rule given)
  have free := symbol_of_not_reserved (consistent.names_free token declared)
  exact free.2.2 (left.trans (congrArg Prod.fst same))

theorem Consistent.names_finish (consistent : draft.Consistent) (finished : draft.finish = .ok g) :
    (g.tokens.map (·.symbol.name)).Nodup := by
  obtain ⟨symbol, _, sorted, _⟩ := Grammar.finish_eq_ok finished
  have distinct : ((draft.tokens ++ [.nonterminal startName, .endMarker] : List Token).map
      (·.symbol.name)).Nodup := by
    rw [List.map_append]
    refine List.nodup_append.mpr ⟨consistent.names_nodup, by decide, fun name used other new same =>
      ?_⟩
    obtain ⟨token, declared, rfl⟩ := List.mem_map.mp used
    have reserved : ∀ name ∈ ([.nonterminal startName, .endMarker] : List Token).map
        (·.symbol.name), isReserved name = true := by
      decide
    have free := consistent.names_free token declared
    rw [same, reserved other new] at free
    cases free
  have given {token : Token} (member : token ∈ g.tokens) :
      token ∈ (draft.tokens ++ [.nonterminal startName, .endMarker] : List Token) := by
    rw [sorted, Token.mem_sorted_iff] at member
    exact List.mem_reverse.mp (List.mem_of_find?_eq_some member)
  refine List.Nodup.map_on (fun token member other also same => ?_) ?_
  · exact List.inj_on_of_nodup_map distinct (given member) (given also) same
  · exact (Token.nodup_symbols g.tokens_increasing).of_map

theorem Consistent.ids_finish (consistent : draft.Consistent) (finished : draft.finish = .ok g) :
    g.rules.map Rule.id = List.range g.rules.length := by
  obtain ⟨symbol, _, _, sides, ids, _⟩ := Grammar.finish_eq_ok finished
  have counted : g.rules.length = draft.rules.length + 1 := by
    simpa using congrArg List.length sides
  rw [ids, consistent.numbered.ids, counted, List.range_eq_range', List.range'_succ]

/-- Of declarations attempted in order, each has its result, and those that are refused leave
no trace. The draft after a refused one is that before it, and the counter is one more than
the rules and within its bound. The others alone are accepted with the same results and define
the same grammar or have the same fault. Its rules are a start rule, for the start symbol
chosen last or else the first nonterminal, and the accepted rules in the order of their
numbers; no two of them have the same sides, and no two tokens the same name. -/
theorem refused_leaves_no_trace (declarations : List Declaration) :
    (attemptAll {} declarations).1.length = declarations.length ∧
    (∀ front declaration back, declarations = front ++ declaration :: back →
      let draft := (attemptAll {} front).2
      let (result, next) := draft.declare declaration
      (attemptAll {} declarations).1[front.length]? = some result ∧
      (attemptAll {} (front ++ [declaration])).2 = next ∧
      ∀ fault, result = .error fault → next = draft) ∧
    (attemptAll {} declarations).2.nextRuleId = (attemptAll {} declarations).2.rules.length + 1 ∧
    (attemptAll {} declarations).2.nextRuleId ≤ ruleLimit ∧
    attemptAll {} (accepted {} declarations) =
      ((attemptAll {} declarations).1.filter (·.isOk), (attemptAll {} declarations).2) ∧
    Grammar.define (accepted {} declarations) = (attemptAll {} declarations).2.finish ∧
    ruleResults {} declarations =
      (List.range' 1 ((accepted {} declarations).filterMap Declaration.sides?).length).map .rule ∧
    ∀ g, (attemptAll {} declarations).2.finish = .ok g →
      (∃ symbol : Token,
        (((accepted {} declarations).filterMap Declaration.start?).getLast? <|>
          ((accepted {} declarations).filterMap Declaration.token?).find? (!·.isTerminal)) =
            some symbol ∧
        g.rules.map Rule.sides = (.nonterminal startName, [symbol.symbol, .endMarker]) ::
          (accepted {} declarations).filterMap Declaration.sides?) ∧
      g.rules.map Rule.id = List.range g.rules.length ∧
      g.rules.head? = some g.start ∧
      (g.rules.map Rule.sides).Nodup ∧
      (g.tokens.map (·.symbol.name)).Nodup := by
  have consistent := attemptAll_consistent declarations
  refine ⟨length_attemptAll {} declarations, ?_, consistent.numbered.counter,
    consistent.numbered.inRange, attemptAll_accepted {} declarations,
    define_accepted declarations, ruleResults_eq {} declarations, fun g finished => ?_⟩
  · rintro front declaration back rfl
    refine ⟨getElem?_attemptAll {} front back, ?_, fun fault refused => ?_⟩
    · rw [attemptAll_append]
      rfl
    · exact declare_refused (Prod.ext refused rfl)
  · obtain ⟨symbol, chosen, _, sides, _⟩ :=
      Grammar.define_eq_ok ((define_accepted declarations).trans finished)
    obtain ⟨_, _, _, _, _, head, _⟩ := Grammar.finish_eq_ok finished
    exact ⟨⟨symbol, chosen, sides⟩, consistent.ids_finish finished, head,
      consistent.sides_finish finished, consistent.names_finish finished⟩

/-- Declarations of every kind, some refused and some accepted. -/
theorem refused_leaves_no_trace_mixed :
    let x := Token.terminal "x"
    let plus := Token.operator "+" .left
    let e := Token.nonterminal "E"
    let declarations : List Declaration := [.rule e [x], .terminal "x", .operator "x" .right,
      .nonterminal "", .terminal "$", .operator "+" .left, .nonterminal "+", .nonterminal "E",
      .rule x [e], .rule e [], .rule e [.epsilon], .start x, .start e, .rule e [e, plus, x],
      .rule e [e, plus, x]]
    let kept : List Declaration := [.terminal "x", .operator "+" .left, .nonterminal "E",
      .rule e [], .start e, .rule e [e, plus, x]]
    (attemptAll {} declarations).1 = [.error (.notANonterminal e), .ok (.token x),
      .error (.declaredTwice "x"), .error .emptySymbol, .error (.reservedSymbol "$"),
      .ok (.token plus), .error (.declaredTwice "+"), .ok (.token e),
      .error (.notANonterminal x), .ok (.rule 1), .error .duplicateProduction,
      .error (.terminalStart x), .ok .start, .ok (.rule 2), .error .duplicateProduction] ∧
    attemptAll {} kept = ([.ok (.token x), .ok (.token plus), .ok (.token e), .ok (.rule 1),
      .ok .start, .ok (.rule 2)], (attemptAll {} declarations).2) ∧
    (attemptAll {} (declarations.take 11)).2 = (attemptAll {} (declarations.take 10)).2 ∧
    (attemptAll {} declarations).2.nextRuleId = 3 ∧
    ∃ g, Grammar.define kept = .ok g ∧
      g.rules.map Rule.id = [0, 1, 2] ∧
      g.rules.map Rule.sides = [(.nonterminal startName, [e.symbol, .endMarker]),
        (e.symbol, [.epsilon]), (e.symbol, [e.symbol, plus.symbol, x.symbol])] ∧
      (g.tokens.map (·.symbol.name)).Nodup := by
  intro x plus e declarations kept
  have accepts : accepted {} declarations = kept := by rfl
  obtain ⟨_, each, counter, _, again, defined, _, whole⟩ := refused_leaves_no_trace declarations
  obtain ⟨_, after, unchanged⟩ :=
    each (declarations.take 10) (.rule e [.epsilon]) (declarations.drop 11) rfl
  have twice := after.trans (unchanged .duplicateProduction rfl)
  rw [accepts] at again defined whole
  have evaluated : (attemptAll {} declarations).2.finish.toOption.isSome = true := by
    decide +kernel
  cases finished : (attemptAll {} declarations).2.finish with
  | error fault =>
      rw [finished] at evaluated
      cases evaluated
  | ok g =>
      obtain ⟨⟨symbol, chosen, sides⟩, ids, _, _, names⟩ := whole g finished
      obtain rfl : e = symbol := Option.some.inj chosen
      have counted := congrArg List.length sides
      rw [List.length_map] at counted
      rw [counted] at ids
      exact ⟨rfl, again, twice, counter, g, defined.trans finished, ids, sides, names⟩

end Draft

end ShiftReduce
