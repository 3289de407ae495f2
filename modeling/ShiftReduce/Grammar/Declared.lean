import ShiftReduce.Error

/-! Checking rules against the declared tokens. A checked rule consists of
declared tokens, payload included, and has the symbols it was given with. -/

namespace ShiftReduce

/-- Both sides of the rule consist of the given tokens, ε standing alone if at all. -/
structure Rule.Declared (tokens : List Token) (rule : Rule) : Prop where
  left_nonterminal : rule.left.isTerminal = false
  left_mem : rule.left ∈ tokens
  right_declared : rule.right = [Token.epsilon] ∨
    rule.right ≠ [] ∧ ∀ token ∈ rule.right, token.isEpsilon = false ∧ token ∈ tokens

def Rule.endsInput (rule : Rule) : Bool :=
  rule.right.getLast?.any Token.isEndMarker

namespace Grammar

/-- The declared token with the symbol of the given one; ε needs no declaration. -/
def declareToken (tokens : List Token) (token : Token) : Except GrammarFault Token :=
  if token.isEpsilon then .ok .epsilon
  else match Keyed.find? Token.symbol token.symbol tokens with
    | none => .error (.undeclaredToken token)
    | some declared => .ok declared

def declareTokens (tokens : List Token) : List Token → Except GrammarFault (List Token)
  | [] => .ok []
  | token :: rest =>
      match declareToken tokens token with
      | .error fault => .error fault
      | .ok declared =>
          match declareTokens tokens rest with
          | .error fault => .error fault
          | .ok others => .ok (declared :: others)

/-- Checks one rule and replaces its tokens by the declared ones. -/
def declareRule (tokens : List Token) (rule : Rule) : Except GrammarFault Rule :=
  if rule.left.isTerminal then .error (.terminalLeft rule)
  else if rule.right = [] then .error (.emptyRight rule)
  else if !rule.isEmpty && rule.right.any Token.isEpsilon then .error (.misplacedEpsilon rule)
  else match declareToken tokens rule.left with
    | .error fault => .error fault
    | .ok left =>
        match declareTokens tokens rule.right with
        | .error fault => .error fault
        | .ok right => .ok { id := rule.id, left, right }

/-- Checks rules in order; `taken` holds the numbers of the rules before them. -/
def declareRules (tokens : List Token) :
    List RuleId → List Rule → Except GrammarFault (List Rule)
  | _, [] => .ok []
  | taken, rule :: rest =>
      if rule.id ∈ taken then .error (.duplicateRule rule.id)
      else match declareRule tokens rule with
        | .error fault => .error fault
        | .ok declared =>
            match declareRules tokens (rule.id :: taken) rest with
            | .error fault => .error fault
            | .ok others => .ok (declared :: others)

theorem declareToken_eq_ok {tokens : List Token} {token declared : Token}
    (result : declareToken tokens token = .ok declared) :
    declared.symbol = token.symbol ∧
      (token.isEpsilon = true ∧ declared = .epsilon ∨
        token.isEpsilon = false ∧ declared ∈ tokens) := by
  unfold declareToken at result
  split at result
  · rename_i isEpsilon
    cases result
    exact ⟨(of_decide_eq_true isEpsilon).symm, Or.inl ⟨isEpsilon, rfl⟩⟩
  · rename_i notEpsilon
    split at result
    · cases result
    · rename_i found
      cases result
      refine ⟨?_, Or.inr ⟨by simpa using notEpsilon, List.mem_of_find?_eq_some found⟩⟩
      simpa using List.find?_some found

theorem declareTokens_eq_ok {tokens right declared : List Token}
    (result : declareTokens tokens right = .ok declared) :
    declared.map Token.symbol = right.map Token.symbol ∧
      ∀ token ∈ declared, token.isEpsilon = true ∧ token = .epsilon ∨
        token.isEpsilon = false ∧ token ∈ tokens := by
  induction right generalizing declared with
  | nil =>
      cases result
      simp
  | cons token rest ih =>
      simp only [declareTokens] at result
      split at result
      · cases result
      · rename_i head headResult
        split at result
        · cases result
        · rename_i others othersResult
          cases result
          obtain ⟨sameHead, headCases⟩ := declareToken_eq_ok headResult
          obtain ⟨sameRest, restCases⟩ := ih othersResult
          refine ⟨by simp [sameHead, sameRest], ?_⟩
          intro other member
          rcases List.mem_cons.mp member with equal | later
          · subst equal
            simpa only [Token.isEpsilon, sameHead] using headCases
          · exact restCases other later

theorem declareTokens_placed {tokens right declared : List Token}
    (result : declareTokens tokens right = .ok declared) (nonempty : right ≠ [])
    (placed : right.map Token.symbol = [.epsilon] ∨ ∀ token ∈ right, token.symbol ≠ .epsilon) :
    declared = [Token.epsilon] ∨
      declared ≠ [] ∧ ∀ token ∈ declared, token.isEpsilon = false ∧ token ∈ tokens := by
  obtain ⟨same, found⟩ := declareTokens_eq_ok result
  rcases placed with single | plain
  · left
    obtain ⟨only, rfl, empty⟩ := List.map_eq_singleton_iff.mp (same.trans single)
    rcases found only List.mem_cons_self with ⟨_, equal⟩ | ⟨proper, _⟩
    · rw [equal]
    · exact absurd empty (of_decide_eq_false proper)
  · right
    have absent : .epsilon ∉ declared.map Token.symbol := by
      rw [same]
      intro member
      obtain ⟨token, given, empty⟩ := List.mem_map.mp member
      exact plain token given empty
    refine ⟨?_, fun token member => (found token member).resolve_left fun empty => ?_⟩
    · rintro rfl
      exact nonempty (List.map_eq_nil_iff.mp same.symm)
    · exact absent (List.mem_map.mpr ⟨token, member, of_decide_eq_true empty.1⟩)

/-- A rule passes if its sides are placed right and all their tokens are declared. -/
theorem declareRule_ok_iff {tokens : List Token} {rule declared : Rule} :
    declareRule tokens rule = .ok declared ↔
      rule.left.isTerminal = false ∧ rule.right ≠ [] ∧
      (rule.right.map Token.symbol = [.epsilon] ∨ ∀ token ∈ rule.right, token.symbol ≠ .epsilon) ∧
      declareToken tokens rule.left = .ok declared.left ∧
      declareTokens tokens rule.right = .ok declared.right ∧ declared.id = rule.id := by
  rw [← Rule.epsilon_alone_iff]
  fun_cases declareRule tokens rule with
  | case1 terminal => simp [terminal]
  | case2 nonterminal empty => simp [empty]
  | case3 nonterminal nonempty misplaced => simp [misplaced]
  | case4 nonterminal nonempty placed fault left => simp [left]
  | case5 nonterminal nonempty placed left leftResult fault right => simp [right]
  | case6 nonterminal nonempty placed left leftResult right rightResult =>
      rw [Bool.not_eq_true] at nonterminal placed
      simp only [nonterminal, nonempty, placed, leftResult, rightResult, Except.ok.injEq, ne_eq,
        not_false_eq_true, true_and]
      constructor
      · rintro rfl
        exact ⟨rfl, rfl, rfl⟩
      · rintro ⟨rfl, rfl, same⟩
        rw [← same]

theorem declareRule_eq_ok {tokens : List Token} {rule declared : Rule}
    (result : declareRule tokens rule = .ok declared) :
    declared.Declared tokens ∧ declared.id = rule.id ∧ declared.sameSides rule = true := by
  obtain ⟨nonterminal, nonempty, placed, left, right, id⟩ := declareRule_ok_iff.mp result
  obtain ⟨sameLeft, found⟩ := declareToken_eq_ok left
  have sameRight := (declareTokens_eq_ok right).1
  refine ⟨⟨?_, ?_, declareTokens_placed right nonempty placed⟩, id, ?_⟩
  · rw [Token.isTerminal, sameLeft]
    exact nonterminal
  · refine (found.resolve_left fun empty => ?_).2
    exact Token.symbol_ne_epsilon nonterminal (of_decide_eq_true empty.1)
  · simp [Rule.sameSides, sameLeft, sameRight]

theorem declareRules_eq_ok {tokens : List Token} {taken : List RuleId} {rules declared : List Rule}
    (result : declareRules tokens taken rules = .ok declared) :
    (∀ rule ∈ declared, rule.Declared tokens) ∧ (declared.map Rule.id).Nodup ∧
      ∀ rule ∈ declared, rule.id ∉ taken := by
  induction rules generalizing taken declared with
  | nil =>
      cases result
      simp
  | cons rule rest ih =>
      simp only [declareRules] at result
      split at result
      · cases result
      · rename_i fresh
        split at result
        · cases result
        · rename_i head headResult
          split at result
          · cases result
          · rename_i others othersResult
            cases result
            obtain ⟨headDeclared, headId, _⟩ := declareRule_eq_ok headResult
            obtain ⟨othersDeclared, distinct, unused⟩ := ih othersResult
            refine ⟨?_, ?_, ?_⟩
            · intro other member
              rcases List.mem_cons.mp member with equal | later
              · exact equal ▸ headDeclared
              · exact othersDeclared other later
            · refine List.nodup_cons.mpr ⟨?_, distinct⟩
              intro member
              obtain ⟨other, otherMember, sameId⟩ := List.mem_map.mp member
              exact unused other otherMember (by simp [sameId, headId])
            · intro other member
              rcases List.mem_cons.mp member with equal | later
              · rw [equal, headId]
                exact fresh
              · exact fun used => unused other later (List.mem_cons_of_mem _ used)

end Grammar

end ShiftReduce
