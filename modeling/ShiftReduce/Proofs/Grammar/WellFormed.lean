import ShiftReduce.Proofs.Grammar.DeclarationOrder

/-! When a start rule, rules and tokens make a grammar, and which one. The checks stop at
the first fault, but whether there is one depends on each rule by itself and on the
numbers of the rules; what is stored are the given rules with the tokens declared
last. -/

namespace ShiftReduce

/-- The symbols on both sides. -/
def Rule.sides (rule : Rule) : Symbol × List Symbol :=
  (rule.left.symbol, rule.right.map Token.symbol)

theorem Rule.sameSides_iff {rule other : Rule} :
    rule.sameSides other = true ↔ rule.sides = other.sides := by
  simp [sameSides, sides]

theorem Rule.endsInput_iff {rule : Rule} :
    rule.endsInput = true ↔ (rule.right.map Token.symbol).getLast? = some .endMarker := by
  rw [endsInput, List.getLast?_map]
  cases rule.right.getLast? <;> simp [Token.isEndMarker]

namespace Token

/-- The token as it was declared last. Nothing is declared of ε. -/
def latest (tokens : List Token) (token : Token) : Token :=
  if token.isEpsilon then .epsilon
  else (tokens.reverse.find? fun other => other.symbol = token.symbol).getD token

theorem symbol_latest (tokens : List Token) (token : Token) :
    (token.latest tokens).symbol = token.symbol := by
  unfold latest
  split
  · rename_i empty
    exact (of_decide_eq_true empty).symm
  · cases found : tokens.reverse.find? fun other => other.symbol = token.symbol with
    | none => rfl
    | some declared => simpa using List.find?_some found

theorem mem_sorted_iff {token : Token} {tokens : List Token} :
    token ∈ sorted tokens ↔
      tokens.reverse.find? (fun other => other.symbol = token.symbol) = some token := by
  refine ⟨find?_of_mem_sorted, fun found => ?_⟩
  have given : token.symbol ∈ tokens.map symbol :=
    List.mem_map_of_mem (List.mem_reverse.mp (List.mem_of_find?_eq_some found))
  obtain ⟨kept, member, same⟩ := List.mem_map.mp (mem_symbols_sorted.mpr given)
  have last := find?_of_mem_sorted member
  rw [same, found] at last
  rwa [Option.some.inj last]

theorem find?_sorted (tokens : List Token) (name : Symbol) :
    Keyed.find? symbol name (sorted tokens) =
      tokens.reverse.find? fun other => other.symbol = name := by
  have distinct : ((sorted tokens).map symbol).Nodup :=
    nodup_symbols (Sorted.ofList_increasing tokens)
  refine Option.ext fun token => ⟨fun found => ?_, fun found => ?_⟩
  · obtain ⟨member, rfl⟩ := Keyed.find?_some found
    exact mem_sorted_iff.mp member
  · obtain rfl : token.symbol = name := by simpa using List.find?_some found
    exact Keyed.find?_mem distinct (mem_sorted_iff.mpr found)

end Token

namespace Rule

/-- The rule with its tokens as they were declared last. -/
def latest (tokens : List Token) (rule : Rule) : Rule :=
  { id := rule.id
    left := rule.left.latest tokens
    right := rule.right.map (Token.latest tokens) }

theorem sides_latest (tokens : List Token) (rule : Rule) :
    (rule.latest tokens).sides = rule.sides := by
  simp [sides, latest, Token.symbol_latest, Function.comp_def]

/-- A nonterminal of the tokens on the left, and on the right ε alone or other tokens
than ε, at least one of them and all from the given ones. -/
structure WellFormed (tokens : List Token) (rule : Rule) : Prop where
  left_nonterminal : rule.left.isTerminal = false
  left_mem : rule.left.symbol ∈ tokens.map Token.symbol
  right_nonempty : rule.right ≠ []
  right_mem : rule.right.map Token.symbol = [.epsilon] ∨
    ∀ token ∈ rule.right, token.symbol ≠ .epsilon ∧ token.symbol ∈ tokens.map Token.symbol

theorem WellFormed.right_given {tokens : List Token} {rule : Rule}
    (wellFormed : rule.WellFormed tokens) :
    ∀ token ∈ rule.right, token.symbol = .epsilon ∨ token.symbol ∈ tokens.map Token.symbol := by
  intro token member
  rcases wellFormed.right_mem with single | plain
  · left
    have inside := List.mem_map_of_mem (f := Token.symbol) member
    rw [single] at inside
    exact List.mem_singleton.mp inside
  · exact Or.inr (plain token member).2

end Rule

namespace Grammar

variable {start : Rule} {rules : List Rule} {tokens : List Token} {g : Grammar}

theorem declareToken_iff {token made : Token} :
    declareToken (Token.sorted tokens) token = .ok made ↔
      (token.symbol = .epsilon ∨ token.symbol ∈ tokens.map Token.symbol) ∧
        made = token.latest tokens := by
  rw [declareToken, Token.latest, Token.find?_sorted]
  by_cases empty : token.symbol = .epsilon
  · simp [Token.isEpsilon, empty, eq_comm]
  · have plain : token.isEpsilon = false := decide_eq_false empty
    simp only [plain, empty, Bool.false_eq_true, if_false, false_or]
    cases found : tokens.reverse.find? fun other => other.symbol = token.symbol with
    | none =>
        have absent : token.symbol ∉ tokens.map Token.symbol := by
          intro member
          obtain ⟨other, inside, same⟩ := List.mem_map.mp member
          have unlike := List.find?_eq_none.mp found other (List.mem_reverse.mpr inside)
          exact unlike (decide_eq_true same)
        simp [absent]
    | some declared =>
        have given : token.symbol ∈ tokens.map Token.symbol := by
          have same : declared.symbol = token.symbol := by simpa using List.find?_some found
          rw [← same]
          exact List.mem_map_of_mem (List.mem_reverse.mp (List.mem_of_find?_eq_some found))
        simp [given, eq_comm]

theorem declareTokens_iff {right made : List Token} :
    declareTokens (Token.sorted tokens) right = .ok made ↔
      (∀ token ∈ right, token.symbol = .epsilon ∨ token.symbol ∈ tokens.map Token.symbol) ∧
        made = right.map (Token.latest tokens) := by
  induction right generalizing made with
  | nil => simp [declareTokens, eq_comm]
  | cons token rest ih =>
      rw [declareTokens, List.forall_mem_cons, List.map_cons]
      cases first : declareToken (Token.sorted tokens) token with
      | error fault =>
          simp only [reduceCtorEq, false_iff]
          rintro ⟨⟨given, _⟩, _⟩
          cases first.symm.trans (declareToken_iff.mpr ⟨given, rfl⟩)
      | ok declared =>
          obtain ⟨given, rfl⟩ := declareToken_iff.mp first
          cases later : declareTokens (Token.sorted tokens) rest with
          | error fault =>
              simp only [reduceCtorEq, false_iff]
              rintro ⟨⟨_, others⟩, _⟩
              cases later.symm.trans (ih.mpr ⟨others, rfl⟩)
          | ok others =>
              obtain ⟨restGiven, rfl⟩ := ih.mp later
              simp only [Except.ok.injEq]
              exact ⟨fun same => ⟨⟨given, restGiven⟩, same.symm⟩, fun both => both.2.symm⟩

theorem declareRule_iff {rule made : Rule} :
    declareRule (Token.sorted tokens) rule = .ok made ↔
      rule.WellFormed tokens ∧ made = rule.latest tokens := by
  rw [declareRule_ok_iff, declareToken_iff, declareTokens_iff]
  constructor
  · rintro ⟨nonterminal, nonempty, placed, ⟨leftGiven, left⟩, ⟨rightGiven, right⟩, id⟩
    have proper := Token.symbol_ne_epsilon nonterminal
    refine ⟨⟨nonterminal, leftGiven.resolve_left proper, nonempty, ?_⟩, ?_⟩
    · refine placed.imp_right fun plain token member => ⟨plain token member, ?_⟩
      exact (rightGiven token member).resolve_left (plain token member)
    · cases made
      cases left
      cases right
      cases id
      rfl
  · rintro ⟨wellFormed, rfl⟩
    refine ⟨wellFormed.left_nonterminal, wellFormed.right_nonempty, ?_,
      ⟨Or.inr wellFormed.left_mem, rfl⟩, ⟨wellFormed.right_given, rfl⟩, rfl⟩
    exact wellFormed.right_mem.imp_right fun plain token member => (plain token member).1

theorem declareRules_iff_wellFormed {declared : List Rule} :
    declareRules (Token.sorted tokens) [] rules = .ok declared ↔
      (rules.map Rule.id).Nodup ∧ (∀ rule ∈ rules, rule.WellFormed tokens) ∧
        declared = rules.map (Rule.latest tokens) := by
  have paired : List.Forall₂ (fun rule made => made = rule.latest tokens) rules declared ↔
      declared = rules.map (Rule.latest tokens) := by
    rw [← List.forall₂_eq_eq_eq, List.forall₂_map_right_iff]
    exact ⟨List.Forall₂.flip, List.Forall₂.flip⟩
  simp only [declareRules_iff, declareRule_iff, List.forall₂_and_left, paired, List.not_mem_nil,
    not_false_eq_true, implies_true, and_true]
  tauto

/-- What makes a grammar: rules with distinct numbers that are well formed each, and a start
rule among them that ends with the end marker. -/
structure WellFormed (start : Rule) (rules : List Rule) (tokens : List Token) : Prop where
  ids_nodup : (rules.map Rule.id).Nodup
  rules_wellFormed : ∀ rule ∈ rules, rule.WellFormed tokens
  start_mem : ∃ rule ∈ rules, rule.id = start.id ∧ rule.sides = start.sides
  start_ends : (start.right.map Token.symbol).getLast? = some .endMarker

theorem wellFormed_of_build (built : build start rules tokens = .ok g) :
    WellFormed start rules tokens ∧ g.rules = rules.map (Rule.latest tokens) := by
  obtain ⟨_, checked, found⟩ := build_eq_ok built
  obtain ⟨distinct, wellFormed, made⟩ := declareRules_iff_wellFormed.mp checked
  have meets := List.find?_some found
  obtain ⟨id, same⟩ := of_decide_eq_true meets
  have sides := Rule.sameSides_iff.mp same
  have right : g.start.right.map Token.symbol = start.right.map Token.symbol :=
    congrArg Prod.snd sides
  have member := List.mem_of_find?_eq_some found
  rw [made] at member
  obtain ⟨rule, given, latest⟩ := List.mem_map.mp member
  refine ⟨⟨distinct, wellFormed, ⟨rule, given, ?_, ?_⟩, ?_⟩, made⟩
  · rw [← id, ← latest]
    rfl
  · rw [← sides, ← latest, Rule.sides_latest]
  · rw [← right]
    exact Rule.endsInput_iff.mp g.start_endsInput

theorem exists_build_of_wellFormed (wellFormed : WellFormed start rules tokens) :
    ∃ g, build start rules tokens = .ok g := by
  have checked := declareRules_iff_wellFormed.mpr
    ⟨wellFormed.ids_nodup, wellFormed.rules_wellFormed, rfl⟩
  obtain ⟨rule, given, id, sides⟩ := wellFormed.start_mem
  cases found : (rules.map (Rule.latest tokens)).find?
      (fun rule => rule.id = start.id ∧ rule.sameSides start) with
  | none =>
      refine absurd (decide_eq_true ?_) (List.find?_eq_none.mp found _ (List.mem_map_of_mem given))
      exact ⟨id, Rule.sameSides_iff.mpr ((rule.sides_latest tokens).trans sides)⟩
  | some made =>
      have meets := List.find?_some found
      have same : made.right.map Token.symbol = start.right.map Token.symbol :=
        congrArg Prod.snd (Rule.sameSides_iff.mp (of_decide_eq_true meets).2)
      obtain ⟨g, built, _⟩ := exists_build checked found
        (Rule.endsInput_iff.mpr (same ▸ wellFormed.start_ends))
      exact ⟨g, built⟩

/-- A grammar is built exactly from what is well formed. Its rules are the given ones in
order, with the payload of the tokens declared last, and its tokens are the given ones in
increasing order, the last of equal ones. -/
theorem build_exact (start : Rule) (rules : List Rule) (tokens : List Token) :
    ((∃ g, build start rules tokens = .ok g) ↔ WellFormed start rules tokens) ∧
    (¬ WellFormed start rules tokens → ∃ fault, build start rules tokens = .error fault) ∧
    ∀ g, build start rules tokens = .ok g →
      g.rules = rules.map (Rule.latest tokens) ∧
      Sorted.Increasing Token.cmp g.tokens ∧
      ∀ token, token ∈ g.tokens ↔
        tokens.reverse.find? (fun other => other.symbol = token.symbol) = some token := by
  refine ⟨⟨fun ⟨g, built⟩ => (wellFormed_of_build built).1, exists_build_of_wellFormed⟩, ?_, ?_⟩
  · intro malformed
    cases built : build start rules tokens with
    | error fault => exact ⟨fault, rfl⟩
    | ok g => exact absurd (wellFormed_of_build built).1 malformed
  · intro g built
    obtain ⟨sorted, _⟩ := build_eq_ok built
    refine ⟨(wellFormed_of_build built).2, g.tokens_increasing, fun token => ?_⟩
    rw [sorted, Token.mem_sorted_iff]

end Grammar

end ShiftReduce
