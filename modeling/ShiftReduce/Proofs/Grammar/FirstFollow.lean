import ShiftReduce.Proofs.Grammar.DeclarationOrder
import ShiftReduce.Proofs.Grammar.Exactness

/-! Nullable symbols, FIRST sets and FOLLOW sets are exactly what derivations show, in every
grammar: no symbol need be reachable or productive. The passes that compute them end by
themselves. -/

namespace ShiftReduce

theorem Inclusion.get?_saturate {family : Family} {inclusions : List Inclusion} {fuel : Nat}
    {symbol : Symbol} (untouched : ∀ inclusion ∈ inclusions, symbol ≠ inclusion.superset) :
    (saturate (pass inclusions) Family.size fuel family).get? symbol = family.get? symbol := by
  refine saturate_invariant (pass inclusions) Family.size
    (fun current => current.get? symbol = family.get? symbol) ?_ fuel family rfl
  intro current same
  unfold pass
  induction inclusions generalizing current with
  | nil => exact same
  | cons inclusion rest ih =>
      refine ih (fun other member => untouched other (by simp [member])) (apply current inclusion) ?_
      unfold apply
      split
      · exact same
      · rw [Family.get?_extend_of_ne _ (untouched inclusion (by simp))]
        exact same

namespace Grammar

variable {g : Grammar} {symbol member : Symbol} {sequence : List Symbol}

theorem mem_nullable_iff : symbol ∈ g.sets.nullable ↔ g.Derives [symbol] [] := by
  constructor
  · exact derives_nil_of_nullable
  · intro derives
    obtain ⟨trees, valid, roots, leaves⟩ := derives.plainForest
    exact nullable_of_yields valid leaves symbol (by simp [roots])

theorem isNullable_iff (proper : symbol ≠ .epsilon) :
    g.sets.isNullable symbol = true ↔ g.Derives [symbol] [] := by
  simp [FirstSets.isNullable, proper, mem_nullable_iff]

theorem all_nullable_iff (declared : ∀ symbol ∈ sequence, g.Declares symbol) :
    (∀ symbol ∈ sequence, g.sets.isNullable symbol = true) ↔ g.Derives sequence [] := by
  constructor
  · intro nullable
    refine derives_nil_of_all fun symbol inside => ?_
    exact (isNullable_iff (declared symbol inside).2).mp (nullable symbol inside)
  · intro derives symbol inside
    obtain ⟨trees, valid, roots, leaves⟩ := derives.plainForest
    exact isNullable_of_mem (nullable_of_yields valid leaves symbol (by rw [roots]; exact inside))

/-- A sequence begins with what forms derived from it begin with. -/
theorem leads_iff_derives (declared : ∀ symbol ∈ sequence, g.Declares symbol) :
    g.sets.Leads sequence member ↔
      member.isTerminal = true ∧ ∃ rest, g.Derives sequence (member :: rest) := by
  constructor
  · intro leads
    refine ⟨(terminal_of_leads leads).1, ?_⟩
    obtain ⟨before, symbol, after, rfl, skipped, first, proper⟩ := leads
    obtain ⟨rest, derives⟩ := derives_of_first first proper
    have front := (all_nullable_iff fun other inside => declared other (by simp [inside])).mp skipped
    exact ⟨rest ++ after, front.append (derives.append (Derives.refl after))⟩
  · rintro ⟨terminal, rest, derives⟩
    have known := derives.declares declared member (by simp)
    obtain ⟨trees, valid, rfl, leaves⟩ := derives.plainForest
    exact leads_of_yields valid leaves known terminal

theorem first_iff_derives (declared : g.Declares symbol) (proper : member ≠ .epsilon) :
    g.First symbol member ↔
      member.isTerminal = true ∧ ∃ rest, g.Derives [symbol] (member :: rest) := by
  rw [← leads_iff_derives (by simpa using declared), FirstSets.leads_cons]
  constructor
  · exact fun first => Or.inl ⟨first, proper⟩
  · rintro (⟨first, _⟩ | ⟨_, _, _, _, split, _⟩)
    · exact first
    · simp at split

theorem eq_epsilon_of_baseFirst (has : g.baseFirst.Has symbol .epsilon) : symbol = .epsilon := by
  have closed : Inclusion.Closed (firstInclusions (nullableSymbols g.rules) g.rules)
      fun symbol member => member = .epsilon → symbol = .epsilon := by
    intro inclusion inclusionMember other below empty
    obtain ⟨rule, ruleMember, inside⟩ := List.mem_flatMap.mp inclusionMember
    obtain ⟨source, sourceMember, rfl⟩ := List.mem_map.mp inside
    obtain ⟨before, after, split, _⟩ :=
      split_of_mem_throughNullable (List.mem_filter.mp sourceMember).1
    have inRule : source ∈ rule.symbols := by simp [split]
    have declared := declares_of_mem_symbols ruleMember inRule
    exact absurd (below empty) declared.2
  refine Inclusion.has_saturate_least closed ?_ symbol .epsilon has rfl
  intro symbol member seed empty
  rw [(has_firstSeed seed).1, empty]

theorem exists_baseFirst (declared : g.Declares symbol) :
    ∃ set, g.baseFirst.get? symbol = some set := by
  rw [← Option.ne_none_iff_exists', Ne, g.drawn_baseFirst.get?_none, not_not]
  obtain ⟨token, member, rfl⟩ := List.mem_map.mp declared.1
  refine List.mem_map.mpr ⟨_, List.mem_append_left _ (List.mem_map_of_mem
    (List.mem_filter.mpr ⟨member, ?_⟩)), rfl⟩
  simpa [Token.isEpsilon] using declared.2

theorem first_iff_of_first? {set : TokenSet} (found : g.first? symbol = some set) :
    g.First symbol member ↔ member ∈ set.map Token.symbol := by
  have own : g.sets.family.get? symbol = some set := found
  rw [First, Family.has_iff_getD, own, Option.getD_some]

/-- ε is in FIRST of the nullable symbols only. -/
theorem first_epsilon_iff (declared : g.Declares symbol) :
    g.First symbol .epsilon ↔ g.Derives [symbol] [] := by
  obtain ⟨base, baseFound⟩ := exists_baseFirst declared
  have bare : .epsilon ∉ base.map Token.symbol := fun inside =>
    declared.2 (eq_epsilon_of_baseFirst ⟨base, baseFound, inside⟩)
  have found := g.first?_eq symbol
  rw [baseFound, Option.map_some] at found
  rw [first_iff_of_first? found, ← mem_nullable_iff]
  split
  · rename_i nullable
    simp [TokenSet.insert, Keyed.mem_map_insert, Token.epsilon, nullable]
  · rename_i solid
    exact ⟨fun inside => absurd inside bare, fun nullable => absurd nullable solid⟩

/-- No rule has a terminal for its left-hand side, so FIRST of a terminal stays as it starts. -/
theorem first?_terminal {token : Token} (inside : token ∈ g.terminals) :
    ∃ set, g.first? token.symbol = some set ∧ set.map Token.symbol = [token.symbol] := by
  obtain ⟨declared, terminal⟩ := List.mem_filter.mp inside
  have apart : ∀ rule ∈ g.rules, token.symbol ≠ rule.left.symbol := by
    intro rule ruleMember same
    rw [Token.isTerminal, same, g.left_nonterminal ruleMember] at terminal
    cases terminal
  have solid : token.symbol ∉ g.sets.nullable := by
    intro nullable
    cases (derives_nil_of_nullable nullable).eq_of_terminals
      (by simpa [Token.isTerminal] using terminal)
  have unchanged : g.baseFirst.get? token.symbol = (firstSeed g.tokens).get? token.symbol := by
    refine Inclusion.get?_saturate fun inclusion inclusionMember => ?_
    obtain ⟨rule, ruleMember, left⟩ := superset_of_firstInclusion inclusionMember
    rw [left]
    exact apart rule ruleMember
  obtain ⟨set, entry, single⟩ : ∃ set, (token.symbol, set) ∈ firstSeed g.tokens ∧
      set.map Token.symbol = [token.symbol] := by
    by_cases empty : token.symbol = .epsilon
    · exact ⟨[.epsilon], by simp [firstSeed, empty], by simp [empty, Token.epsilon]⟩
    · refine ⟨[token], List.mem_append_left _ (List.mem_map.mpr ⟨token, ?_, by simp [terminal]⟩),
        rfl⟩
      exact List.mem_filter.mpr ⟨declared, by simpa [Token.isEpsilon] using empty⟩
  have seeded : (firstSeed g.tokens).get? token.symbol = some set := by
    rw [Family.get?, Keyed.find?_mem (firstSeed_keys_nodup g.symbols_nodup) entry]
    rfl
  refine ⟨set, ?_, single⟩
  rw [first?_eq, unchanged, seeded, Option.map_some, if_neg solid]

/-- Nullable are exactly the symbols that derive the empty string, and FIRST sets hold exactly
the terminals that derived forms begin with, and ε for the empty string. -/
theorem first_exact (g : Grammar) :
    Settles (nullablePass g.rules) List.length (g.rules.length + 1) [] ∧
    Settles (Inclusion.pass (firstInclusions (nullableSymbols g.rules) g.rules)) Family.size
      (passLimit g.tokens) (firstSeed g.tokens) ∧
    (∀ symbol, symbol.isTerminal = false →
      (g.isNullable symbol = true ↔ g.Derives [symbol] [])) ∧
    (∀ token ∈ g.terminals, ∃ set, g.first? token.symbol = some set ∧
      set.map Token.symbol = [token.symbol]) ∧
    ∀ token ∈ g.nonterminals, ∃ set, g.first? token.symbol = some set ∧
      ∀ member, member ∈ set.map Token.symbol ↔
        member.isTerminal = true ∧ member ≠ .epsilon ∧
            (∃ rest, g.Derives [token.symbol] (member :: rest)) ∨
          member = .epsilon ∧ g.Derives [token.symbol] [] := by
  refine ⟨(nullableSymbols_ends g.rules).1, g.baseFirst_ends.1, ?_, fun _ => first?_terminal, ?_⟩
  · intro symbol kind
    refine isNullable_iff ?_
    rintro rfl
    cases kind
  · intro token inside
    obtain ⟨member, kind⟩ := List.mem_filter.mp inside
    have declared : g.Declares token.symbol := by
      refine ⟨List.mem_map_of_mem member, fun empty => ?_⟩
      simp [Token.isTerminal, empty, Symbol.epsilon, Symbol.isTerminal] at kind
    obtain ⟨base, baseFound⟩ := exists_baseFirst declared
    have found := g.first?_eq token.symbol
    rw [baseFound, Option.map_some] at found
    refine ⟨_, found, fun member => ?_⟩
    rw [← first_iff_of_first? found]
    by_cases empty : member = .epsilon
    · subst empty
      simp [first_epsilon_iff declared]
    · simp [first_iff_derives declared empty, empty]

/-- Families that have the end marker for the start symbol and, for each rule `X -> α A β`,
FIRST of `β` for `A`, and what they have for `X` if `β` is nullable. -/
structure FollowClosed (g : Grammar) (has : Symbol → Symbol → Prop) : Prop where
  start : has g.start.left.symbol .endMarker
  first : ∀ rule ∈ g.rules, ∀ before nonterminal after,
    rule.symbols = before ++ nonterminal :: after → nonterminal.isTerminal = false →
    ∀ member rest, member.isTerminal = true → g.Derives after (member :: rest) →
      has nonterminal member
  left : ∀ rule ∈ g.rules, ∀ before nonterminal after,
    rule.symbols = before ++ nonterminal :: after → nonterminal.isTerminal = false →
    g.Derives after [] → ∀ member, has rule.left.symbol member → has nonterminal member

theorem declares_after {rule : Rule} (ruleMember : rule ∈ g.rules) {before after : List Symbol}
    (split : rule.symbols = before ++ symbol :: after) : ∀ other ∈ after, g.Declares other :=
  fun other inside => declares_of_mem_symbols ruleMember (by simp [split, inside])

theorem followClosed_follow (g : Grammar) : g.FollowClosed g.Follow where
  start := g.follow_start
  first := by
    intro rule ruleMember before nonterminal after split kind member rest terminal derives
    refine follow_of_leads ruleMember split kind ?_
    exact (leads_iff_derives (declares_after ruleMember split)).mpr ⟨terminal, rest, derives⟩
  left := by
    intro rule ruleMember before nonterminal after split kind derives member follow
    refine follow_of_left ruleMember split kind ?_ follow
    exact (all_nullable_iff (declares_after ruleMember split)).mpr derives

section Least

variable {has : Symbol → Symbol → Prop} (closed : g.FollowClosed has)

include closed

theorem FollowClosed.of_follow {nonterminal : Symbol} (follow : g.Follow nonterminal member) :
    has nonterminal member := by
  rw [Follow, follow_eq] at follow
  refine Inclusion.has_saturate_least ?_ ?_ nonterminal member follow
  · intro inclusion inside other below
    obtain ⟨occurrence, occurs, rfl⟩ := List.mem_map.mp inside
    obtain ⟨inRules, passes⟩ := List.mem_filter.mp occurs
    obtain ⟨rule, ruleMember, left, kind, before, split⟩ := Occurrence.mem_all.mp inRules
    have nullable := FirstSets.leadingFrom_nullable.mp (Bool.and_eq_true_iff.mp passes).1
    rw [left] at below
    exact closed.left rule ruleMember before _ _ split kind
      ((all_nullable_iff (declares_after ruleMember split)).mp nullable) other below
  · intro other found base
    rcases has_foldl_extend.mp base with seed | ⟨occurrence, occurs, rfl, leads⟩
    · obtain ⟨rfl, rfl⟩ := has_followSeed.mp seed
      exact closed.start
    · obtain ⟨rule, ruleMember, _, kind, before, split⟩ := Occurrence.mem_all.mp occurs
      obtain ⟨terminal, rest, derives⟩ :=
        (leads_iff_derives (declares_after ruleMember split)).mp leads
      exact closed.first rule ruleMember before _ _ split kind found rest terminal derives

/-- What comes after an occurrence in a derived form is in the family; where nothing need
come after it, all that the family has for the origin of the derivation is. -/
theorem FollowClosed.of_derives {origin : Symbol} {form : List Symbol}
    (derives : g.Derives [origin] form) {before after : List Symbol} {nonterminal : Symbol}
    (shape : form = before ++ nonterminal :: after) (kind : nonterminal.isTerminal = false) :
    (∀ member rest, member.isTerminal = true → g.Derives after (member :: rest) →
      has nonterminal member) ∧
    (g.Derives after [] → ∀ member, has origin member → has nonterminal member) := by
  induction derives generalizing before after nonterminal with
  | refl =>
      obtain ⟨rfl, rfl, rfl⟩ : before = [] ∧ nonterminal = origin ∧ after = [] := by
        simpa [List.singleton_eq_append_iff] using shape
      refine ⟨fun member rest _ derives => ?_, fun _ _ held => held⟩
      cases derives.eq_of_terminals (by simp)
  | tail _ step ih =>
      cases step with
      | @rewrite rule front back ruleMember =>
          have applied := Derives.rule ruleMember
          rcases occurrence_cases shape with
            ⟨middle, rfl, rfl⟩ | ⟨left, right, split, rfl, rfl⟩ | ⟨middle, rfl, rfl⟩
          · -- The occurrence is older: what now follows it was derived from what followed it.
            obtain ⟨first, last⟩ := ih (List.append_assoc before _ _) kind
            have grown := applied.context middle back
            exact ⟨fun member rest terminal derives =>
                first member rest terminal (grown.trans derives),
              fun derives => last (grown.trans derives)⟩
          · -- The occurrence is new: after the rest of the rule comes what follows its left side.
            obtain ⟨first, last⟩ := ih rfl (g.left_nonterminal ruleMember)
            refine ⟨fun member rest terminal derives => ?_, fun derives member held => ?_⟩
            · obtain ⟨near, far, joined, nearDerived, farDerived⟩ := derives.split
              cases near with
              | nil =>
                  rw [List.nil_append] at joined
                  rw [← joined] at farDerived
                  exact closed.left rule ruleMember left nonterminal right split kind nearDerived
                    member (first member rest terminal farDerived)
              | cons head near =>
                  obtain ⟨rfl, _⟩ := List.cons.inj joined
                  exact closed.first rule ruleMember left nonterminal right split kind member near
                    terminal nearDerived
            · obtain ⟨near, far, joined, nearDerived, farDerived⟩ := derives.split
              obtain ⟨rfl, rfl⟩ := List.append_eq_nil_iff.mp joined.symm
              exact closed.left rule ruleMember left nonterminal right split kind nearDerived
                member (last farDerived member held)
          · -- The occurrence is older and stands after what was rewritten.
            have older : front ++ rule.left.symbol :: (middle ++ nonterminal :: after) =
                front ++ rule.left.symbol :: middle ++ nonterminal :: after := by
              simp
            exact ih older kind

end Least

/-- A nonterminal is followed by a terminal if some derived form shows it, and by the end
marker also if the start symbol derives a form that ends in it. -/
def FollowedBy (g : Grammar) (nonterminal member : Symbol) : Prop :=
  (∃ origin ∈ g.nonterminals, ∃ before after,
    g.Derives [origin.symbol] (before ++ nonterminal :: member :: after)) ∨
  member = .endMarker ∧ ∃ before, g.Derives [g.start.left.symbol] (before ++ [nonterminal])

theorem Derives.rule_after {rule : Rule} (ruleMember : rule ∈ g.rules)
    {before after derived : List Symbol} (split : rule.symbols = before ++ symbol :: after)
    (derives : g.Derives after derived) :
    g.Derives [rule.left.symbol] (before ++ symbol :: derived) := by
  have applied := Derives.rule ruleMember
  rw [split] at applied
  have back := derives.context (before ++ [symbol]) []
  simp only [List.append_nil, List.append_assoc, List.singleton_append] at back
  exact applied.trans back

theorem followClosed_followedBy (g : Grammar) : g.FollowClosed g.FollowedBy where
  start := Or.inr ⟨rfl, [], Derives.refl _⟩
  first := by
    intro rule ruleMember before nonterminal after split kind member rest _ derives
    have declared := g.rules_declared rule ruleMember
    have origin : rule.left ∈ g.nonterminals :=
      List.mem_filter.mpr ⟨declared.left_mem, by simp [declared.left_nonterminal]⟩
    exact Or.inl ⟨rule.left, origin, before, rest, Derives.rule_after ruleMember split derives⟩
  left := by
    intro rule ruleMember before nonterminal after split kind empty member followed
    have last := Derives.rule_after ruleMember split empty
    rcases followed with ⟨origin, inside, front, back, derives⟩ | ⟨marker, front, derives⟩
    · have shown := derives.trans (last.context front (member :: back))
      simp only [List.append_assoc, List.cons_append, List.nil_append] at shown
      exact Or.inl ⟨origin, inside, front ++ before, back, by simpa using shown⟩
    · have shown := derives.trans (last.context front [])
      exact Or.inr ⟨marker, front ++ before, by simpa using shown⟩

/-- FOLLOW sets hold exactly the terminals that derived forms show after a nonterminal, and
they are the least sets that meet the conditions of the rules. -/
theorem follow_exact (g : Grammar) :
    Settles (Inclusion.pass (followInclusions g.sets.toFirstSets g.rules)) Family.size
      (passLimit g.tokens) (followBase g.sets.toFirstSets g.tokens g.rules g.start) ∧
    (∀ token ∈ g.nonterminals, ∃ set, g.follow? token.symbol = some set ∧
      ∀ member, member ∈ set.map Token.symbol ↔
        member.isTerminal = true ∧ g.FollowedBy token.symbol member) ∧
    (∀ nonterminal member, g.Follow nonterminal member →
      member.isTerminal = true ∧ member ≠ .epsilon) ∧
    g.FollowClosed g.Follow ∧
    ∀ has, g.FollowClosed has → ∀ nonterminal member,
      g.Follow nonterminal member → has nonterminal member := by
  refine ⟨g.follow_ends.1, ?_, ?_, g.followClosed_follow, fun _ closed _ _ => closed.of_follow⟩
  · intro token inside
    have drawn : g.sets.follow.Drawn (g.nonterminals.map Token.symbol) (.endMarker :: g.pool) :=
      drawn_follow (fun _ member => List.mem_cons_of_mem _ member) List.mem_cons_self
    obtain ⟨set, found⟩ : ∃ set, g.follow? token.symbol = some set := by
      rw [← Option.ne_none_iff_exists', Ne, follow?, SymbolSets.follow?, drawn.get?_none, not_not]
      exact List.mem_map_of_mem inside
    have stored : g.sets.follow.get? token.symbol = some set := found
    refine ⟨set, found, fun member => ?_⟩
    have own : member ∈ set.map Token.symbol ↔ g.Follow token.symbol member := by
      rw [Follow, Family.has_iff_getD, stored, Option.getD_some]
    rw [own]
    have kind : token.symbol.isTerminal = false := by
      simpa [Token.isTerminal] using (List.mem_filter.mp inside).2
    constructor
    · exact fun follow => ⟨(terminal_of_follow follow).1, g.followClosed_followedBy.of_follow follow⟩
    · rintro ⟨terminal, ⟨origin, _, before, after, derives⟩ | ⟨rfl, before, derives⟩⟩
      · exact (g.followClosed_follow.of_derives derives rfl kind).1 member after terminal
          (Derives.refl _)
      · exact (g.followClosed_follow.of_derives derives rfl kind).2 (Derives.refl _) _ g.follow_start
  · intro nonterminal member follow
    obtain ⟨terminal, _, proper⟩ := terminal_of_follow follow
    exact ⟨terminal, proper⟩

end Grammar

end ShiftReduce
