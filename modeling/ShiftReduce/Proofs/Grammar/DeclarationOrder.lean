import Mathlib.Data.List.Perm.Basic
import ShiftReduce.Proofs.Grammar.Follow

/-! The order in which rules and tokens are declared does not matter. Tokens are sorted
and rules checked one by one, so the grammar has the same tokens and the same rules in
another order. The sets of symbols are least solutions of the same conditions, and
their tokens are declared ones, payload included. -/

namespace ShiftReduce

theorem throughNullable_congr {nullable other : List Symbol}
    (same : ∀ symbol, symbol ∈ nullable ↔ symbol ∈ other) (sequence : List Symbol) :
    throughNullable nullable sequence = throughNullable other sequence := by
  induction sequence with
  | nil => rfl
  | cons symbol rest ih => simp only [throughNullable, same, ih]

theorem nullableSymbols_mono {rules more : List Rule}
    (contained : ∀ rule ∈ rules, rule ∈ more) :
    ∀ symbol ∈ nullableSymbols rules, symbol ∈ nullableSymbols more :=
  nullableSymbols_least fun rule member =>
    closed_nullableSymbols more rule (contained rule member)

theorem firstInclusions_mono {nullable other : List Symbol} {rules more : List Rule}
    (same : ∀ symbol, symbol ∈ nullable ↔ symbol ∈ other)
    (contained : ∀ rule ∈ rules, rule ∈ more) :
    ∀ inclusion ∈ firstInclusions nullable rules, inclusion ∈ firstInclusions other more := by
  intro inclusion member
  obtain ⟨rule, ruleMember, inside⟩ := List.mem_flatMap.mp member
  rw [throughNullable_congr same] at inside
  exact List.mem_flatMap.mpr ⟨rule, contained rule ruleMember, inside⟩

theorem perm_getD {first second : Option TokenSet}
    (related : Option.Rel List.Perm first second) : (first.getD []).Perm (second.getD []) := by
  cases related with
  | none => rfl
  | some perm => exact perm

theorem Family.has_congr {family other : Family}
    (same : ∀ symbol, Option.Rel List.Perm (family.get? symbol) (other.get? symbol))
    {symbol member : Symbol} : family.Has symbol member ↔ other.Has symbol member := by
  rw [has_iff_getD, has_iff_getD]
  exact ((perm_getD (same symbol)).map Token.symbol).mem_iff

namespace Grammar

section Build

variable {start : Rule} {rules others declared : List Rule} {tokens : List Token}

theorem declareRules_iff {taken : List RuleId} :
    declareRules tokens taken rules = .ok declared ↔
      List.Forall₂ (fun rule made => declareRule tokens rule = .ok made) rules declared ∧
        (rules.map Rule.id).Nodup ∧ ∀ rule ∈ rules, rule.id ∉ taken := by
  induction rules generalizing taken declared with
  | nil => simp [declareRules, eq_comm]
  | cons rule rest ih =>
      constructor
      · intro result
        simp only [declareRules] at result
        split at result
        · cases result
        · rename_i fresh
          split at result
          · cases result
          · rename_i made makes
            split at result
            · cases result
            · rename_i later laterResult
              cases result
              obtain ⟨pairs, distinct, unused⟩ := ih.mp laterResult
              refine ⟨List.Forall₂.cons makes pairs, List.nodup_cons.mpr ⟨?_, distinct⟩, ?_⟩
              · intro member
                obtain ⟨other, inside, same⟩ := List.mem_map.mp member
                exact unused other inside (by simp [same])
              · intro other member
                rcases List.mem_cons.mp member with rfl | inside
                · exact fresh
                · exact fun used => unused other inside (List.mem_cons_of_mem _ used)
      · rintro ⟨pairs, distinct, unused⟩
        cases pairs with
        | cons makes pairs =>
            obtain ⟨fresh, tail⟩ := List.nodup_cons.mp distinct
            have unusedLater : ∀ other ∈ rest, other.id ∉ rule.id :: taken := by
              intro other inside used
              rcases List.mem_cons.mp used with same | old
              · exact fresh (same ▸ List.mem_map_of_mem inside)
              · exact unused other (List.mem_cons_of_mem _ inside) old
            have laterResult := ih.mpr ⟨pairs, tail, unusedLater⟩
            simp only [declareRules, unused rule (by simp), if_false, makes, laterResult]

theorem declareRules_perm (perm : rules.Perm others)
    (result : declareRules tokens [] rules = .ok declared) :
    ∃ again, declareRules tokens [] others = .ok again ∧ again.Perm declared := by
  obtain ⟨pairs, distinct, _⟩ := declareRules_iff.mp result
  obtain ⟨again, otherPairs, permuted⟩ := List.perm_comp_forall₂ perm.symm pairs
  refine ⟨again, declareRules_iff.mpr ⟨otherPairs, ?_, by simp⟩, permuted⟩
  exact (perm.map Rule.id).nodup distinct

theorem build_eq_ok {g : Grammar} (built : build start rules tokens = .ok g) :
    g.tokens = Token.sorted tokens ∧ declareRules (Token.sorted tokens) [] rules = .ok g.rules ∧
      g.rules.find? (fun rule => rule.id = start.id ∧ rule.sameSides start) = some g.start := by
  unfold build at built
  split at built
  · cases built
  · rename_i declared checked
    split at built
    · cases built
    · rename_i rule found
      split at built
      · cases built
        exact ⟨rfl, checked, found⟩
      · cases built

theorem exists_build {rule : Rule}
    (checked : declareRules (Token.sorted tokens) [] rules = .ok declared)
    (found : declared.find? (fun rule => rule.id = start.id ∧ rule.sameSides start) = some rule)
    (ends : rule.endsInput = true) :
    ∃ g, build start rules tokens = .ok g ∧ g.tokens = Token.sorted tokens ∧
      g.rules = declared ∧ g.start = rule := by
  unfold build
  split
  · rename_i failed
    cases failed.symm.trans checked
  · rename_i made makes
    obtain rfl : made = declared := Except.ok.inj (makes.symm.trans checked)
    split
    · rename_i missing
      cases missing.symm.trans found
    · rename_i other otherFound
      obtain rfl : other = rule := Option.some.inj (otherFound.symm.trans found)
      rw [dif_pos ends]
      exact ⟨_, rfl, rfl, rfl, rfl⟩

end Build

/-- The same grammar with its rules in another order. -/
structure Reordered (g h : Grammar) : Prop where
  tokens : h.tokens = g.tokens
  rules : h.rules.Perm g.rules
  start : h.start = g.start

/-- The end marker is declared without payload. -/
def PlainEnd (g : Grammar) : Prop :=
  ∀ token ∈ g.tokens, token.symbol = .endMarker → token = .endMarker

variable {g h : Grammar}

theorem exists_reordered {start : Rule} {rules others : List Rule} {tokens more : List Token}
    (distinct : (tokens.map Token.symbol).Nodup) (built : build start rules tokens = .ok g)
    (rulesPerm : rules.Perm others) (tokensPerm : tokens.Perm more) :
    ∃ h, build start others more = .ok h ∧ g.Reordered h := by
  obtain ⟨sorted, checked, found⟩ := build_eq_ok built
  rw [Token.sorted_congr distinct tokensPerm] at sorted checked
  obtain ⟨again, otherChecked, perm⟩ := declareRules_perm rulesPerm checked
  -- The number of the start rule is taken by no other rule, so it is found again.
  have otherFound : again.find? (fun rule => rule.id = start.id ∧ rule.sameSides start) =
      some g.start := by
    have meets := List.find?_some found
    have member := perm.mem_iff.mpr (List.mem_of_find?_eq_some found)
    cases ruleFound : again.find? (fun rule => rule.id = start.id ∧ rule.sameSides start) with
    | none => exact absurd meets (List.find?_eq_none.mp ruleFound g.start member)
    | some rule =>
        have otherMeets := List.find?_some ruleFound
        have same : rule.id = g.start.id :=
          (of_decide_eq_true otherMeets).1.trans (of_decide_eq_true meets).1.symm
        rw [List.inj_on_of_nodup_map g.ids_nodup
          (perm.mem_iff.mp (List.mem_of_find?_eq_some ruleFound)) g.start_mem same]
  obtain ⟨h, otherBuilt, tokensEq, rulesEq, startEq⟩ :=
    exists_build otherChecked otherFound g.start_endsInput
  exact ⟨h, otherBuilt, tokensEq.trans sorted.symm, rulesEq ▸ perm, startEq⟩

theorem PlainEnd.endMarker_mem (plain : g.PlainEnd) : Token.endMarker ∈ g.tokens := by
  obtain ⟨token, member, marked⟩ := List.mem_map.mp g.declares_endMarker.1
  rwa [plain token member marked] at member

/-- The tokens that FIRST and FOLLOW sets are made of. -/
def pool (g : Grammar) : List Token :=
  .epsilon :: g.tokens.filter (!·.isEpsilon)

theorem mem_pool {token : Token} :
    token ∈ g.pool ↔ token = .epsilon ∨ token ∈ g.tokens ∧ token.symbol ≠ .epsilon := by
  simp [pool, Token.isEpsilon]

theorem pool_nodup (g : Grammar) : (g.pool.map Token.symbol).Nodup := by
  refine List.nodup_cons.mpr ⟨?_, g.symbols_nodup.sublist (List.filter_sublist.map _)⟩
  intro member
  obtain ⟨token, inside, same⟩ := List.mem_map.mp member
  have proper := (List.mem_filter.mp inside).2
  simp [Token.isEpsilon, same, Token.epsilon] at proper

theorem drawn_baseFirst (g : Grammar) :
    g.baseFirst.Drawn ((firstSeed g.tokens).map Prod.fst) g.pool := by
  refine Inclusion.drawn_saturate ?_ ⟨rfl, ?_⟩
  · intro inclusion member
    obtain ⟨rule, ruleMember, left⟩ := superset_of_firstInclusion member
    rw [left]
    have declared := g.rules_declared rule ruleMember
    refine List.mem_map.mpr ⟨_, List.mem_append_left _ (List.mem_map_of_mem
      (List.mem_filter.mpr ⟨declared.left_mem, ?_⟩)), rfl⟩
    simpa [Token.isEpsilon] using (declares_left ruleMember).2
  · intro entry member token inside
    rcases mem_firstSeed member with rfl | ⟨declared, declaredMember, proper, rfl⟩
    · exact mem_pool.mpr (Or.inl (List.mem_singleton.mp inside))
    · dsimp only at inside
      split at inside
      · rw [List.mem_singleton.mp inside]
        exact mem_pool.mpr (Or.inr ⟨declaredMember, by simpa [Token.isEpsilon] using proper⟩)
      · cases inside

theorem first?_eq (g : Grammar) (symbol : Symbol) :
    g.first? symbol = (g.baseFirst.get? symbol).map fun set =>
      if symbol ∈ g.sets.nullable then TokenSet.insert set .epsilon else set := by
  rw [first?, g.sets_eq]
  exact Family.get?_map g.baseFirst
    (fun symbol set => if symbol ∈ nullableSymbols g.rules then TokenSet.insert set .epsilon
      else set) symbol

theorem first?_drawn {symbol : Symbol} {set : TokenSet} (found : g.first? symbol = some set) :
    ∀ token ∈ set, token ∈ g.pool := by
  rw [first?_eq] at found
  obtain ⟨base, baseFound, rfl⟩ := Option.map_eq_some_iff.mp found
  have drawn := g.drawn_baseFirst.get?_some baseFound
  intro token member
  split at member
  · rcases Keyed.mem_of_mem_insert member with rfl | old
    · exact mem_pool.mpr (Or.inl rfl)
    · exact drawn token old
  · exact drawn token member

theorem leadingFrom_drawn {found : TokenSet} (drawn : ∀ token ∈ found, token ∈ g.pool)
    (sequence : List Symbol) :
    ∀ token ∈ (g.sets.toFirstSets.leadingFrom found sequence).1, token ∈ g.pool := by
  induction sequence generalizing found with
  | nil => exact drawn
  | cons symbol rest ih =>
      have wider : ∀ token ∈ TokenSet.union found
          (((g.sets.toFirstSets.first? symbol).getD []).filter (!·.isEpsilon)), token ∈ g.pool := by
        intro token member
        rcases TokenSet.mem_of_mem_union member with old | new
        · exact drawn token old
        · have inside := (List.mem_filter.mp new).1
          cases first : g.sets.toFirstSets.first? symbol with
          | none =>
              rw [first] at inside
              cases inside
          | some set =>
              rw [first] at inside
              exact first?_drawn first token inside
      rw [FirstSets.leadingFrom]
      split
      · exact ih wider
      · exact wider

section Follow

variable {pool : List Token} (wide : ∀ token ∈ g.pool, token ∈ pool)
  (marked : Token.endMarker ∈ pool)

include wide marked

theorem drawn_followBase :
    (followBase g.sets.toFirstSets g.tokens g.rules g.start).Drawn
      (g.nonterminals.map Token.symbol) pool := by
  refine drawn_foldl_extend (fun _ => nonterminal_of_occurrence)
    (fun _ _ token member => wide token (leadingFrom_drawn (by simp) _ token member))
    (Family.Drawn.extend ⟨?_, ?_⟩ ?_ ?_)
  · rw [List.map_map]
    rfl
  · intro entry member
    obtain ⟨_, _, rfl⟩ := List.mem_map.mp member
    simp
  · exact mem_symbols_nonterminals (declares_left g.start_mem) (g.left_nonterminal g.start_mem)
  · intro token single
    rw [List.mem_singleton.mp single]
    exact marked

/-- FOLLOW sets are there for the nonterminals. Besides declared tokens they may have an end
marker without payload. -/
theorem drawn_follow : g.sets.follow.Drawn (g.nonterminals.map Token.symbol) pool := by
  rw [follow_eq]
  refine Inclusion.drawn_saturate ?_ (drawn_followBase wide marked)
  intro inclusion member
  obtain ⟨occurrence, occurs, superset⟩ := superset_of_followInclusion member
  rw [superset]
  exact nonterminal_of_occurrence occurs

end Follow

theorem PlainEnd.drawn_follow (plain : g.PlainEnd) :
    g.sets.follow.Drawn (g.nonterminals.map Token.symbol) g.pool :=
  Grammar.drawn_follow (fun _ member => member)
    (mem_pool.mpr (Or.inr ⟨plain.endMarker_mem, by decide⟩))

namespace Reordered

variable (reordered : g.Reordered h)

include reordered

theorem symm : h.Reordered g :=
  ⟨reordered.tokens.symm, reordered.rules.symm, reordered.start.symm⟩

theorem pool_eq : h.pool = g.pool := by
  rw [pool, reordered.tokens, pool]

theorem plainEnd (plain : g.PlainEnd) : h.PlainEnd := by
  rw [PlainEnd, reordered.tokens]
  exact plain

theorem mem_nullable {symbol : Symbol} : symbol ∈ h.sets.nullable ↔ symbol ∈ g.sets.nullable := by
  rw [g.sets_eq, h.sets_eq]
  constructor
  · exact nullableSymbols_mono (fun _ => reordered.rules.mem_iff.mp) symbol
  · exact nullableSymbols_mono (fun _ => reordered.rules.mem_iff.mpr) symbol

theorem isNullable_eq (symbol : Symbol) :
    h.sets.isNullable symbol = g.sets.isNullable symbol := by
  simp only [FirstSets.isNullable, reordered.mem_nullable]

theorem has_baseFirst {symbol member : Symbol} (has : h.baseFirst.Has symbol member) :
    g.baseFirst.Has symbol member := by
  refine Inclusion.has_saturate_mono (firstInclusions_mono ?_ fun _ => reordered.rules.mem_iff.mp)
    g.closed_baseFirst ?_ symbol member has
  · intro other
    have same : other ∈ h.sets.nullable ↔ other ∈ g.sets.nullable := reordered.mem_nullable
    rwa [g.sets_eq, h.sets_eq] at same
  · rw [reordered.tokens]
    exact fun _ _ seed => seed

theorem first?_rel (symbol : Symbol) :
    Option.Rel List.Perm (h.first? symbol) (g.first? symbol) := by
  have within := h.within_baseFirst
  have drawn := h.drawn_baseFirst
  rw [reordered.tokens] at within drawn
  rw [reordered.pool_eq] at drawn
  have related := Family.Drawn.perm g.pool_nodup within g.within_baseFirst drawn g.drawn_baseFirst
    (fun _ _ => ⟨reordered.has_baseFirst, reordered.symm.has_baseFirst⟩) symbol
  rw [first?_eq, first?_eq]
  generalize h.baseFirst.get? symbol = own at related ⊢
  generalize g.baseFirst.get? symbol = theirs at related ⊢
  cases related with
  | none => exact Option.Rel.none
  | some perm =>
      refine Option.Rel.some ?_
      simp only [reordered.mem_nullable]
      split
      · exact TokenSet.insert_perm perm .epsilon
      · exact perm

theorem leads_iff {sequence : List Symbol} {member : Symbol} :
    h.sets.Leads sequence member ↔ g.sets.Leads sequence member := by
  have has {symbol member : Symbol} :
      h.sets.family.Has symbol member ↔ g.sets.family.Has symbol member :=
    Family.has_congr reordered.first?_rel
  simp only [FirstSets.Leads, reordered.isNullable_eq, has]

theorem leading_nullable (sequence : List Symbol) :
    (h.sets.toFirstSets.leading sequence).2 = (g.sets.toFirstSets.leading sequence).2 := by
  rw [Bool.eq_iff_iff, FirstSets.leading, FirstSets.leading, FirstSets.leadingFrom_nullable,
    FirstSets.leadingFrom_nullable]
  simp only [reordered.isNullable_eq]

theorem mem_occurrences {occurrence : Occurrence} :
    occurrence ∈ Occurrence.all h.rules ↔ occurrence ∈ Occurrence.all g.rules := by
  simp only [Occurrence.mem_all, reordered.rules.mem_iff]

theorem has_follow {symbol member : Symbol} (has : h.sets.follow.Has symbol member) :
    g.sets.follow.Has symbol member := by
  rw [follow_eq] at has
  have closed := g.closed_follow
  rw [follow_eq] at closed ⊢
  refine Inclusion.has_saturate_mono ?_ closed ?_ symbol member has
  · intro inclusion inside
    obtain ⟨occurrence, occurs, rfl⟩ := List.mem_map.mp inside
    obtain ⟨inRules, passes⟩ := List.mem_filter.mp occurs
    rw [reordered.leading_nullable] at passes
    exact List.mem_map_of_mem (List.mem_filter.mpr ⟨reordered.mem_occurrences.mp inRules, passes⟩)
  · intro other found base
    refine has_foldl_extend.mpr ?_
    rcases has_foldl_extend.mp base with seed | ⟨occurrence, occurs, same, leads⟩
    · rw [reordered.tokens, reordered.start] at seed
      exact Or.inl seed
    · exact Or.inr ⟨occurrence, reordered.mem_occurrences.mp occurs, same,
        reordered.leads_iff.mp leads⟩

theorem follow?_rel (plain : g.PlainEnd) (symbol : Symbol) :
    Option.Rel List.Perm (h.follow? symbol) (g.follow? symbol) := by
  have within := h.within_follow
  have drawn := (reordered.plainEnd plain).drawn_follow
  rw [reordered.tokens] at within
  rw [nonterminals, reordered.tokens, ← nonterminals, reordered.pool_eq] at drawn
  exact Family.Drawn.perm g.pool_nodup within g.within_follow drawn plain.drawn_follow
    (fun _ _ => ⟨reordered.has_follow, reordered.symm.has_follow⟩) symbol

end Reordered

end Grammar

end ShiftReduce
