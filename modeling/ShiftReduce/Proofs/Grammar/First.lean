import ShiftReduce.Proofs.Grammar.Derivation
import ShiftReduce.Proofs.Grammar.Families
import ShiftReduce.Proofs.Grammar.Symbols

/-! Nullable symbols and FIRST sets: they satisfy what the rules ask of them,
and they cover what the leaves of parse trees show. -/

namespace ShiftReduce

section Nullable

variable {rules : List Rule} {known : List Symbol}

/-- Whether a set of symbols has the left-hand side of each rule whose
production it covers. -/
def NullableClosed (rules : List Rule) (nullable : Symbol → Prop) : Prop :=
  ∀ rule ∈ rules, (∀ symbol ∈ rule.symbols, nullable symbol) → nullable rule.left.symbol

theorem nullablePass_cons (rule : Rule) (rest : List Rule) (known : List Symbol) :
    nullablePass (rule :: rest) known = nullablePass rest
      (if rule.left.symbol ∉ known ∧ ∀ symbol ∈ rule.symbols, symbol ∈ known then
        rule.left.symbol :: known
      else known) := rfl

theorem length_le_nullablePass (rules : List Rule) (known : List Symbol) :
    known.length ≤ (nullablePass rules known).length := by
  induction rules generalizing known with
  | nil => exact Nat.le_refl _
  | cons rule rest ih =>
      rw [nullablePass_cons]
      split
      · have later := ih (rule.left.symbol :: known)
        rw [List.length_cons] at later
        omega
      · exact ih known

theorem closed_of_length_nullablePass
    (same : (nullablePass rules known).length = known.length) :
    nullablePass rules known = known ∧ NullableClosed rules (· ∈ known) := by
  induction rules with
  | nil => exact ⟨rfl, by simp [NullableClosed]⟩
  | cons rule rest ih =>
      rw [nullablePass_cons] at same ⊢
      split at same
      · have later := length_le_nullablePass rest (rule.left.symbol :: known)
        rw [List.length_cons] at later
        omega
      · rename_i settled
        obtain ⟨fixed, closed⟩ := ih same
        rw [if_neg settled]
        refine ⟨fixed, ?_⟩
        intro other member covered
        rcases List.mem_cons.mp member with rfl | later
        · by_contra absent
          exact settled ⟨absent, covered⟩
        · exact closed other later covered

theorem nullablePass_least {nullable : Symbol → Prop} (closed : NullableClosed rules nullable)
    (seeded : ∀ symbol ∈ known, nullable symbol) :
    ∀ symbol ∈ nullablePass rules known, nullable symbol := by
  induction rules generalizing known with
  | nil => exact seeded
  | cons rule rest ih =>
      rw [nullablePass_cons]
      refine ih (fun other member => closed other (by simp [member])) ?_
      split
      · rename_i covered
        intro symbol member
        rcases List.mem_cons.mp member with rfl | old
        · exact closed rule (by simp) fun inner innerMember =>
            seeded inner (covered.2 inner innerMember)
        · exact seeded symbol old
      · exact seeded

theorem nodup_nullablePass (distinct : known.Nodup) : (nullablePass rules known).Nodup := by
  induction rules generalizing known with
  | nil => exact distinct
  | cons rule rest ih =>
      rw [nullablePass_cons]
      split
      · rename_i covered
        exact ih (List.nodup_cons.mpr ⟨covered.1, distinct⟩)
      · exact ih distinct

theorem nullableSymbols_ends (rules : List Rule) :
    Settles (nullablePass rules) List.length (rules.length + 1) [] ∧
      NullableClosed rules (· ∈ nullableSymbols rules) := by
  let lefts : List Symbol := rules.map fun rule => rule.left.symbol
  have leftsClosed : NullableClosed rules (· ∈ lefts) := by
    intro rule member _
    exact List.mem_map.mpr ⟨rule, member, rfl⟩
  obtain ⟨last, _, same, result⟩ := saturate_stable (nullablePass rules) List.length
    (fun known => known.Nodup ∧ ∀ symbol ∈ known, symbol ∈ lefts)
    rules.length
    (fun known kept => ⟨nodup_nullablePass kept.1, nullablePass_least leftsClosed kept.2⟩)
    (fun known _ => length_le_nullablePass rules known)
    (fun known kept => by
      simpa [lefts] using (List.subperm_of_subset kept.1 kept.2).length_le)
    (rules.length + 1) [] ⟨List.nodup_nil, by simp⟩ (by simp)
  obtain ⟨fixed, closed⟩ := closed_of_length_nullablePass same
  refine ⟨fun more => (result more).trans (result 0).symm, ?_⟩
  have whole : nullableSymbols rules = last := (result 0).trans fixed
  rw [whole]
  exact closed

theorem closed_nullableSymbols (rules : List Rule) :
    NullableClosed rules (· ∈ nullableSymbols rules) :=
  (nullableSymbols_ends rules).2

theorem nullableSymbols_least {nullable : Symbol → Prop} (closed : NullableClosed rules nullable) :
    ∀ symbol ∈ nullableSymbols rules, nullable symbol :=
  saturate_invariant (nullablePass rules) List.length
    (fun known => ∀ symbol ∈ known, nullable symbol)
    (fun _ => nullablePass_least closed) (rules.length + 1) [] (by simp)

end Nullable

theorem mem_throughNullable {nullable : List Symbol} {before after : List Symbol} {symbol : Symbol}
    (skipped : ∀ other ∈ before, other ∈ nullable) :
    symbol ∈ throughNullable nullable (before ++ symbol :: after) := by
  induction before with
  | nil =>
      simp only [List.nil_append, throughNullable]
      split <;> simp
  | cons head rest ih =>
      have present := skipped head (by simp)
      simp only [List.cons_append, throughNullable, present, if_true]
      exact List.mem_cons_of_mem _ (ih fun other member => skipped other (by simp [member]))

def alphabet (tokens : List Token) : List Symbol :=
  .epsilon :: tokens.map Token.symbol

theorem alphabet_square_lt_passLimit (tokens : List Token) :
    (alphabet tokens).length * (alphabet tokens).length < passLimit tokens := by
  simp [alphabet, passLimit]

section Seed

variable {tokens : List Token}

theorem mem_firstSeed {entry : Symbol × TokenSet} (member : entry ∈ firstSeed tokens) :
    entry = (.epsilon, [Token.epsilon]) ∨ ∃ token ∈ tokens, token.isEpsilon = false ∧
      entry = (token.symbol, if token.isTerminal then [token] else []) := by
  rcases List.mem_append.mp member with declared | only
  · obtain ⟨token, inside, rfl⟩ := List.mem_map.mp declared
    obtain ⟨tokenMember, plain⟩ := List.mem_filter.mp inside
    exact Or.inr ⟨token, tokenMember, by simpa using plain, rfl⟩
  · exact Or.inl (List.mem_singleton.mp only)

theorem firstSeed_keys_nodup (distinct : (tokens.map Token.symbol).Nodup) :
    ((firstSeed tokens).map Prod.fst).Nodup := by
  have plain : ((tokens.filter (!·.isEpsilon)).map Token.symbol).Nodup :=
    distinct.sublist (List.filter_sublist.map _)
  simp only [firstSeed, List.map_append, List.map_map, List.map_cons, List.map_nil,
    Function.comp_def]
  refine List.nodup_append.mpr ⟨plain, by simp, ?_⟩
  intro symbol member other only same
  obtain ⟨token, inside, rfl⟩ := List.mem_map.mp member
  have notEpsilon := (List.mem_filter.mp inside).2
  rw [List.mem_singleton.mp only] at same
  simp [Token.isEpsilon, same] at notEpsilon

theorem within_firstSeed (distinct : (tokens.map Token.symbol).Nodup) :
    (firstSeed tokens).Within (alphabet tokens) := by
  have known {token : Token} (member : token ∈ tokens) : token.symbol ∈ alphabet tokens :=
    List.mem_cons_of_mem _ (List.mem_map_of_mem member)
  refine ⟨firstSeed_keys_nodup distinct, ?_, ?_, ?_⟩
  · intro symbol member
    obtain ⟨entry, inside, rfl⟩ := List.mem_map.mp member
    rcases mem_firstSeed inside with rfl | ⟨token, tokenMember, _, rfl⟩
    · exact List.mem_cons_self
    · exact known tokenMember
  · intro entry member
    rcases mem_firstSeed member with rfl | ⟨token, _, _, rfl⟩
    · simp
    · dsimp only
      split <;> simp
  · intro entry member other inside
    rcases mem_firstSeed member with rfl | ⟨token, tokenMember, _, rfl⟩
    · rw [List.mem_singleton.mp inside]
      exact List.mem_cons_self
    · dsimp only at inside
      split at inside
      · rw [List.mem_singleton.mp inside]
        exact known tokenMember
      · cases inside

theorem has_firstSeed {symbol member : Symbol} (has : (firstSeed tokens).Has symbol member) :
    symbol = member ∧ member.isTerminal = true ∧ member ∈ alphabet tokens := by
  obtain ⟨set, found, inside⟩ := has
  obtain ⟨entry, entryFound, rfl⟩ := Option.map_eq_some_iff.mp found
  obtain ⟨entryMember, rfl⟩ := Keyed.find?_some entryFound
  rcases mem_firstSeed entryMember with rfl | ⟨token, tokenMember, _, rfl⟩
  · have same : member = .epsilon := by simpa [Token.epsilon] using inside
    exact ⟨same.symm, by rw [same]; rfl, by simp [same, alphabet]⟩
  · dsimp only at inside
    split at inside
    · rename_i terminal
      have same : member = token.symbol := by simpa using inside
      refine ⟨same.symm, ?_, ?_⟩
      · rw [same]
        exact terminal
      · rw [same]
        exact List.mem_cons_of_mem _ (List.mem_map_of_mem tokenMember)
    · cases inside

theorem firstSeed_self (distinct : (tokens.map Token.symbol).Nodup) {token : Token}
    (member : token ∈ tokens) (terminal : token.isTerminal = true)
    (plain : token.isEpsilon = false) : (firstSeed tokens).Has token.symbol token.symbol := by
  have entry : (token.symbol, [token]) ∈ firstSeed tokens := by
    refine List.mem_append_left _ (List.mem_map.mpr ⟨token, ?_, by simp [terminal]⟩)
    exact List.mem_filter.mpr ⟨member, by simp [plain]⟩
  have found := Keyed.find?_mem (firstSeed_keys_nodup distinct) entry
  exact ⟨[token], by simp only [Family.get?]; rw [found]; rfl, by simp⟩

end Seed

theorem Family.get?_map (family : Family) (update : Symbol → TokenSet → TokenSet)
    (symbol : Symbol) :
    Family.get? (family.map fun entry => (entry.1, update entry.1 entry.2)) symbol =
      (family.get? symbol).map (update symbol) := by
  induction family with
  | nil => rfl
  | cons entry rest ih =>
      simp only [get?, Keyed.find?] at ih ⊢
      by_cases here : entry.1 = symbol
      · simp [here]
      · simp only [List.map_cons, List.find?_cons, here, decide_false]
        exact ih

theorem has_firstFamily {nullable : List Symbol} {tokens : List Token} {rules : List Rule}
    {symbol member : Symbol} (proper : member ≠ .epsilon) :
    (firstFamily nullable tokens rules).Has symbol member ↔
      (saturate (Inclusion.pass (firstInclusions nullable rules)) Family.size (passLimit tokens)
        (firstSeed tokens)).Has symbol member := by
  rw [firstFamily, Family.has_iff_getD, Family.has_iff_getD]
  have mapped := Family.get?_map (saturate (Inclusion.pass (firstInclusions nullable rules))
    Family.size (passLimit tokens) (firstSeed tokens))
    (fun symbol set => if symbol ∈ nullable then TokenSet.insert set .epsilon else set) symbol
  rw [mapped]
  cases Family.get? (saturate (Inclusion.pass (firstInclusions nullable rules)) Family.size
    (passLimit tokens) (firstSeed tokens)) symbol with
  | none => rfl
  | some set =>
      simp only [Option.map_some, Option.getD_some]
      split
      · rw [TokenSet.insert, Keyed.mem_map_insert]
        constructor
        · rintro (added | old)
          · exact absurd added proper
          · exact old
        · exact Or.inr
      · rfl

namespace FirstSets

variable (sets : FirstSets)

/-- A symbol can begin a sequence if only nullable symbols precede one that it can begin. -/
def Leads (sequence : List Symbol) (member : Symbol) : Prop :=
  ∃ before symbol after, sequence = before ++ symbol :: after ∧
    (∀ other ∈ before, sets.isNullable other = true) ∧ sets.family.Has symbol member ∧
    member ≠ .epsilon

variable {sets}

theorem Leads.append {sequence : List Symbol} {member : Symbol}
    (leads : sets.Leads sequence member) (more : List Symbol) :
    sets.Leads (sequence ++ more) member := by
  obtain ⟨before, symbol, after, rfl, skipped, has, proper⟩ := leads
  exact ⟨before, symbol, after ++ more, by simp, skipped, has, proper⟩

theorem leads_cons {symbol member : Symbol} {rest : List Symbol} :
    sets.Leads (symbol :: rest) member ↔
      sets.family.Has symbol member ∧ member ≠ .epsilon ∨
        sets.isNullable symbol = true ∧ sets.Leads rest member := by
  constructor
  · rintro ⟨before, found, after, split, skipped, has, proper⟩
    cases before with
    | nil =>
        obtain ⟨rfl, rfl⟩ := List.cons.inj split
        exact Or.inl ⟨has, proper⟩
    | cons head others =>
        obtain ⟨rfl, rfl⟩ := List.cons.inj split
        refine Or.inr ⟨skipped symbol (by simp), others, found, after, rfl, ?_, has, proper⟩
        exact fun other inside => skipped other (by simp [inside])
  · rintro (⟨has, proper⟩ | ⟨nullable, before, found, after, rfl, skipped, has, proper⟩)
    · exact ⟨[], symbol, rest, rfl, by simp, has, proper⟩
    · refine ⟨symbol :: before, found, after, rfl, ?_, has, proper⟩
      intro other inside
      rcases List.mem_cons.mp inside with rfl | later
      · exact nullable
      · exact skipped other later

theorem mem_leadingFrom {found : TokenSet} {sequence : List Symbol} {member : Symbol} :
    member ∈ (sets.leadingFrom found sequence).1.map Token.symbol ↔
      member ∈ found.map Token.symbol ∨ sets.Leads sequence member := by
  induction sequence generalizing found with
  | nil =>
      have nothing : ¬ sets.Leads [] member := by
        rintro ⟨before, symbol, after, split, _⟩
        simp at split
      simp [leadingFrom, nothing]
  | cons symbol rest ih =>
      have here : member ∈ (((sets.first? symbol).getD []).filter (!·.isEpsilon)).map Token.symbol ↔
          sets.family.Has symbol member ∧ member ≠ .epsilon := by
        rw [Family.has_iff_getD]
        simp only [List.mem_map, List.mem_filter, first?]
        constructor
        · rintro ⟨token, ⟨inside, plain⟩, rfl⟩
          exact ⟨⟨token, inside, rfl⟩, by simpa [Token.isEpsilon] using plain⟩
        · rintro ⟨⟨token, inside, rfl⟩, proper⟩
          exact ⟨token, ⟨inside, by simpa [Token.isEpsilon] using proper⟩, rfl⟩
      rw [leads_cons, leadingFrom]
      split
      · rename_i nullable
        rw [ih, TokenSet.mem_symbols_union, here]
        tauto
      · rename_i solid
        rw [TokenSet.mem_symbols_union, here]
        tauto

theorem leadingFrom_nullable {found : TokenSet} {sequence : List Symbol} :
    (sets.leadingFrom found sequence).2 = true ↔
      ∀ symbol ∈ sequence, sets.isNullable symbol = true := by
  induction sequence generalizing found with
  | nil => simp [leadingFrom]
  | cons symbol rest ih =>
      rw [leadingFrom]
      split
      · rename_i nullable
        rw [ih]
        simp [nullable]
      · rename_i solid
        simp [solid]

theorem mem_firstOf {sequence : List Symbol} {next member : Symbol} (proper : member ≠ .epsilon) :
    member ∈ (sets.firstOf sequence next).map Token.symbol ↔
      sets.Leads (sequence ++ [next]) member := by
  have leading : member ∈ (sets.leadingFrom [] (sequence ++ [next])).1.map Token.symbol ↔
      sets.Leads (sequence ++ [next]) member := by
    rw [mem_leadingFrom]
    simp
  rw [firstOf, FirstSets.leading, ← leading]
  split
  · rename_i found result
    rw [result, TokenSet.insert, Keyed.mem_map_insert]
    constructor
    · rintro (added | old)
      · exact absurd added proper
      · exact old
    · exact Or.inr
  · rename_i found result
    rw [result]

end FirstSets

namespace Grammar

variable {g : Grammar}

def First (g : Grammar) (symbol member : Symbol) : Prop :=
  g.sets.family.Has symbol member

theorem nullable_of_rule {rule : Rule} (member : rule ∈ g.rules)
    (covered : ∀ symbol ∈ rule.symbols, symbol ∈ g.sets.nullable) :
    rule.left.symbol ∈ g.sets.nullable := by
  rw [g.sets_eq] at covered ⊢
  exact closed_nullableSymbols g.rules rule member covered

/-- FIRST sets before ε is added to those of nullable symbols. -/
def baseFirst (g : Grammar) : Family :=
  saturate (Inclusion.pass (firstInclusions (nullableSymbols g.rules) g.rules)) Family.size
    (passLimit g.tokens) (firstSeed g.tokens)

theorem first_iff_base {symbol member : Symbol} (proper : member ≠ .epsilon) :
    g.First symbol member ↔ g.baseFirst.Has symbol member := by
  rw [First, g.sets_eq]
  exact has_firstFamily proper

theorem superset_of_firstInclusion {inclusion : Inclusion}
    (member : inclusion ∈ firstInclusions (nullableSymbols g.rules) g.rules) :
    ∃ rule ∈ g.rules, inclusion.superset = rule.left.symbol := by
  obtain ⟨rule, ruleMember, inside⟩ := List.mem_flatMap.mp member
  obtain ⟨_, _, rfl⟩ := List.mem_map.mp inside
  exact ⟨rule, ruleMember, rfl⟩

theorem firstInclusion_mem_alphabet {inclusion : Inclusion}
    (member : inclusion ∈ firstInclusions (nullableSymbols g.rules) g.rules) :
    inclusion.superset ∈ alphabet g.tokens := by
  obtain ⟨rule, ruleMember, left⟩ := superset_of_firstInclusion member
  rw [left]
  exact List.mem_cons_of_mem _ (declares_left ruleMember).1

theorem within_baseFirst (g : Grammar) : g.baseFirst.Within (alphabet g.tokens) :=
  Inclusion.within_saturate (fun _ => firstInclusion_mem_alphabet) (within_firstSeed g.symbols_nodup)

theorem baseFirst_ends (g : Grammar) :
    Settles (Inclusion.pass (firstInclusions (nullableSymbols g.rules) g.rules)) Family.size
        (passLimit g.tokens) (firstSeed g.tokens) ∧
      Inclusion.Closed (firstInclusions (nullableSymbols g.rules) g.rules) g.baseFirst.Has :=
  Inclusion.saturate_ends (fun _ => firstInclusion_mem_alphabet) (within_firstSeed g.symbols_nodup)
    (alphabet_square_lt_passLimit g.tokens)

theorem closed_baseFirst (g : Grammar) :
    Inclusion.Closed (firstInclusions (nullableSymbols g.rules) g.rules) g.baseFirst.Has :=
  g.baseFirst_ends.2

theorem first_self {symbol : Symbol} (declared : g.Declares symbol)
    (terminal : symbol.isTerminal = true) : g.First symbol symbol := by
  obtain ⟨token, member, rfl⟩ := List.mem_map.mp declared.1
  rw [first_iff_base declared.2]
  apply Inclusion.has_saturate_of_has
  exact firstSeed_self g.symbols_nodup member terminal
    (by simpa [Token.isEpsilon] using declared.2)

theorem first_of_rule {rule : Rule} {before after : List Symbol} {symbol member : Symbol}
    (ruleMember : rule ∈ g.rules) (split : rule.symbols = before ++ symbol :: after)
    (skipped : ∀ other ∈ before, other ∈ g.sets.nullable) (first : g.First symbol member)
    (proper : member ≠ .epsilon) : g.First rule.left.symbol member := by
  by_cases same : symbol = rule.left.symbol
  · exact same ▸ first
  · rw [first_iff_base proper] at first ⊢
    rw [g.sets_eq] at skipped
    have inclusion : ⟨rule.left.symbol, symbol⟩ ∈
        firstInclusions (nullableSymbols g.rules) g.rules := by
      refine List.mem_flatMap.mpr ⟨rule, ruleMember, List.mem_map.mpr ⟨symbol, ?_, rfl⟩⟩
      refine List.mem_filter.mpr ⟨?_, by simpa using same⟩
      rw [split]
      exact mem_throughNullable skipped
    exact g.closed_baseFirst _ inclusion member first

theorem terminal_of_first {symbol member : Symbol} (first : g.First symbol member)
    (proper : member ≠ .epsilon) : member.isTerminal = true ∧ g.Declares member := by
  rw [first_iff_base proper] at first
  have seeded : ∀ symbol member, (firstSeed g.tokens).Has symbol member →
      member.isTerminal = true ∧ member ∈ alphabet g.tokens :=
    fun _ _ has => (has_firstSeed has).2
  have closed : Inclusion.Closed (firstInclusions (nullableSymbols g.rules) g.rules)
      fun _ member => member.isTerminal = true ∧ member ∈ alphabet g.tokens :=
    fun _ _ _ holds => holds
  have found := Inclusion.has_saturate_least closed seeded symbol member first
  refine ⟨found.1, ?_, proper⟩
  rcases List.mem_cons.mp found.2 with same | declared
  · exact absurd same proper
  · exact declared

theorem nullable_of_yield {tree : Tree} (valid : tree.Valid g) (empty : tree.yield = []) :
    tree.root.symbol ∈ g.sets.nullable := by
  induction valid with
  | leaf token => cases empty
  | node member matched _ ih =>
      apply nullable_of_rule member
      intro symbol inside
      rw [← matched] at inside
      obtain ⟨child, childMember, rfl⟩ := List.mem_map.mp inside
      exact ih child childMember (Tree.yields_eq_nil empty child childMember)

theorem nullable_of_yields {trees : List Tree} (valid : ∀ tree ∈ trees, tree.Valid g)
    (empty : Tree.yields trees = []) :
    ∀ symbol ∈ trees.map (·.root.symbol), symbol ∈ g.sets.nullable := by
  intro symbol inside
  obtain ⟨tree, member, rfl⟩ := List.mem_map.mp inside
  exact nullable_of_yield (valid tree member) (Tree.yields_eq_nil empty tree member)

theorem first_of_yield {tree : Tree} {token : Token} {rest : List Token} (valid : tree.Valid g)
    (leaves : tree.yield = token :: rest) (declared : g.Declares token.symbol)
    (terminal : token.isTerminal = true) : g.First tree.root.symbol token.symbol := by
  induction valid generalizing rest with
  | leaf only =>
      obtain ⟨rfl, _⟩ := List.cons.inj leaves
      exact first_self declared terminal
  | @node rule children member matched childrenValid ih =>
      obtain ⟨before, child, after, more, rfl, empty, leading⟩ := Tree.yields_eq_cons leaves
      have first := ih child (by simp) leading
      have skipped := nullable_of_yields (fun tree inside => childrenValid tree (by simp [inside]))
        empty
      rw [List.map_append, List.map_cons] at matched
      exact first_of_rule member matched.symm skipped first declared.2

theorem isNullable_of_mem {symbol : Symbol} (member : symbol ∈ g.sets.nullable) :
    g.sets.isNullable symbol = true := by
  simp [FirstSets.isNullable, member]

theorem Derives.declares {form derived : List Symbol} (derives : g.Derives form derived)
    (declared : ∀ symbol ∈ form, g.Declares symbol) : ∀ symbol ∈ derived, g.Declares symbol :=
  derives.preserves g.Declares
    (fun _ member _ _ inside => declares_of_mem_symbols member inside) declared

theorem leads_of_yields {trees : List Tree} {token : Token} {rest : List Token}
    (valid : ∀ tree ∈ trees, tree.Valid g) (leaves : Tree.yields trees = token :: rest)
    (declared : g.Declares token.symbol) (terminal : token.isTerminal = true) :
    g.sets.Leads (trees.map (·.root.symbol)) token.symbol := by
  obtain ⟨before, tree, after, more, rfl, empty, leading⟩ := Tree.yields_eq_cons leaves
  refine ⟨before.map (·.root.symbol), tree.root.symbol, after.map (·.root.symbol), by simp, ?_, ?_,
    declared.2⟩
  · intro symbol inside
    exact isNullable_of_mem (nullable_of_yields
      (fun other member => valid other (by simp [member])) empty symbol inside)
  · exact first_of_yield (valid tree (by simp)) leading declared terminal

/-- The leaves of a forest and a symbol after them begin with what can begin the
sequence of its roots, or else all of these are nullable. -/
theorem leads_or_nullable {trees : List Tree} (valid : ∀ tree ∈ trees, tree.Valid g)
    (declared : ∀ root ∈ trees.map (·.root.symbol), g.Declares root)
    (terminals : ∀ token ∈ Tree.yields trees, token.isTerminal = true) (symbol : Symbol) :
    ∃ look, ((Tree.yields trees).map Token.symbol ++ [symbol]).head? = some look ∧
      (g.sets.Leads (trees.map (·.root.symbol)) look ∨
        (∀ root ∈ trees.map (·.root.symbol), g.sets.isNullable root = true) ∧ look = symbol) := by
  cases leaves : Tree.yields trees with
  | nil =>
      refine ⟨symbol, rfl, Or.inr ⟨?_, rfl⟩⟩
      exact fun root inside => isNullable_of_mem (nullable_of_yields valid leaves root inside)
  | cons token rest =>
      have derives := derives_yields fun tree member => derives_yield (valid tree member)
      have tokenDeclared := derives.declares declared token.symbol (by simp [leaves])
      exact ⟨token.symbol, rfl, Or.inl (leads_of_yields valid leaves tokenDeclared
        (terminals token (by simp [leaves])))⟩

end Grammar

end ShiftReduce
