import ShiftReduce.Proofs.Grammar.Sentences

/-! FIRST sets hold no more than derivations show: nullable symbols derive the empty
string, and a terminal in a FIRST set begins a form that its symbol derives. In a
productive grammar it begins a terminal string. -/

namespace ShiftReduce

theorem split_of_mem_throughNullable {nullable sequence : List Symbol} {symbol : Symbol}
    (member : symbol ∈ throughNullable nullable sequence) :
    ∃ before after, sequence = before ++ symbol :: after ∧ ∀ other ∈ before, other ∈ nullable := by
  induction sequence with
  | nil => cases member
  | cons head rest ih =>
      rw [throughNullable] at member
      by_cases skipped : head ∈ nullable
      · rw [if_pos skipped] at member
        rcases List.mem_cons.mp member with rfl | later
        · exact ⟨[], rest, rfl, by simp⟩
        · obtain ⟨before, after, rfl, all⟩ := ih later
          exact ⟨head :: before, after, rfl, by simpa [skipped] using all⟩
      · rw [if_neg skipped] at member
        rw [List.mem_singleton.mp member]
        exact ⟨[], rest, rfl, by simp⟩

namespace Grammar

variable {g : Grammar} {symbol member : Symbol}

theorem derives_nil_of_all {symbols : List Symbol}
    (empty : ∀ symbol ∈ symbols, g.Derives [symbol] []) : g.Derives symbols [] := by
  induction symbols with
  | nil => exact Derives.refl _
  | cons symbol rest ih =>
      have tail := ih fun other inside => empty other (by simp [inside])
      exact (empty symbol (by simp)).append tail

theorem derives_nil_of_nullable (nullable : symbol ∈ g.sets.nullable) : g.Derives [symbol] [] := by
  have closed : NullableClosed g.rules fun other => g.Derives [other] [] := by
    intro rule ruleMember covered
    exact (Derives.rule ruleMember).trans (derives_nil_of_all covered)
  rw [g.sets_eq] at nullable
  exact nullableSymbols_least closed symbol nullable

theorem mem_nullable_of_isNullable (declared : g.Declares symbol)
    (nullable : g.sets.isNullable symbol = true) : symbol ∈ g.sets.nullable := by
  rcases of_decide_eq_true nullable with empty | found
  · exact absurd empty declared.2
  · exact found

theorem derives_of_first (first : g.First symbol member) (proper : member ≠ .epsilon) :
    ∃ rest, g.Derives [symbol] (member :: rest) := by
  have closed : Inclusion.Closed (firstInclusions (nullableSymbols g.rules) g.rules)
      fun symbol member => ∃ rest, g.Derives [symbol] (member :: rest) := by
    rintro inclusion inclusionMember other ⟨rest, derives⟩
    obtain ⟨rule, ruleMember, inside⟩ := List.mem_flatMap.mp inclusionMember
    obtain ⟨source, sourceMember, rfl⟩ := List.mem_map.mp inside
    obtain ⟨before, after, split, skipped⟩ :=
      split_of_mem_throughNullable (List.mem_filter.mp sourceMember).1
    have front : g.Derives before [] := by
      apply derives_nil_of_all
      intro symbol symbolMember
      apply derives_nil_of_nullable
      rw [g.sets_eq]
      exact skipped symbol symbolMember
    have applied := Derives.rule ruleMember
    rw [split] at applied
    exact ⟨rest ++ after, applied.trans (front.append (derives.append (Derives.refl after)))⟩
  have seeded : ∀ symbol member, (firstSeed g.tokens).Has symbol member →
      ∃ rest, g.Derives [symbol] (member :: rest) := by
    intro symbol member seed
    obtain ⟨rfl, _, _⟩ := has_firstSeed seed
    exact ⟨[], Derives.refl _⟩
  rw [first_iff_base proper] at first
  exact Inclusion.has_saturate_least closed seeded symbol member first

theorem Derives.eq_of_terminals {form derived : List Symbol} (derives : g.Derives form derived)
    (terminals : ∀ symbol ∈ form, symbol.isTerminal = true) : derived = form := by
  induction derives with
  | refl => rfl
  | tail _ step ih =>
      cases step with
      | @rewrite rule before after ruleMember =>
          have terminal := terminals rule.left.symbol (by simp [← ih])
          rw [g.left_nonterminal ruleMember] at terminal
          cases terminal

theorem eq_of_first_terminal (first : g.First symbol member) (proper : member ≠ .epsilon)
    (terminal : symbol.isTerminal = true) : member = symbol := by
  obtain ⟨rest, derives⟩ := derives_of_first first proper
  have same := derives.eq_of_terminals (by simpa using terminal)
  exact (List.cons.inj same).1

theorem leads_append_terminal {sequence : List Symbol} {look : Symbol}
    (terminal : look.isTerminal = true) (leads : g.sets.Leads (sequence ++ [look]) member) :
    g.sets.Leads sequence member ∨
      (∀ symbol ∈ sequence, g.sets.isNullable symbol = true) ∧ member = look := by
  obtain ⟨before, symbol, after, split, skipped, first, proper⟩ := leads
  rcases List.eq_nil_or_concat after with rfl | ⟨more, last, rfl⟩
  · obtain ⟨rfl, single⟩ := List.append_inj' split rfl
    cases single
    exact Or.inr ⟨skipped, eq_of_first_terminal first proper terminal⟩
  · rw [List.concat_eq_append, ← List.cons_append, ← List.append_assoc] at split
    obtain ⟨rfl, _⟩ := List.append_inj' split rfl
    exact Or.inl ⟨before, symbol, more, rfl, skipped, first, proper⟩

theorem Productive.derives_of_leads (productive : g.Productive) {sequence : List Symbol}
    {look : Symbol} (declared : ∀ symbol ∈ sequence, g.Declares symbol)
    (terminal : look.isTerminal = true) (leads : g.sets.Leads (sequence ++ [look]) member) :
    ∃ word, g.Derives sequence word ∧ (∀ symbol ∈ word, symbol.isTerminal = true) ∧
      (word ++ [look]).head? = some member := by
  induction sequence with
  | nil =>
      rcases FirstSets.leads_cons.mp leads with ⟨first, proper⟩ | ⟨_, _, _, _, split, _⟩
      · exact ⟨[], Derives.refl _, by simp, by rw [eq_of_first_terminal first proper terminal]; rfl⟩
      · simp at split
  | cons symbol rest ih =>
      have here := declared symbol (by simp)
      have later := fun other inside => declared other (List.mem_cons_of_mem symbol inside)
      rcases FirstSets.leads_cons.mp leads with ⟨first, proper⟩ | ⟨nullable, leads⟩
      · obtain ⟨more, derives⟩ := derives_of_first first proper
        have form : g.Derives (symbol :: rest) (member :: more ++ rest) :=
          derives.append (Derives.refl rest)
        have known := form.declares declared
        obtain ⟨word, wordDerived, terminals⟩ := productive.derives fun other inside =>
          known other (List.mem_cons_of_mem member inside)
        have kind := (terminal_of_first first proper).1
        refine ⟨member :: word, form.trans ((Derives.refl [member]).append wordDerived), ?_, rfl⟩
        simpa [kind] using terminals
      · obtain ⟨word, derives, terminals, head⟩ := ih later leads
        have front := derives_nil_of_nullable (mem_nullable_of_isNullable here nullable)
        exact ⟨word, front.append derives, terminals, head⟩

end Grammar

end ShiftReduce
