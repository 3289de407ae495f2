import ShiftReduce.Proofs.Grammar.First

/-! FOLLOW sets: what they contain by the rules, and that they consist of
declared terminals. -/

namespace ShiftReduce

namespace Occurrence

theorem mem_inSequence {left : Symbol} {symbols : List Symbol} {occurrence : Occurrence} :
    occurrence ∈ inSequence left symbols ↔ occurrence.left = left ∧
      occurrence.symbol.isTerminal = false ∧
      ∃ before, symbols = before ++ occurrence.symbol :: occurrence.after := by
  induction symbols with
  | nil => simp [inSequence]
  | cons symbol rest ih =>
      have later : (∃ before, symbol :: rest = before ++ occurrence.symbol :: occurrence.after) ↔
          symbol = occurrence.symbol ∧ rest = occurrence.after ∨
            ∃ before, rest = before ++ occurrence.symbol :: occurrence.after := by
        constructor
        · rintro ⟨before, split⟩
          cases before with
          | nil => exact Or.inl (List.cons.inj split)
          | cons head others => exact Or.inr ⟨others, (List.cons.inj split).2⟩
        · rintro (⟨rfl, rfl⟩ | ⟨before, rfl⟩)
          · exact ⟨[], rfl⟩
          · exact ⟨symbol :: before, rfl⟩
      rw [inSequence, later]
      split
      · rename_i terminal
        rw [ih]
        constructor
        · rintro ⟨sameLeft, nonterminal, split⟩
          exact ⟨sameLeft, nonterminal, Or.inr split⟩
        · rintro ⟨sameLeft, nonterminal, here | split⟩
          · rw [← here.1, terminal] at nonterminal
            cases nonterminal
          · exact ⟨sameLeft, nonterminal, split⟩
      · rename_i nonterminal
        rw [List.mem_cons, ih]
        constructor
        · rintro (rfl | ⟨sameLeft, kind, split⟩)
          · exact ⟨rfl, by simpa using nonterminal, Or.inl ⟨rfl, rfl⟩⟩
          · exact ⟨sameLeft, kind, Or.inr split⟩
        · rintro ⟨sameLeft, kind, here | split⟩
          · left
            cases occurrence
            simp_all
          · exact Or.inr ⟨sameLeft, kind, split⟩

theorem mem_all {rules : List Rule} {occurrence : Occurrence} :
    occurrence ∈ all rules ↔ ∃ rule ∈ rules, occurrence.left = rule.left.symbol ∧
      occurrence.symbol.isTerminal = false ∧
      ∃ before, rule.symbols = before ++ occurrence.symbol :: occurrence.after := by
  simp only [all, List.mem_flatMap, mem_inSequence]

end Occurrence

section Base

variable {firsts : FirstSets} {tokens : List Token} {family : Family}

theorem has_foldl_extend {occurrences : List Occurrence} {symbol member : Symbol} :
    (occurrences.foldl (fun family occurrence =>
        family.extend occurrence.symbol (firsts.leading occurrence.after).1) family).Has
          symbol member ↔
      family.Has symbol member ∨ ∃ occurrence ∈ occurrences, symbol = occurrence.symbol ∧
        firsts.Leads occurrence.after member := by
  induction occurrences generalizing family with
  | nil => simp
  | cons occurrence rest ih =>
      have leading : member ∈ (firsts.leading occurrence.after).1.map Token.symbol ↔
          firsts.Leads occurrence.after member := by
        rw [FirstSets.leading, FirstSets.mem_leadingFrom]
        simp
      rw [List.foldl_cons, ih, Family.has_extend, leading]
      simp only [List.mem_cons, exists_eq_or_imp, or_assoc]

theorem within_foldl_extend {occurrences : List Occurrence} {letters : List Symbol}
    (inside : ∀ occurrence ∈ occurrences, occurrence.symbol ∈ letters)
    (leading : ∀ occurrence ∈ occurrences, ∀ member,
      firsts.Leads occurrence.after member → member ∈ letters)
    (within : family.Within letters) :
    (occurrences.foldl (fun family occurrence =>
      family.extend occurrence.symbol (firsts.leading occurrence.after).1) family).Within
        letters := by
  induction occurrences generalizing family with
  | nil => exact within
  | cons occurrence rest ih =>
      apply ih (fun other member => inside other (by simp [member]))
        (fun other member => leading other (by simp [member]))
      refine within.extend (inside occurrence (by simp)) ?_
      intro token member
      have found : token.symbol ∈ (firsts.leading occurrence.after).1.map Token.symbol :=
        List.mem_map_of_mem member
      rw [FirstSets.leading, FirstSets.mem_leadingFrom] at found
      exact leading occurrence (by simp) token.symbol (by simpa using found)

theorem drawn_foldl_extend {occurrences : List Occurrence} {keys : List Symbol} {pool : List Token}
    (inside : ∀ occurrence ∈ occurrences, occurrence.symbol ∈ keys)
    (leading : ∀ occurrence ∈ occurrences, ∀ token ∈ (firsts.leading occurrence.after).1,
      token ∈ pool) (drawn : family.Drawn keys pool) :
    (occurrences.foldl (fun family occurrence =>
      family.extend occurrence.symbol (firsts.leading occurrence.after).1) family).Drawn
        keys pool := by
  induction occurrences generalizing family with
  | nil => exact drawn
  | cons occurrence rest ih =>
      exact ih (fun other member => inside other (by simp [member]))
        (fun other member => leading other (by simp [member]))
        (drawn.extend (inside occurrence (by simp)) (leading occurrence (by simp)))

theorem has_followSeed {start : Rule} {symbol member : Symbol} :
    (followSeed tokens start).Has symbol member ↔
      symbol = start.left.symbol ∧ member = .endMarker := by
  have empty : ¬ Family.Has ((tokens.filter (!·.isTerminal)).map fun token => (token.symbol, []))
      symbol member := by
    rintro ⟨set, found, inside⟩
    obtain ⟨entry, entryFound, rfl⟩ := Option.map_eq_some_iff.mp found
    obtain ⟨token, _, rfl⟩ := List.mem_map.mp (Keyed.find?_some entryFound).1
    cases inside
  rw [followSeed, Family.has_extend]
  simp [empty, Token.endMarker]

end Base

namespace Grammar

variable {g : Grammar}

def Follow (g : Grammar) (nonterminal member : Symbol) : Prop :=
  g.sets.follow.Has nonterminal member

theorem terminal_of_leads {sequence : List Symbol} {member : Symbol}
    (leads : g.sets.Leads sequence member) : member.isTerminal = true ∧ g.Declares member := by
  obtain ⟨_, symbol, _, _, _, first, proper⟩ := leads
  exact terminal_of_first first proper

theorem declares_of_occurrence {occurrence : Occurrence}
    (member : occurrence ∈ Occurrence.all g.rules) : g.Declares occurrence.symbol := by
  obtain ⟨rule, ruleMember, _, _, before, split⟩ := Occurrence.mem_all.mp member
  exact declares_of_mem_symbols ruleMember (by rw [split]; simp)

theorem mem_symbols_nonterminals {symbol : Symbol} (declared : g.Declares symbol)
    (kind : symbol.isTerminal = false) : symbol ∈ g.nonterminals.map Token.symbol := by
  obtain ⟨token, member, rfl⟩ := List.mem_map.mp declared.1
  refine List.mem_map_of_mem (List.mem_filter.mpr ⟨member, ?_⟩)
  simpa [Token.isTerminal] using kind

theorem nonterminal_of_occurrence {occurrence : Occurrence}
    (member : occurrence ∈ Occurrence.all g.rules) :
    occurrence.symbol ∈ g.nonterminals.map Token.symbol := by
  obtain ⟨_, _, _, kind, _⟩ := Occurrence.mem_all.mp member
  exact mem_symbols_nonterminals (declares_of_occurrence member) kind

theorem follow_eq (g : Grammar) :
    g.sets.follow = saturate (Inclusion.pass (followInclusions g.sets.toFirstSets g.rules))
      Family.size (passLimit g.tokens)
      (followBase g.sets.toFirstSets g.tokens g.rules g.start) := by
  rw [g.sets_eq]
  rfl

theorem within_followBase (g : Grammar) :
    (followBase g.sets.toFirstSets g.tokens g.rules g.start).Within (alphabet g.tokens) := by
  have declared {symbol : Symbol} (declares : g.Declares symbol) : symbol ∈ alphabet g.tokens :=
    List.mem_cons_of_mem _ declares.1
  apply within_foldl_extend
  · exact fun occurrence member => declared (declares_of_occurrence member)
  · exact fun _ _ _ leads => declared (terminal_of_leads leads).2
  · refine Family.Within.extend ⟨?_, ?_, ?_, ?_⟩ (declared (declares_left g.start_mem)) ?_
    · rw [List.map_map]
      exact g.symbols_nodup.sublist (List.filter_sublist.map _)
    · intro symbol member
      rw [List.map_map] at member
      obtain ⟨token, inside, rfl⟩ := List.mem_map.mp member
      exact List.mem_cons_of_mem _ (List.mem_map_of_mem (List.mem_filter.mp inside).1)
    · intro entry member
      obtain ⟨token, _, rfl⟩ := List.mem_map.mp member
      exact List.nodup_nil
    · intro entry member
      obtain ⟨token, _, rfl⟩ := List.mem_map.mp member
      simp
    · intro token member
      rw [List.mem_singleton.mp member]
      exact declared g.declares_endMarker

theorem superset_of_followInclusion {inclusion : Inclusion}
    (member : inclusion ∈ followInclusions g.sets.toFirstSets g.rules) :
    ∃ occurrence ∈ Occurrence.all g.rules, inclusion.superset = occurrence.symbol := by
  obtain ⟨occurrence, inside, rfl⟩ := List.mem_map.mp member
  exact ⟨occurrence, (List.mem_filter.mp inside).1, rfl⟩

theorem followInclusion_mem_alphabet {inclusion : Inclusion}
    (member : inclusion ∈ followInclusions g.sets.toFirstSets g.rules) :
    inclusion.superset ∈ alphabet g.tokens := by
  obtain ⟨occurrence, occurs, superset⟩ := superset_of_followInclusion member
  rw [superset]
  exact List.mem_cons_of_mem _ (declares_of_occurrence occurs).1

theorem within_follow (g : Grammar) : g.sets.follow.Within (alphabet g.tokens) := by
  rw [follow_eq]
  exact Inclusion.within_saturate (fun _ => followInclusion_mem_alphabet) g.within_followBase

theorem follow_ends (g : Grammar) :
    Settles (Inclusion.pass (followInclusions g.sets.toFirstSets g.rules)) Family.size
        (passLimit g.tokens) (followBase g.sets.toFirstSets g.tokens g.rules g.start) ∧
      Inclusion.Closed (followInclusions g.sets.toFirstSets g.rules) g.sets.follow.Has := by
  rw [follow_eq]
  exact Inclusion.saturate_ends (fun _ => followInclusion_mem_alphabet) g.within_followBase
    (alphabet_square_lt_passLimit g.tokens)

theorem closed_follow (g : Grammar) :
    Inclusion.Closed (followInclusions g.sets.toFirstSets g.rules) g.sets.follow.Has :=
  g.follow_ends.2

theorem follow_of_base {symbol member : Symbol}
    (base : (followBase g.sets.toFirstSets g.tokens g.rules g.start).Has symbol member) :
    g.Follow symbol member := by
  rw [Follow, follow_eq]
  exact Inclusion.has_saturate_of_has base

theorem follow_start (g : Grammar) : g.Follow g.start.left.symbol .endMarker :=
  follow_of_base (has_foldl_extend.mpr (Or.inl (has_followSeed.mpr ⟨rfl, rfl⟩)))

section Rules

variable {rule : Rule} {before after : List Symbol} {nonterminal member : Symbol}

theorem follow_of_leads (ruleMember : rule ∈ g.rules)
    (split : rule.symbols = before ++ nonterminal :: after)
    (kind : nonterminal.isTerminal = false) (leads : g.sets.Leads after member) :
    g.Follow nonterminal member := by
  apply follow_of_base
  refine has_foldl_extend.mpr (Or.inr ⟨⟨rule.left.symbol, nonterminal, after⟩, ?_, rfl, leads⟩)
  exact Occurrence.mem_all.mpr ⟨rule, ruleMember, rfl, kind, before, split⟩

theorem follow_of_left (ruleMember : rule ∈ g.rules)
    (split : rule.symbols = before ++ nonterminal :: after)
    (kind : nonterminal.isTerminal = false)
    (skipped : ∀ symbol ∈ after, g.sets.isNullable symbol = true)
    (follow : g.Follow rule.left.symbol member) : g.Follow nonterminal member := by
  by_cases same : nonterminal = rule.left.symbol
  · exact same ▸ follow
  · have occurs : ⟨rule.left.symbol, nonterminal, after⟩ ∈ Occurrence.all g.rules :=
      Occurrence.mem_all.mpr ⟨rule, ruleMember, rfl, kind, before, split⟩
    have inclusion : ⟨nonterminal, rule.left.symbol⟩ ∈
        followInclusions g.sets.toFirstSets g.rules := by
      refine List.mem_map.mpr ⟨_, List.mem_filter.mpr ⟨occurs, ?_⟩, rfl⟩
      have whole : (g.sets.toFirstSets.leading after).2 = true :=
        FirstSets.leadingFrom_nullable.mpr skipped
      simp [whole, same]
    exact g.closed_follow _ inclusion member follow

end Rules

theorem terminal_of_follow {nonterminal member : Symbol} (follow : g.Follow nonterminal member) :
    member.isTerminal = true ∧ g.Declares member := by
  rw [Follow, follow_eq] at follow
  have closed : Inclusion.Closed (followInclusions g.sets.toFirstSets g.rules)
      fun _ member => member.isTerminal = true ∧ g.Declares member :=
    fun _ _ _ holds => holds
  refine Inclusion.has_saturate_least closed ?_ nonterminal member follow
  intro symbol other base
  rcases has_foldl_extend.mp base with seed | ⟨occurrence, _, _, leads⟩
  · rw [(has_followSeed.mp seed).2]
    exact ⟨rfl, g.declares_endMarker⟩
  · exact terminal_of_leads leads

end Grammar

end ShiftReduce
