import ShiftReduce.Grammar.Samples
import ShiftReduce.Proofs.Grammar.FirstFollow

/-! FIRST of sequences. The set for a sequence and a symbol after it, from which lookaheads are
taken, and the set for a sequence alone, from which FOLLOW sets are made, are both exactly what
derivations show. -/

namespace ShiftReduce

/-- A sequence with ε read as the empty string. -/
def withoutEpsilon (sequence : List Symbol) : List Symbol :=
  sequence.filter (· ≠ .epsilon)

namespace FirstSets

variable {sets : FirstSets} {sequence : List Symbol} {next member : Symbol}

theorem leadingFrom_append (found : TokenSet) (sequence more : List Symbol) :
    sets.leadingFrom found (sequence ++ more) =
      if (sets.leadingFrom found sequence).2 then
        sets.leadingFrom (sets.leadingFrom found sequence).1 more
      else sets.leadingFrom found sequence := by
  induction sequence generalizing found with
  | nil => rfl
  | cons symbol rest ih =>
      rw [List.cons_append, leadingFrom, leadingFrom]
      split
      · exact ih _
      · rfl

theorem leading_concat (sequence : List Symbol) (next : Symbol) :
    (sets.leading (sequence ++ [next])).1 =
      if (sets.leading sequence).2 then
        TokenSet.union (sets.leading sequence).1
          (((sets.first? next).getD []).filter (!·.isEpsilon))
      else (sets.leading sequence).1 := by
  have last (found : TokenSet) : (sets.leadingFrom found [next]).1 =
      TokenSet.union found (((sets.first? next).getD []).filter (!·.isEpsilon)) := by
    rw [leadingFrom]
    split <;> rfl
  rw [leading, leadingFrom_append, ← leading]
  split
  · exact last _
  · rfl

theorem mem_leading :
    member ∈ (sets.leading sequence).1.map Token.symbol ↔ sets.Leads sequence member := by
  rw [leading, mem_leadingFrom]
  simp

theorem epsilon_not_mem_leading (sequence : List Symbol) :
    .epsilon ∉ (sets.leading sequence).1.map Token.symbol := by
  intro inside
  obtain ⟨_, _, _, _, _, _, proper⟩ := mem_leading.mp inside
  exact proper rfl

theorem firstOf_eq (sequence : List Symbol) (next : Symbol) :
    sets.firstOf sequence next = (sets.leading (sequence ++ [next])).1 ++
      if (sets.leading (sequence ++ [next])).2 then [.epsilon] else [] := by
  have absent : .epsilon ∉ (sets.leading (sequence ++ [next])).1.map Token.symbol :=
    epsilon_not_mem_leading _
  rw [firstOf]
  split
  · rename_i found result
    rw [result] at absent ⊢
    exact Keyed.insert_of_not_mem absent
  · rename_i found result
    simp [result]

theorem filter_firstOf (sequence : List Symbol) (next : Symbol) :
    (sets.firstOf sequence next).filter (!·.isEpsilon) =
      (sets.leading (sequence ++ [next])).1 := by
  have kept : (sets.leading (sequence ++ [next])).1.filter (!·.isEpsilon) =
      (sets.leading (sequence ++ [next])).1 := by
    refine List.filter_eq_self.mpr fun token inside => ?_
    have proper : token.symbol ≠ .epsilon := by
      intro empty
      have member := List.mem_map_of_mem (f := Token.symbol) inside
      rw [empty] at member
      exact epsilon_not_mem_leading _ member
    simpa [Token.isEpsilon] using proper
  rw [firstOf_eq, List.filter_append, kept]
  split
  · exact List.append_nil _
  · exact List.append_nil _

theorem epsilon_mem_firstOf : .epsilon ∈ (sets.firstOf sequence next).map Token.symbol ↔
    (sets.leading (sequence ++ [next])).2 = true := by
  rw [firstOf_eq, List.map_append, List.mem_append,
    or_iff_right (epsilon_not_mem_leading (sequence ++ [next]))]
  split
  · rename_i nullable
    simp [nullable, Token.epsilon]
  · rename_i solid
    simp [solid]

end FirstSets

namespace Grammar

variable {g : Grammar} {sequence : List Symbol} {next member : Symbol}

theorem declares_withoutEpsilon (known : ∀ symbol ∈ sequence, symbol ∈ alphabet g.tokens) :
    ∀ symbol ∈ withoutEpsilon sequence, g.Declares symbol := by
  intro symbol inside
  obtain ⟨inSequence, kept⟩ := List.mem_filter.mp inside
  have proper : symbol ≠ .epsilon := of_decide_eq_true kept
  exact ⟨(List.mem_cons.mp (known symbol inSequence)).resolve_left proper, proper⟩

theorem leads_withoutEpsilon :
    g.sets.Leads (withoutEpsilon sequence) member ↔ g.sets.Leads sequence member := by
  induction sequence with
  | nil => rfl
  | cons symbol rest ih =>
      rw [FirstSets.leads_cons, ← ih]
      by_cases empty : symbol = .epsilon
      · -- FIRST of ε has ε alone, and ε is nullable.
        subst empty
        have nothing : ¬ (g.sets.family.Has .epsilon member ∧ member ≠ .epsilon) :=
          fun first => first.2 (eq_of_first_terminal first.1 first.2 rfl)
        simp [withoutEpsilon, nothing, FirstSets.isNullable]
      · have kept : withoutEpsilon (symbol :: rest) = symbol :: withoutEpsilon rest := by
          simp [withoutEpsilon, empty]
        rw [kept, FirstSets.leads_cons]

theorem all_nullable_withoutEpsilon :
    (∀ symbol ∈ withoutEpsilon sequence, g.sets.isNullable symbol = true) ↔
      ∀ symbol ∈ sequence, g.sets.isNullable symbol = true := by
  constructor
  · intro nullable symbol inside
    by_cases empty : symbol = .epsilon
    · simp [FirstSets.isNullable, empty]
    · exact nullable symbol (List.mem_filter.mpr ⟨inside, by simpa using empty⟩)
  · exact fun nullable symbol inside => nullable symbol (List.mem_filter.mp inside).1

section Known

variable (known : ∀ symbol ∈ sequence, symbol ∈ alphabet g.tokens)

include known

theorem mem_leading_iff : member ∈ (g.sets.leading sequence).1.map Token.symbol ↔
    member.isTerminal = true ∧ ∃ rest, g.Derives (withoutEpsilon sequence) (member :: rest) := by
  rw [FirstSets.mem_leading, ← leads_withoutEpsilon,
    leads_iff_derives (declares_withoutEpsilon known)]

theorem leading_nullable_iff :
    (g.sets.leading sequence).2 = true ↔ g.Derives (withoutEpsilon sequence) [] := by
  rw [FirstSets.leading, FirstSets.leadingFrom_nullable, ← all_nullable_withoutEpsilon,
    all_nullable_iff (declares_withoutEpsilon known)]

end Known

theorem exists_first (known : next ∈ alphabet g.tokens) : ∃ set, g.first? next = some set := by
  have base : ∃ set, g.baseFirst.get? next = some set := by
    by_cases empty : next = .epsilon
    · rw [← Option.ne_none_iff_exists', Ne, g.drawn_baseFirst.get?_none, not_not, empty]
      simp [firstSeed]
    · exact exists_baseFirst ⟨(List.mem_cons.mp known).resolve_left empty, empty⟩
  obtain ⟨set, found⟩ := base
  rw [first?_eq, found]
  exact ⟨_, rfl⟩

/-- FIRST of a sequence and a symbol after it, ε read as the empty string, holds exactly the
terminals that derived forms begin with, and ε if the empty string is derived. Apart from ε it
is what FOLLOW sets are made from, the set for the sequence alone, joined by FIRST of the symbol
if the sequence is nullable; and that set is exact as well. -/
theorem firstOf_exact (known : ∀ symbol ∈ sequence ++ [next], symbol ∈ alphabet g.tokens) :
    let form := withoutEpsilon (sequence ++ [next])
    let leading := g.sets.leading sequence
    (∀ member, member ∈ (g.firstOf sequence next).map Token.symbol ↔
      member.isTerminal = true ∧ member ≠ .epsilon ∧ (∃ rest, g.Derives form (member :: rest)) ∨
        member = .epsilon ∧ g.Derives form []) ∧
    (∃ firsts, g.first? next = some firsts ∧
      (g.firstOf sequence next).filter (!·.isEpsilon) =
        if leading.2 then TokenSet.union leading.1 (firsts.filter (!·.isEpsilon))
        else leading.1) ∧
    (∀ member, member ∈ leading.1.map Token.symbol ↔
      member.isTerminal = true ∧ ∃ rest, g.Derives (withoutEpsilon sequence) (member :: rest)) ∧
    (leading.2 = true ↔ g.Derives (withoutEpsilon sequence) []) := by
  intro form leading
  have before : ∀ symbol ∈ sequence, symbol ∈ alphabet g.tokens :=
    fun symbol inside => known symbol (List.mem_append_left _ inside)
  refine ⟨fun member => ?_, ?_, fun member => mem_leading_iff before, leading_nullable_iff before⟩
  · by_cases empty : member = .epsilon
    · subst empty
      rw [firstOf, FirstSets.epsilon_mem_firstOf, leading_nullable_iff known]
      simp [form]
    · rw [firstOf, FirstSets.mem_firstOf empty, ← FirstSets.mem_leading, mem_leading_iff known]
      simp [form, empty]
  · obtain ⟨firsts, found⟩ := exists_first (known next (by simp))
    have own : g.sets.first? next = some firsts := found
    refine ⟨firsts, found, ?_⟩
    rw [firstOf, FirstSets.filter_firstOf, FirstSets.leading_concat, own, Option.getD_some]

/-- Both nonterminals of the sequence may be empty, so it can begin with the second one's `b`
and need not begin with anything; the `c` that follows them in the rules is not part of it. -/
theorem firstOf_exact_optional :
    let a := Symbol.nonterminal "A"
    let b := Symbol.nonterminal "B"
    ∃ g, define Samples.optional = .ok g ∧
      (∀ symbol ∈ [a, .epsilon, b] ++ [.epsilon], symbol ∈ alphabet g.tokens) ∧
      g.Derives [a, b] [] ∧ (∃ rest, g.Derives [a, b] (.terminal "b" :: rest)) ∧
      ¬ ∃ rest, g.Derives [a, b] (.terminal "c" :: rest) := by
  intro a b
  have evaluated : (define Samples.optional).toOption.any (fun g =>
      (∀ symbol ∈ [a, .epsilon, b] ++ [.epsilon], symbol ∈ alphabet g.tokens) ∧
      (g.firstOf [a, .epsilon, b] .epsilon).map Token.symbol =
        [.terminal "a", .terminal "b", .epsilon]) = true := by
    decide +kernel
  cases defined : define Samples.optional with
  | error fault =>
      rw [defined] at evaluated
      cases evaluated
  | ok g =>
      rw [defined] at evaluated
      obtain ⟨known, symbols⟩ := of_decide_eq_true evaluated
      obtain ⟨firsts, _⟩ := firstOf_exact known
      have form : withoutEpsilon ([a, .epsilon, b] ++ [.epsilon]) = [a, b] := by decide
      simp only [symbols, form] at firsts
      refine ⟨g, rfl, known, ?_, ?_, fun begins => ?_⟩
      · rcases (firsts .epsilon).mp (by simp) with ⟨_, proper, _⟩ | ⟨_, empty⟩
        · exact absurd rfl proper
        · exact empty
      · rcases (firsts (.terminal "b")).mp (by simp) with ⟨_, _, begins⟩ | ⟨same, _⟩
        · exact begins
        · exact absurd same (by decide)
      · have inside := (firsts (.terminal "c")).mpr (Or.inl ⟨rfl, by decide, begins⟩)
        exact absurd inside (by decide)

end Grammar

end ShiftReduce
