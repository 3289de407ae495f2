import ShiftReduce.Parser.Machine
import ShiftReduce.Proofs.Grammar.Attempts
import ShiftReduce.Proofs.Grammar.Sentences

/-! Reserved symbols in the rules that declarations define. Declaring a reserved symbol is
refused, but naming one on a right-hand side or as the start symbol is not: the grammar is
augmented exactly if the accepted declarations do not do so. -/

namespace ShiftReduce

/-- A rule has the symbol on its right-hand side, or it is the start symbol chosen last. -/
def Declaration.Uses (declarations : List Declaration) (symbol : Symbol) : Prop :=
  (∃ sides ∈ declarations.filterMap sides?, symbol ∈ sides.2) ∨
    (declarations.filterMap start?).getLast?.map Token.symbol = some symbol

instance (declarations : List Declaration) (symbol : Symbol) :
    Decidable (Declaration.Uses declarations symbol) :=
  inferInstanceAs (Decidable (_ ∨ _))

theorem Rule.forall_right_iff {rules : List Rule} {symbol : Symbol} :
    (∀ rule ∈ rules, ∀ token ∈ rule.right, token.symbol ≠ symbol) ↔
      ∀ sides ∈ rules.map Rule.sides, symbol ∉ sides.2 := by
  simp [Rule.sides]

namespace Draft

variable {draft : Draft} {symbol : Token}

theorem startSymbol?_eq_some (chosen : draft.startSymbol? = some symbol) :
    draft.start = some symbol ∨
      draft.start = none ∧ draft.tokens.find? (!·.isTerminal) = some symbol := by
  rwa [startSymbol?, Option.orElse_eq_orElse, Option.orElse_eq_or, Option.or_eq_some_iff] at chosen

theorem Consistent.startSymbol_nonterminal (consistent : draft.Consistent)
    (chosen : draft.startSymbol? = some symbol) : symbol.isTerminal = false := by
  rcases startSymbol?_eq_some chosen with given | ⟨_, first⟩
  · exact consistent.start_nonterminal symbol given
  · simpa using List.find?_some first

/-- No reserved symbol is the start symbol by itself. -/
theorem Consistent.startSymbol_reserved (consistent : draft.Consistent)
    (chosen : draft.startSymbol? = some symbol) {name : Symbol}
    (reserved : isReserved name.name = true) :
    symbol.symbol = name ↔ draft.start.map Token.symbol = some name := by
  rcases startSymbol?_eq_some chosen with given | ⟨unchosen, first⟩
  · simp [given]
  · simp only [unchosen, Option.map_none, reduceCtorEq, iff_false]
    rintro rfl
    rw [consistent.names_free symbol (List.mem_of_find?_eq_some first)] at reserved
    cases reserved

end Draft

namespace Grammar

variable {g : Grammar}

section StartRule

variable {first : Symbol} {others : List Rule} (shape : g.rules = g.start :: others)
include shape

theorem augmented_iff_of_start
    (start : g.start.sides = (.nonterminal Draft.startName, [first, .endMarker]))
    (proper : first ≠ .endMarker) :
    g.Augmented ↔ ¬ ((∃ sides ∈ others.map Rule.sides, .nonterminal Draft.startName ∈ sides.2) ∨
      first = .nonterminal Draft.startName) := by
  obtain ⟨left, right⟩ := Prod.mk.inj start
  have fresh : (∀ rule ∈ g.rules, ∀ token ∈ rule.right, token.symbol ≠ g.start.left.symbol) ↔
      .nonterminal Draft.startName ∉ [first, .endMarker] ∧
        ∀ sides ∈ others.map Rule.sides, .nonterminal Draft.startName ∉ sides.2 := by
    rw [left, Rule.forall_right_iff, shape, List.map_cons, List.forall_mem_cons, start]
  constructor
  · intro augmented
    obtain ⟨absent, elsewhere⟩ := fresh.mp augmented.fresh
    rintro (⟨sides, member, inside⟩ | rfl)
    · exact elsewhere sides member inside
    · exact absent List.mem_cons_self
  · intro unused
    refine ⟨fresh.mpr ⟨?_, fun sides member inside => unused (.inl ⟨sides, member, inside⟩)⟩, ?_⟩
    · rw [List.mem_pair]
      rintro (same | marker)
      · exact unused (.inr same.symm)
      · cases marker
    · intro token member same
      have inside := List.mem_map_of_mem (f := Token.symbol) member
      rw [List.map_dropLast, right, same] at inside
      exact proper (List.mem_singleton.mp inside).symm

theorem delimited_iff_of_start :
    g.Delimited ↔ g.Augmented ∧ ¬ ∃ sides ∈ others.map Rule.sides, .endMarker ∈ sides.2 := by
  have distinct : ∀ rule ∈ others, rule ≠ g.start := by
    rintro rule member rfl
    have ids := g.ids_nodup
    rw [shape, List.map_cons, List.nodup_cons] at ids
    exact ids.1 (List.mem_map_of_mem member)
  constructor
  · rintro delimited
    refine ⟨delimited.toAugmented, ?_⟩
    rintro ⟨sides, member, inside⟩
    refine Rule.forall_right_iff.mp (fun rule given => ?_) sides member inside
    exact delimited.elsewhere rule (shape ▸ List.mem_cons_of_mem _ given) (distinct rule given)
  · rintro ⟨augmented, absent⟩
    refine ⟨augmented, fun rule member different => ?_⟩
    rw [shape] at member
    have given := (List.mem_cons.mp member).resolve_left different
    refine Rule.forall_right_iff.mpr (fun sides known inside => ?_) rule given
    exact absent ⟨sides, known, inside⟩

end StartRule

variable {declarations : List Declaration}

/-- Where a reserved symbol that the accepted declarations use is found in the rules. -/
theorem exists_start_uses_iff (finished : (Draft.attemptAll {} declarations).2.finish = .ok g) :
    ∃ first others, first ≠ .endMarker ∧ g.rules = g.start :: others ∧
      g.start.sides = (.nonterminal Draft.startName, [first, .endMarker]) ∧
      ∀ name : Symbol, Draft.isReserved name.name = true →
        (Declaration.Uses (Draft.accepted {} declarations) name ↔
          (∃ sides ∈ others.map Rule.sides, name ∈ sides.2) ∨ first = name) := by
  have consistent := Draft.attemptAll_consistent declarations
  obtain ⟨_, declared, start, _⟩ :=
    Draft.declareAll_eq_ok (Draft.declareAll_accepted {} declarations)
  obtain ⟨symbol, chosen, _, sides, _, head, startSides⟩ := finish_eq_ok finished
  obtain ⟨others, shape⟩ := List.head?_eq_some_iff.mp head
  refine ⟨symbol.symbol, others, fun same => ?_, shape, startSides, fun name reserved => ?_⟩
  · have nonterminal := consistent.startSymbol_nonterminal chosen
    rw [Token.isTerminal, same] at nonterminal
    cases nonterminal
  · rw [shape, List.map_cons, declared] at sides
    rw [consistent.startSymbol_reserved chosen reserved, start, (List.cons.inj sides).2]
    simp [Declaration.Uses]

/-- The start rule stands above the others exactly if no accepted declaration uses its
left-hand side, and the end marker is nowhere else exactly if none uses that either. -/
theorem augmented_iff_unused (finished : (Draft.attemptAll {} declarations).2.finish = .ok g) :
    (g.Augmented ↔
      ¬ Declaration.Uses (Draft.accepted {} declarations) (.nonterminal Draft.startName)) ∧
    (g.Delimited ↔
      ¬ Declaration.Uses (Draft.accepted {} declarations) (.nonterminal Draft.startName) ∧
      ¬ Declaration.Uses (Draft.accepted {} declarations) .endMarker) := by
  obtain ⟨first, others, proper, shape, start, uses⟩ := exists_start_uses_iff finished
  have augmented := augmented_iff_of_start shape start proper
  rw [← uses _ rfl] at augmented
  have marker := uses .endMarker rfl
  rw [or_iff_left proper] at marker
  exact ⟨augmented, by rw [delimited_iff_of_start shape, augmented, marker]⟩

/-- Declarations of reserved symbols among others, all refused. -/
theorem augmented_iff_unused_refused :
    let x := Token.terminal "x"
    let declarations : List Declaration := [.terminal "$", .terminal "x",
      .nonterminal Draft.startName, .nonterminal "E",
      .rule (.nonterminal Draft.startName) [x], .rule (.nonterminal "E") [x]]
    ∃ g, (Draft.attemptAll {} declarations).2.finish = .ok g ∧ g.rules.length = 2 ∧
      g.Delimited := by
  intro x declarations
  have evaluated : (Draft.attemptAll {} declarations).2.finish.toOption.any
      (fun g => g.rules.length = 2) = true := by
    decide +kernel
  cases finished : (Draft.attemptAll {} declarations).2.finish with
  | error fault =>
      rw [finished] at evaluated
      cases evaluated
  | ok g =>
      rw [finished] at evaluated
      refine ⟨g, rfl, of_decide_eq_true evaluated, (augmented_iff_unused finished).2.mpr ?_⟩
      decide +kernel

/-- An additive weight that every rule keeps, a derivation keeps. -/
theorem Derives.weight_eq {form derived : List Symbol} (derives : g.Derives form derived)
    (weight : List Symbol → Int)
    (additive : ∀ front back, weight (front ++ back) = weight front + weight back)
    (rules : ∀ rule ∈ g.rules, weight rule.symbols = weight [rule.left.symbol]) :
    weight derived = weight form := by
  induction derives with
  | refl => rfl
  | tail _ step ih =>
      cases step with
      | @rewrite rule before after member =>
          rw [← ih, ← List.singleton_append (l := after)]
          simp only [additive, rules rule member]

/-- With the left-hand side of the start rule inside another rule, a table accepts after one
end marker what is a sentence only with two. -/
theorem accepted_without_sentence :
    let a := Token.terminal "a"
    let x := Token.terminal "x"
    let e := Token.nonterminal "E"
    let declarations : List Declaration := [.terminal "a", .terminal "x", .nonterminal "E",
      .rule e [a, .nonterminal Draft.startName], .rule e [x]]
    ∃ g, define declarations = .ok g ∧ ¬ g.Augmented ∧
      ((Table.generate .lr1 g).run 10 [a, x, .endMarker]).outcome = .accepted ∧
      ¬ g.Sentence ([a, x, .endMarker].map Token.symbol) := by
  intro a x e declarations
  -- Every `a` is matched by one end marker more, written or still to be derived.
  let weight (form : List Symbol) : Int :=
    form.count .endMarker + form.count (.nonterminal Draft.startName) - form.count a.symbol
  have additive (front back : List Symbol) :
      weight (front ++ back) = weight front + weight back := by
    simp only [weight, List.count_append]
    omega
  have evaluated : (define declarations).toOption.any (fun g =>
      (¬ ∀ rule ∈ g.rules, ∀ token ∈ rule.right, token.symbol ≠ g.start.left.symbol) ∧
      ((Table.generate .lr1 g).run 10 [a, x, .endMarker]).outcome = .accepted ∧
      (∀ rule ∈ g.rules, weight rule.symbols = weight [rule.left.symbol]) ∧
      weight g.start.symbols = 1) = true := by
    decide +kernel
  cases defined : define declarations with
  | error fault =>
      rw [defined] at evaluated
      cases evaluated
  | ok g =>
      rw [defined] at evaluated
      obtain ⟨inside, accepted, kept, start⟩ := of_decide_eq_true evaluated
      refine ⟨g, rfl, fun augmented => inside augmented.fresh, accepted, fun sentence => ?_⟩
      have weighed := sentence.1.weight_eq weight additive kept
      rw [start] at weighed
      exact absurd weighed (by decide)

end Grammar

end ShiftReduce
