import ShiftReduce.Proofs.Automaton.Reachable
import ShiftReduce.Proofs.Grammar.Exactness
import ShiftReduce.Proofs.Lookahead.Awaits

/-! The tables of the three methods refine each other. SLR and LR(0) share an automaton
and differ in what complete items expect. The LR(1) automaton has its paths in the
other one too, where the states at their ends hold the cores of its items, and what
an LR(1) item expects is in the FOLLOW set of its left-hand side. -/

namespace ShiftReduce

namespace Item

variable {g : Grammar} {item next : Item}

/-- The rule and the dot of an item, without its lookahead. -/
def core (item : Item) : Item :=
  { item with lookahead := none }

theorem eq_core_of_key (same : item.key = next.core.key) : item = next.core := by
  simp only [key, core, Prod.mk.injEq, Option.map_none, Option.map_eq_none_iff] at same
  cases item
  simp_all [core]

theorem core_congr (same : item.key = next.key) : item.core.key = next.core.key := by
  simp only [key, Prod.mk.injEq] at same
  simp [key, core, same]

theorem isAccepting_core (item : Item) : item.core.isAccepting g = item.isAccepting g := rfl

theorem core_mem_expand (member : next ∈ item.expand g) : next.core ∈ item.core.expand g := by
  obtain ⟨token, after, rest, nonterminal, rule, ruleMember, left, _, _, rfl⟩ :=
    mem_expand.mp member
  exact mem_expand.mpr ⟨token, after, rest, nonterminal, rule, ruleMember, left, none,
    List.mem_singleton_self none, rfl⟩

end Item

namespace Method

variable {method other : Method} {g : Grammar} {path : List Symbol} {item : Item}
  {symbol : Symbol}

theorem Reaches.core (reaches : method.Reaches g path item) (plain : other ≠ .lr1) :
    other.Reaches g path item.core := by
  induction reaches with
  | initial =>
      have same : (method.initialItem g).core = other.initialItem g := by
        cases method <;> cases other <;> first | rfl | exact absurd rfl plain
      rw [same]
      exact Reaches.initial
  | expand _ member ih => exact ih.expand (Item.core_mem_expand member)
  | advance _ next ih => exact ih.advance next

theorem expects_lr0_of_slr (expects : Method.slr.Expects g item symbol) :
    Method.lr0.Expects g item symbol := by
  cases known : item.rule? g with
  | none => simp [Expects, reduceLookaheads, known] at expects
  | some rule =>
      exact expects_lr0.mpr (Grammar.terminal_of_follow ((expects_slr known).mp expects))

/-- Lookaheads of LR(1) items are in the FOLLOW sets of their left-hand sides. -/
theorem Reaches.expects_slr (reaches : Method.lr1.Reaches g path item)
    (expects : Method.lr1.Expects g item symbol) : Method.slr.Expects g item symbol := by
  induction reaches generalizing symbol with
  | initial =>
      rw [(expects_lr1 rfl).mp expects]
      exact Method.slr.expects_initial g
  | @expand path parent child reaches member ih =>
      obtain ⟨own, ownMember, known, _⟩ := reaches.rule?
      obtain ⟨token, after, shape, _, rule, ruleMember, left, lookahead, inside, rfl⟩ :=
        Item.mem_expand.mp member
      obtain ⟨carried, carries, terminal, _⟩ := reaches.lookahead_lr1
      rcases Item.mem_inherited inside with ⟨bare, _⟩ | ⟨look, found, looks, rfl, leads⟩
      · cases bare.symm.trans carries
      · cases looks.symm.trans carries
        rw [(expects_lr1 rfl).mp expects]
        obtain ⟨next, rfl⟩ := Item.next?_of_rest shape
        have symbols := Item.symbols_of_next known next
        rw [← left] at symbols
        have core : Method.slr.Reaches g path parent.core := reaches.core (by decide)
        obtain ⟨_, _, expected⟩ := core.inherits ownMember known ruleMember symbols
          (ih ((expects_lr1 carries).mpr rfl)) (Grammar.leads_append_terminal terminal leads)
        exact expected
  | advance _ _ ih => exact ih expects

end Method

namespace Automaton

/-- Actions that say the same in two automata after a path: they are equal, or shifts
to the states at the end of the path in each. -/
inductive Matches (a b : Automaton) (path : List Symbol) : Action → Action → Prop
  | accept : Matches a b path .accept .accept
  | reduce (rule : RuleId) : Matches a b path (.reduce rule) (.reduce rule)
  | shift {target other : StateId} : a.Leads path target → b.Leads path other →
      Matches a b path (.shift target) (.shift other)

theorem Matches.unique {a b : Automaton} {path : List Symbol} {first second action : Action}
    (matched : Matches a b path first action) (again : Matches a b path second action) :
    first = second := by
  cases matched with
  | accept =>
      cases again
      rfl
  | reduce rule =>
      cases again
      rfl
  | shift leads _ =>
      cases again with
      | shift other _ => rw [leads.unique other]

variable {g : Grammar} {path : List Symbol} {state base : StateId}

theorem Leads.exists_leads_lr0 (leads : (build .lr1 g).Leads path state) :
    ∃ base, (build .lr0 g).Leads path base := by
  obtain ⟨item, reaches⟩ := leads.exists_reaches
  exact exists_leads (reaches.core (by decide)) leads.endMarker_not_mem

theorem Leads.core_mem (leads : (build .lr1 g).Leads path state)
    (shared : (build .lr0 g).Leads path base) :
    ∃ source target, (build .lr1 g).state? state = some source ∧
      (build .lr0 g).state? base = some target ∧
      ∀ item ∈ source.items, item.core ∈ target.items := by
  obtain ⟨source, atState, represents⟩ := leads.represents
  obtain ⟨target, atBase, baseRepresents⟩ := shared.represents
  refine ⟨source, target, atState, atBase, ?_⟩
  intro item member
  obtain ⟨other, same, reaches⟩ := (represents item).mp (ItemSet.has_of_mem member)
  have core : Method.lr0.Reaches g path other.core := reaches.core (by decide)
  obtain ⟨found, inside, key⟩ := List.mem_map.mp (baseRepresents.mem_keys.mpr ⟨_, core, rfl⟩)
  have cores : other.core = item.core := by
    simp only [Item.key, Prod.mk.injEq] at same
    simp [Item.core, same]
  rw [← cores, ← Item.eq_core_of_key key]
  exact inside

end Automaton

namespace Table

variable {g : Grammar} {path : List Symbol} {state base : StateId} {symbol : Symbol}
  {action : Action}

theorem lists_lr0_of_slr (lists : (generate .slr g).Lists state symbol action) :
    (generate .lr0 g).Lists state symbol action := by
  obtain ⟨found, atState, item, member, entails⟩ := exists_item_of_lists lists
  -- SLR starts from the same item as LR(0), so the automaton is the same by definition.
  have shared : (Automaton.build .lr0 g).state? state = some found := atState
  refine (lists_generate shared).mpr ⟨item, member, ?_⟩
  cases action with
  | accept => exact entails
  | shift target => exact entails
  | reduce rule => exact ⟨entails.1, entails.2.1, Method.expects_lr0_of_slr entails.2.2⟩

theorem lists_slr_of_lr1 (leads : (Automaton.build .lr1 g).Leads path state)
    (shared : (Automaton.build .lr0 g).Leads path base)
    (lists : (generate .lr1 g).Lists state symbol action) :
    ∃ other, (generate .slr g).Lists base symbol other ∧
      Automaton.Matches (.build .lr1 g) (.build .lr0 g) (path ++ [symbol]) action other := by
  have slr : (Automaton.build .slr g).Leads path base := shared
  obtain ⟨item, reaches, entails⟩ := (lists_iff_reaches leads).mp lists
  have core : Method.slr.Reaches g path item.core := reaches.core (by decide)
  cases action with
  | accept =>
      exact ⟨.accept, (lists_iff_reaches slr).mpr ⟨item.core, core, entails⟩, .accept⟩
  | reduce rule =>
      obtain ⟨same, complete, expects⟩ := entails
      exact ⟨.reduce rule, (lists_iff_reaches slr).mpr ⟨item.core, core, same, complete,
        reaches.expects_slr expects⟩, .reduce rule⟩
  | shift target =>
      obtain ⟨_, next, edge⟩ := entails
      obtain ⟨token, found, rfl⟩ := Option.map_eq_some_iff.mp next
      obtain ⟨other, otherEdge, otherLists⟩ :=
        lists_shift slr core found (Automaton.target?_spec edge).1
      exact ⟨.shift other, otherLists, .shift (leads.step edge) (shared.step otherEdge)⟩

theorem conflicts_generate {method : Method} : (generate method g).conflicts = [] ↔
    ∀ state symbol first second, (generate method g).Lists state symbol first →
      (generate method g).Lists state symbol second → first = second :=
  conflicts_eq_nil_iff (tidy_ofEntries _ _ _) (indexed_ofEntries _ _ _)

theorem conflicts_slr (settled : (generate .lr0 g).conflicts = []) :
    (generate .slr g).conflicts = [] := by
  rw [conflicts_generate] at settled ⊢
  intro state symbol first second firstLists secondLists
  exact settled state symbol first second (lists_lr0_of_slr firstLists)
    (lists_lr0_of_slr secondLists)

theorem conflicts_lr1 (settled : (generate .slr g).conflicts = []) :
    (generate .lr1 g).conflicts = [] := by
  rw [conflicts_generate] at settled ⊢
  intro state symbol first second firstLists secondLists
  obtain ⟨_, found, _⟩ := exists_item_of_lists firstLists
  obtain ⟨path, leads⟩ := Automaton.exists_leads_to found
  obtain ⟨base, shared⟩ := leads.exists_leads_lr0
  obtain ⟨_, firstListed, firstMatches⟩ := lists_slr_of_lr1 leads shared firstLists
  obtain ⟨_, secondListed, secondMatches⟩ := lists_slr_of_lr1 leads shared secondLists
  rw [settled base symbol _ _ firstListed secondListed] at firstMatches
  exact firstMatches.unique secondMatches

/-- Each table refines the next coarser one. Entries for SLR are entries for LR(0); a
path to an LR(1) state leads to an LR(0) state with the cores of its items, and the
actions of the first are among the SLR actions of the second. So conflicts can only
go away from LR(0) to SLR and from SLR to LR(1). -/
theorem generate_refines (g : Grammar) :
    (∀ entry ∈ (generate .slr g).entries, ∃ other ∈ (generate .lr0 g).entries,
      other.state = entry.state ∧ other.token.symbol = entry.token.symbol ∧
        other.action = entry.action) ∧
    (∀ path state, (Automaton.build .lr1 g).Leads path state → ∃ base,
      (Automaton.build .lr0 g).Leads path base ∧
      (∃ source target, (Automaton.build .lr1 g).state? state = some source ∧
        (Automaton.build .lr0 g).state? base = some target ∧
        ∀ item ∈ source.items, item.core ∈ target.items) ∧
      ∀ symbol action, (generate .lr1 g).Lists state symbol action →
        ∃ other, (generate .slr g).Lists base symbol other ∧
          Automaton.Matches (.build .lr1 g) (.build .lr0 g) (path ++ [symbol]) action other) ∧
    ((generate .lr0 g).conflicts = [] → (generate .slr g).conflicts = []) ∧
    ((generate .slr g).conflicts = [] → (generate .lr1 g).conflicts = []) := by
  refine ⟨?_, ?_, conflicts_slr, conflicts_lr1⟩
  · intro entry member
    have indexed : (generate .slr g).Indexed := indexed_ofEntries _ _ _
    exact entry_of_lists (lists_lr0_of_slr (indexed.lists_of_entry member))
  · intro path state leads
    obtain ⟨base, shared⟩ := leads.exists_leads_lr0
    exact ⟨base, shared, leads.core_mem shared,
      fun symbol action lists => lists_slr_of_lr1 leads shared lists⟩

end Table

end ShiftReduce
