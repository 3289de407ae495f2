import ShiftReduce.Proofs.Automaton.Reachable
import ShiftReduce.Proofs.Grammar.DeclarationOrder

/-! Grammars that differ in the order of their rules have the same automaton. Closure
steps bring in the same items, in another order, and item sets are sorted. Tokens
are explored in their own order, so the states get the same numbers. -/

namespace ShiftReduce

variable {g h : Grammar} {item other : Item}

theorem Grammar.firstOf_drawn (g : Grammar) (sequence : List Symbol) (next : Symbol) :
    ∀ token ∈ g.firstOf sequence next, token ∈ g.pool := by
  have leading : ∀ token ∈ (g.sets.toFirstSets.leadingFrom [] (sequence ++ [next])).1,
      token ∈ g.pool := leadingFrom_drawn (by simp) _
  intro token member
  unfold firstOf FirstSets.firstOf FirstSets.leading at member
  split at member
  · rename_i found result
    rw [result] at leading
    rcases Keyed.mem_of_mem_insert member with rfl | old
    · exact mem_pool.mpr (Or.inl rfl)
    · exact leading token old
  · rename_i found result
    rw [result] at leading
    exact leading token member

namespace Item

/-- The lookahead is a token of the grammar, payload included, if there is one. -/
def Drawn (g : Grammar) (item : Item) : Prop :=
  ∀ token, item.lookahead = some token → token ∈ g.pool

theorem Drawn.eq_of_key (drawn : item.Drawn g) (otherDrawn : other.Drawn g)
    (same : item.key = other.key) : item = other := by
  obtain ⟨rule, dot, lookahead⟩ := item
  obtain ⟨otherRule, otherDot, otherLookahead⟩ := other
  simp only [key, Prod.mk.injEq] at same
  obtain ⟨rfl, rfl, symbols⟩ := same
  congr
  cases lookahead with
  | none => exact (Option.map_eq_none_iff.mp symbols.symm).symm
  | some token =>
      obtain ⟨twin, rfl, sameSymbol⟩ := Option.map_eq_some_iff.mp symbols.symm
      rw [List.inj_on_of_nodup_map g.pool_nodup (drawn token rfl) (otherDrawn twin rfl)
        sameSymbol.symm]

theorem drawn_of_mem_expand (member : other ∈ item.expand g) : other.Drawn g := by
  obtain ⟨_, after, _, _, _, _, _, lookahead, inside, rfl⟩ := mem_expand.mp member
  rintro token rfl
  unfold inherited at inside
  cases own : item.lookahead with
  | none =>
      rw [own] at inside
      cases List.mem_singleton.mp inside
  | some found =>
      rw [own] at inside
      obtain ⟨_, tokenMember, same⟩ := List.mem_map.mp inside
      cases same
      exact g.firstOf_drawn _ _ token (List.mem_filter.mp tokenMember).1

end Item

namespace ItemSet

theorem drawn_closure {items : List Item} (drawn : ∀ item ∈ items, item.Drawn g) :
    ∀ item ∈ closure g items, item.Drawn g :=
  closure_induction (Item.Drawn g) drawn fun _ _ _ => Item.drawn_of_mem_expand

theorem drawn_moved {items : ItemSet} (drawn : ∀ item ∈ items, item.Drawn g) (symbol : Symbol) :
    ∀ item ∈ (items.before g symbol).map Item.advance, item.Drawn g := by
  intro item member
  obtain ⟨before, inside, rfl⟩ := List.mem_map.mp member
  exact drawn before (List.mem_filter.mp inside).1

end ItemSet

namespace Grammar.Reordered

variable (reordered : g.Reordered h)

include reordered

theorem rule?_eq (id : RuleId) : h.rule? id = g.rule? id :=
  Keyed.find?_perm h.ids_nodup reordered.rules id

theorem rest_eq (item : Item) : item.rest h = item.rest g := by
  rw [Item.rest, Item.rest, Item.rule?, Item.rule?, reordered.rule?_eq]

theorem next?_eq (item : Item) : item.next? h = item.next? g := by
  rw [Item.next?, Item.next?, reordered.rest_eq]

theorem isAccepting_eq (item : Item) : item.isAccepting h = item.isAccepting g := by
  rw [Item.isAccepting, Item.isAccepting, reordered.next?_eq, reordered.start]

theorem drawn_iff : item.Drawn h ↔ item.Drawn g := by
  rw [Item.Drawn, reordered.pool_eq, Item.Drawn]

theorem firstOf_subset {sequence : List Symbol} {next : Symbol} {token : Token}
    (member : token ∈ h.firstOf sequence next) (proper : token.symbol ≠ .epsilon) :
    token ∈ g.firstOf sequence next := by
  have drawn := h.firstOf_drawn sequence next token member
  rw [reordered.pool_eq] at drawn
  have leads := (FirstSets.mem_firstOf proper).mp (List.mem_map_of_mem member)
  obtain ⟨twin, twinMember, same⟩ := List.mem_map.mp
    ((FirstSets.mem_firstOf proper).mpr (reordered.leads_iff.mp leads))
  rwa [List.inj_on_of_nodup_map g.pool_nodup drawn (g.firstOf_drawn sequence next twin twinMember)
    same.symm]

theorem expand_subset (member : other ∈ item.expand h) : other ∈ item.expand g := by
  obtain ⟨token, after, rest, nonterminal, rule, ruleMember, left, lookahead, inside, rfl⟩ :=
    Item.mem_expand.mp member
  rw [reordered.rest_eq] at rest
  refine Item.mem_expand.mpr ⟨token, after, rest, nonterminal, rule,
    reordered.rules.mem_iff.mp ruleMember, left, lookahead, ?_, rfl⟩
  unfold Item.inherited at inside ⊢
  cases own : item.lookahead with
  | none => simpa [own] using inside
  | some token =>
      rw [own] at inside
      obtain ⟨found, foundMember, rfl⟩ := List.mem_map.mp inside
      obtain ⟨inFirst, proper⟩ := List.mem_filter.mp foundMember
      exact List.mem_map_of_mem (List.mem_filter.mpr
        ⟨reordered.firstOf_subset inFirst (by simpa [Token.isEpsilon] using proper), proper⟩)

section Closure

variable {items : List Item}

theorem closure_subset :
    ∀ key ∈ (ItemSet.closure h items).keys, key ∈ (ItemSet.closure g items).keys := by
  intro key member
  obtain ⟨item, inside, rfl⟩ := List.mem_map.mp member
  refine ItemSet.closure_induction (fun item => (ItemSet.closure g items).Has item)
    (fun _ => ItemSet.closure_has) ?_ item inside
  exact fun _ _ has expanded => ItemSet.closure_closed has (reordered.expand_subset expanded)

theorem closure_eq (drawn : ∀ item ∈ items, item.Drawn g) :
    ItemSet.closure h items = ItemSet.closure g items := by
  have otherDrawn : ∀ item ∈ items, item.Drawn h :=
    fun item member => reordered.drawn_iff.mpr (drawn item member)
  have keys : (ItemSet.closure h items).keys = (ItemSet.closure g items).keys :=
    ItemSet.keys_eq_of_mem_iff (ItemSet.closure_increasing h items)
      (ItemSet.closure_increasing g items)
      fun key => ⟨reordered.closure_subset key, reordered.symm.closure_subset key⟩
  refine eq_of_map_eq keys fun item member other otherMember same => ?_
  have itemDrawn := reordered.drawn_iff.mp (ItemSet.drawn_closure otherDrawn item member)
  exact itemDrawn.eq_of_key (ItemSet.drawn_closure drawn other otherMember) same

end Closure

section Automaton

variable {items : ItemSet} {a : Automaton}

theorem goto_eq (drawn : ∀ item ∈ items, item.Drawn g) (symbol : Symbol) :
    items.goto h symbol = items.goto g symbol := by
  have before : items.before h symbol = items.before g symbol := by
    simp only [ItemSet.before, reordered.next?_eq]
  rw [ItemSet.goto, before]
  exact reordered.closure_eq (ItemSet.drawn_moved drawn symbol)

theorem ofClosed_eq (items : ItemSet) : State.ofClosed h items = State.ofClosed g items := by
  simp only [State.ofClosed, reordered.isAccepting_eq]

theorem explore_eq (drawn : ∀ item ∈ items, item.Drawn g) (tokens : List Token) :
    Automaton.explore h items a tokens = Automaton.explore g items a tokens := by
  induction tokens generalizing a with
  | nil => rfl
  | cons token rest ih =>
      simp only [Automaton.explore, reordered.goto_eq drawn, reordered.ofClosed_eq, ih]

theorem discover_eq (fuel : Nat)
    (drawn : ∀ state ∈ a.states, ∀ item ∈ state.items, item.Drawn g) :
    Automaton.discover h fuel a = Automaton.discover g fuel a := by
  have labels : Automaton.labels h = Automaton.labels g := by
    rw [Automaton.labels, reordered.tokens, Automaton.labels]
  induction fuel generalizing a with
  | zero => rfl
  | succ fuel ih =>
      simp only [Automaton.discover]
      split
      · rfl
      · rename_i state next
        have own := drawn state (List.mem_of_getElem? next)
        rw [labels, reordered.explore_eq own]
        refine ih (Automaton.explore_induction
          (motive := fun state => ∀ item ∈ state.items, item.Drawn g) (fun _ _ kept => kept)
          drawn ?_)
        exact fun token _ _ => ItemSet.drawn_closure (ItemSet.drawn_moved own token.symbol)

theorem stateLimit_eq : Automaton.stateLimit h = Automaton.stateLimit g := by
  have count := reordered.rules.foldr_eq'
    (f := fun rule total => rule.production.length + 1 + total) (by omega) 0
  rw [Automaton.stateLimit, Automaton.itemCount, count, reordered.tokens, ← Automaton.itemCount,
    ← Automaton.stateLimit]

theorem build_eq (plain : g.PlainEnd) (method : Method) :
    Automaton.build method h = Automaton.build method g := by
  have start : method.initialItem h = method.initialItem g := by
    cases method <;> simp only [Method.initialItem, reordered.start]
  have drawn : ∀ item ∈ [method.initialItem g], item.Drawn g := by
    intro item single token carried
    rw [List.mem_singleton.mp single] at carried
    cases method with
    | lr0 => cases carried
    | slr => cases carried
    | lr1 =>
        cases carried
        exact mem_pool.mpr (Or.inr ⟨plain.endMarker_mem, by decide⟩)
  have initial : method.initialItems h = method.initialItems g := by
    rw [Method.initialItems, start]
    exact reordered.closure_eq drawn
  rw [Automaton.build, reordered.stateLimit_eq, initial, reordered.ofClosed_eq]
  refine reordered.discover_eq _ (Automaton.intern_induction
    (motive := fun state => ∀ item ∈ state.items, item.Drawn g) (fun _ _ kept => kept) (by simp) ?_)
  exact ItemSet.drawn_closure drawn

end Automaton

end Grammar.Reordered

end ShiftReduce
