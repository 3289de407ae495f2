import Mathlib.Data.Finset.Powerset
import Mathlib.Data.List.Sort
import ShiftReduce.Automaton.Basic
import ShiftReduce.Proofs.Item.Closure

/-! Item sets over the keys of a grammar: there are at most as many of them as
the exploration of states allows for. -/

namespace ShiftReduce

namespace Item

def cmpKey : ItemKey → ItemKey → Ordering :=
  compareLex (compareOn Prod.fst)
    (compareLex (compareOn fun key => key.2.1) (compareOn fun key => key.2.2))

instance : Std.TransCmp cmpKey :=
  inferInstanceAs (Std.TransCmp (compareLex (compareOn fun key : ItemKey => key.1)
    (compareLex (compareOn fun key => key.2.1) (compareOn fun key => key.2.2))))

theorem cmp_eq_cmpKey (a b : Item) : cmp a b = cmpKey a.key b.key := rfl

end Item

namespace ItemSet

variable {g : Grammar} {items other : ItemSet}

theorem keys_eq_of_mem_iff (increasing : Sorted.Increasing Item.cmp items)
    (otherIncreasing : Sorted.Increasing Item.cmp other)
    (same : ∀ key, key ∈ items.keys ↔ key ∈ other.keys) : items.keys = other.keys := by
  have ordered {items : ItemSet} (increasing : Sorted.Increasing Item.cmp items) :
      Sorted.Increasing Item.cmpKey items.keys := by
    refine List.pairwise_map.mpr (increasing.imp ?_)
    intro first second less
    rw [← Item.cmp_eq_cmpKey]
    exact less
  refine (ordered increasing).eq_of_perm (ordered otherIncreasing) ?_
  exact (List.perm_ext_iff_of_nodup (keys_nodup increasing) (keys_nodup otherIncreasing)).mpr same

/-- The keys of all items: a rule, a place for the dot, a token or nothing. -/
def allKeys (g : Grammar) : List ItemKey :=
  g.rules.flatMap fun rule =>
    (List.range (rule.production.length + 1)).flatMap fun dot =>
      (none :: g.tokens.map fun token => some token.symbol).map fun lookahead =>
        (rule.id, dot, lookahead)

theorem mem_allKeys {key : ItemKey} :
    key ∈ allKeys g ↔ ∃ rule ∈ g.rules, key.1 = rule.id ∧ key.2.1 ≤ rule.production.length ∧
      key.2.2 ∈ none :: g.tokens.map fun token => some token.symbol := by
  simp only [allKeys, List.mem_flatMap, List.mem_range, List.mem_map (l := none :: _)]
  constructor
  · rintro ⟨rule, member, dot, bound, lookahead, inside, rfl⟩
    exact ⟨rule, member, rfl, Nat.le_of_lt_succ bound, inside⟩
  · rintro ⟨rule, member, id, bound, inside⟩
    exact ⟨rule, member, key.2.1, by omega, key.2.2, inside, by rw [← id]⟩

theorem length_allKeys (g : Grammar) : (allKeys g).length = Automaton.itemCount g := by
  have forRule (rule : Rule) :
      ((List.range (rule.production.length + 1)).flatMap fun dot =>
        (none :: g.tokens.map fun token => some token.symbol).map fun lookahead =>
          (rule.id, dot, lookahead)).length =
        (rule.production.length + 1) * (g.tokens.length + 1) := by
    simp [List.length_flatMap]
  unfold allKeys Automaton.itemCount
  induction g.rules with
  | nil => simp
  | cons rule rest ih =>
      rw [List.flatMap_cons, List.length_append, ih, forRule, List.foldr_cons]
      rw [Nat.add_mul (rule.production.length + 1)]

theorem initialKeys_subset_allKeys :
    ∀ key ∈ initialKeys g, key ∈ allKeys g := by
  intro key member
  obtain ⟨rule, ruleMember, inside⟩ := List.mem_flatMap.mp member
  obtain ⟨lookahead, lookaheadMember, rfl⟩ := List.mem_map.mp inside
  exact mem_allKeys.mpr ⟨rule, ruleMember, rfl, Nat.zero_le _, lookaheadMember⟩

structure Proper (g : Grammar) (items : ItemSet) : Prop where
  increasing : Sorted.Increasing Item.cmp items
  inside : ∀ key ∈ items.keys, key ∈ allKeys g

theorem proper_closure {given : List Item} (inside : ∀ item ∈ given, item.key ∈ allKeys g) :
    (closure g given).Proper g := by
  refine ⟨closure_increasing g given, ?_⟩
  intro key member
  obtain ⟨item, itemMember, rfl⟩ := List.mem_map.mp member
  refine closure_induction (fun item => item.key ∈ allKeys g) inside ?_ item itemMember
  exact fun _ _ _ added => initialKeys_subset_allKeys _ (key_mem_initialKeys added)

theorem Proper.goto (proper : items.Proper g) (symbol : Symbol) :
    (items.goto g symbol).Proper g := by
  apply proper_closure
  intro moved member
  obtain ⟨item, before, rfl⟩ := List.mem_map.mp member
  obtain ⟨itemMember, atDot⟩ := List.mem_filter.mp before
  obtain ⟨rule, ruleMember, id, _, lookahead⟩ :=
    mem_allKeys.mp (proper.inside item.key (List.mem_map_of_mem itemMember))
  have known : item.rule? g = some rule := by
    have sameId : item.rule = rule.id := id
    rw [Item.rule?, sameId]
    exact Grammar.rule?_of_mem ruleMember
  have bound : item.dot < rule.production.length := by
    by_contra beyond
    have done : item.rest g = [] := by
      rw [Item.rest, known]
      exact List.drop_eq_nil_of_le (Nat.le_of_not_lt beyond)
    simp [Item.next?, done] at atDot
  exact mem_allKeys.mpr ⟨rule, ruleMember, id, bound, lookahead⟩

/-- Distinct item sets of a grammar are no more than its sets of keys. -/
theorem length_le_stateLimit {sets : List ItemSet} (proper : ∀ items ∈ sets, items.Proper g)
    (distinct : (sets.map keys).Nodup) : sets.length ≤ Automaton.stateLimit g := by
  have counted : (sets.map keys).toFinset.card ≤ (allKeys g).toFinset.powerset.card := by
    refine Finset.card_le_card_of_injOn List.toFinset ?_ ?_
    · intro keyList member
      obtain ⟨items, itemsMember, rfl⟩ := List.mem_map.mp (List.mem_toFinset.mp member)
      refine Finset.mem_coe.mpr (Finset.mem_powerset.mpr ?_)
      intro key inside
      exact List.mem_toFinset.mpr
        ((proper items itemsMember).inside key (List.mem_toFinset.mp inside))
    · intro first firstMember second secondMember same
      obtain ⟨items, itemsMember, rfl⟩ := List.mem_map.mp (List.mem_toFinset.mp firstMember)
      obtain ⟨other, otherMember, rfl⟩ := List.mem_map.mp (List.mem_toFinset.mp secondMember)
      refine keys_eq_of_mem_iff (proper items itemsMember).increasing
        (proper other otherMember).increasing ?_
      intro key
      rw [← List.mem_toFinset, same, List.mem_toFinset]
  calc
    sets.length = (sets.map keys).toFinset.card := by
      rw [List.toFinset_card_of_nodup distinct, List.length_map]
    _ ≤ (allKeys g).toFinset.powerset.card := counted
    _ = 2 ^ (allKeys g).toFinset.card := Finset.card_powerset _
    _ ≤ 2 ^ (allKeys g).length := Nat.pow_le_pow_right (by decide) (List.toFinset_card_le _)
    _ = Automaton.stateLimit g := by rw [length_allKeys, Automaton.stateLimit, Nat.pow_eq]

end ItemSet

end ShiftReduce
