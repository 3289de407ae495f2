import ShiftReduce.Item.Closure
import ShiftReduce.Proofs.Grammar.First

/-! The closure of a list of items is the least set with these items that has
all closure steps. Items count by their keys; everything that is computed from
an item depends on its key alone. -/

namespace ShiftReduce

abbrev ItemKey := RuleId × Nat × Option Symbol

namespace Item

variable {g : Grammar} {item other next : Item}

theorem rest_congr (same : item.key = other.key) : item.rest g = other.rest g := by
  simp only [key, Prod.mk.injEq] at same
  rw [rest, rest, rule?, rule?, same.1, same.2.1]

theorem next?_congr (same : item.key = other.key) : item.next? g = other.next? g := by
  rw [next?, next?, rest_congr same]

theorem advance_congr (same : item.key = other.key) : item.advance.key = other.advance.key := by
  simp only [key, Prod.mk.injEq] at same
  simp [key, advance, same]

theorem inherited_congr (same : item.key = other.key) (after : List Symbol) :
    item.inherited g after = other.inherited g after := by
  simp only [key, Prod.mk.injEq] at same
  have lookaheads := same.2.2
  unfold inherited
  cases first : item.lookahead <;> cases second : other.lookahead <;>
    simp_all

theorem expand_congr (same : item.key = other.key) : item.expand g = other.expand g := by
  unfold expand
  rw [rest_congr same]
  split
  · rfl
  · rw [inherited_congr same]

theorem mem_expand : next ∈ item.expand g ↔
    ∃ token after, item.rest g = token :: after ∧ token.isTerminal = false ∧
      ∃ rule ∈ g.rules, rule.left.symbol = token.symbol ∧
        ∃ lookahead ∈ item.inherited g (after.map Token.symbol),
          next = { rule := rule.id, dot := 0, lookahead } := by
  unfold expand
  split
  · rename_i done
    simp [done]
  · rename_i token after shape
    simp only [shape, List.cons.injEq]
    split
    · rename_i terminal
      simp only [List.not_mem_nil, false_iff, not_exists, not_and]
      rintro found remaining ⟨rfl, rfl⟩ nonterminal
      rw [terminal] at nonterminal
      cases nonterminal
    · rename_i nonterminal
      simp only [List.mem_flatMap, Grammar.mem_productionsOf, List.mem_map]
      constructor
      · rintro ⟨rule, ⟨member, left⟩, lookahead, inside, rfl⟩
        exact ⟨token, after, ⟨rfl, rfl⟩, by simpa using nonterminal, rule, member, left, lookahead,
          inside, rfl⟩
      · rintro ⟨found, remaining, ⟨rfl, rfl⟩, _, rule, member, left, lookahead, inside, rfl⟩
        exact ⟨rule, ⟨member, left⟩, lookahead, inside, rfl⟩

theorem mem_inherited {after : List Symbol} {lookahead : Option Token}
    (member : lookahead ∈ item.inherited g after) :
    item.lookahead = none ∧ lookahead = none ∨
      ∃ token found, item.lookahead = some token ∧ lookahead = some found ∧
        g.sets.Leads (after ++ [token.symbol]) found.symbol := by
  unfold inherited at member
  cases own : item.lookahead with
  | none =>
      rw [own] at member
      exact Or.inl ⟨rfl, List.mem_singleton.mp member⟩
  | some token =>
      rw [own] at member
      obtain ⟨found, inside, rfl⟩ := List.mem_map.mp member
      obtain ⟨foundMember, plain⟩ := List.mem_filter.mp inside
      have proper : found.symbol ≠ .epsilon := by simpa [Token.isEpsilon] using plain
      exact Or.inr ⟨token, found, rfl, rfl,
        (FirstSets.mem_firstOf proper).mp (List.mem_map_of_mem foundMember)⟩

theorem inherited_of_leads {after : List Symbol} {token : Token} {symbol : Symbol}
    (own : item.lookahead = some token) (leads : g.sets.Leads (after ++ [token.symbol]) symbol) :
    ∃ found, found.symbol = symbol ∧ some found ∈ item.inherited g after := by
  have proper : symbol ≠ .epsilon := by
    obtain ⟨_, _, _, _, _, _, proper⟩ := leads
    exact proper
  obtain ⟨found, member, rfl⟩ := List.mem_map.mp ((FirstSets.mem_firstOf proper).mpr leads)
  refine ⟨found, rfl, ?_⟩
  unfold inherited
  rw [own]
  refine List.mem_map_of_mem (List.mem_filter.mpr ⟨member, ?_⟩)
  simpa [Token.isEpsilon] using proper

end Item

namespace ItemSet

variable {g : Grammar}

def Has (items : ItemSet) (item : Item) : Prop :=
  item.key ∈ items.keys

theorem has_of_mem {items : ItemSet} {item : Item} (member : item ∈ items) : items.Has item :=
  List.mem_map_of_mem member

theorem has_congr {items : ItemSet} {item other : Item} (same : item.key = other.key) :
    items.Has item ↔ items.Has other := by
  rw [Has, Has, same]

theorem contains_iff_has {items : ItemSet} {item : Item} :
    Sorted.contains Item.cmp item items = true ↔ items.Has item := by
  simp only [Sorted.contains_iff, Item.cmp_eq_eq_iff, Has, keys, List.mem_map]
  constructor
  · rintro ⟨other, member, same⟩
    exact ⟨other, member, same.symm⟩
  · rintro ⟨other, member, same⟩
    exact ⟨other, member, same.symm⟩

theorem keys_nodup {items : ItemSet} (increasing : Sorted.Increasing Item.cmp items) :
    items.keys.Nodup := by
  refine List.pairwise_map.mpr (increasing.imp ?_)
  intro first second less same
  rw [Item.cmp_eq_eq_iff.mpr same] at less
  cases less

def initialKeys (g : Grammar) : List ItemKey :=
  g.rules.flatMap fun rule =>
    (none :: g.tokens.map fun token => some token.symbol).map fun lookahead =>
      (rule.id, 0, lookahead)

theorem length_initialKeys (g : Grammar) :
    (initialKeys g).length = g.rules.length * (g.tokens.length + 1) := by
  simp [initialKeys, List.length_flatMap]

theorem key_mem_initialKeys {item next : Item} (member : next ∈ item.expand g) :
    next.key ∈ initialKeys g := by
  obtain ⟨token, after, _, _, rule, ruleMember, _, lookahead, inside, rfl⟩ :=
    Item.mem_expand.mp member
  refine List.mem_flatMap.mpr ⟨rule, ruleMember, List.mem_map.mpr ⟨_, ?_, rfl⟩⟩
  rcases Item.mem_inherited inside with ⟨_, rfl⟩ | ⟨_, found, _, rfl, leads⟩
  · exact List.mem_cons_self
  · obtain ⟨_, symbol, _, _, _, first, proper⟩ := leads
    have declared := (Grammar.terminal_of_first first proper).2.1
    obtain ⟨other, otherMember, same⟩ := List.mem_map.mp declared
    exact List.mem_cons_of_mem _ (List.mem_map.mpr ⟨other, otherMember, by simp [same]⟩)

theorem has_mono {small large : ItemSet} (kept : ∀ item ∈ small, item ∈ large) {item : Item}
    (has : small.Has item) : large.Has item := by
  obtain ⟨other, member, same⟩ := List.mem_map.mp has
  exact List.mem_map.mpr ⟨other, kept other member, same⟩

namespace Closing

/-- What adding items to a set being closed does to it. -/
structure Adds (given : List Item) (before after : Closing) : Prop where
  found_kept : ∀ item ∈ before.found, item ∈ after.found
  pending_kept : ∀ item ∈ before.pending, item ∈ after.pending
  given_found : ∀ item ∈ given, after.found.Has item
  found_new : ∀ item ∈ after.found, item ∈ before.found ∨ item ∈ given ∧ item ∈ after.pending
  pending_new : ∀ item ∈ after.pending, item ∈ before.pending ∨ item ∈ after.found
  balance : after.found.length + before.pending.length =
    before.found.length + after.pending.length
  increasing : Sorted.Increasing Item.cmp before.found → Sorted.Increasing Item.cmp after.found

theorem adds_add (closing : Closing) (item : Item) : Adds [item] closing (closing.add item) := by
  unfold add
  split
  · rename_i present
    refine ⟨fun _ member => member, fun _ member => member, ?_, fun _ member => Or.inl member,
      fun _ member => Or.inl member, rfl, id⟩
    intro other single
    rw [List.mem_singleton.mp single]
    exact contains_iff_has.mp present
  · rename_i absent
    have perm := Sorted.insert_perm (by simpa using absent)
    have here : item ∈ Sorted.insert Item.cmp item closing.found :=
      perm.mem_iff.mpr List.mem_cons_self
    refine ⟨?_, ?_, ?_, ?_, ?_, ?_, Sorted.insert_increasing item⟩
    · exact fun _ member => Sorted.mem_insert_of_mem member
    · exact fun _ member => List.mem_cons_of_mem _ member
    · intro other single
      rw [List.mem_singleton.mp single]
      exact has_of_mem here
    · intro other member
      rcases List.mem_cons.mp (perm.mem_iff.mp member) with rfl | old
      · exact Or.inr ⟨by simp, by simp⟩
      · exact Or.inl old
    · intro other member
      rcases List.mem_cons.mp member with rfl | old
      · exact Or.inr here
      · exact Or.inl old
    · have grown := perm.length_eq
      simp only [List.length_cons] at grown ⊢
      omega

theorem adds_foldl (given : List Item) (closing : Closing) :
    Adds given closing (given.foldl add closing) := by
  induction given generalizing closing with
  | nil =>
      exact ⟨fun _ member => member, fun _ member => member, by simp, fun _ member => Or.inl member,
        fun _ member => Or.inl member, rfl, id⟩
  | cons item rest ih =>
      have first := adds_add closing item
      have later := ih (closing.add item)
      rw [List.foldl_cons]
      refine ⟨?_, ?_, ?_, ?_, ?_, ?_, ?_⟩
      · exact fun other member => later.found_kept other (first.found_kept other member)
      · exact fun other member => later.pending_kept other (first.pending_kept other member)
      · intro other member
        rcases List.mem_cons.mp member with rfl | inRest
        · exact has_mono later.found_kept (first.given_found other (by simp))
        · exact later.given_found other inRest
      · intro other member
        rcases later.found_new other member with old | ⟨inRest, waiting⟩
        · rcases first.found_new other old with older | ⟨single, waiting⟩
          · exact Or.inl older
          · have same := List.mem_singleton.mp single
            exact Or.inr ⟨by simp [same], later.pending_kept other waiting⟩
        · exact Or.inr ⟨by simp [inRest], waiting⟩
      · intro other member
        rcases later.pending_new other member with old | found
        · rcases first.pending_new other old with older | found
          · exact Or.inl older
          · exact Or.inr (later.found_kept other found)
        · exact Or.inr found
      · have firstBalance := first.balance
        have laterBalance := later.balance
        omega
      · exact fun increasing => later.increasing (first.increasing increasing)

/-- Pending items are found ones, and the others have their closure steps. -/
structure Open (g : Grammar) (closing : Closing) : Prop where
  increasing : Sorted.Increasing Item.cmp closing.found
  pending_found : ∀ item ∈ closing.pending, item ∈ closing.found
  expanded : ∀ item ∈ closing.found,
    item ∈ closing.pending ∨ ∀ next ∈ item.expand g, closing.found.Has next

theorem open_start (g : Grammar) (items : List Item) : Open g (items.foldl add {}) := by
  have adds := adds_foldl items {}
  refine ⟨adds.increasing List.Pairwise.nil, ?_, ?_⟩
  · intro item member
    rcases adds.pending_new item member with nothing | found
    · cases nothing
    · exact found
  · intro item member
    rcases adds.found_new item member with nothing | ⟨_, waiting⟩
    · cases nothing
    · exact Or.inl waiting

theorem Open.pop {closing : Closing} {item : Item} {pending : List Item}
    (invariant : Open g closing) (shape : closing.pending = item :: pending) :
    Open g ((item.expand g).foldl add { closing with pending }) := by
  have adds := adds_foldl (item.expand g) { closing with pending }
  refine ⟨adds.increasing invariant.increasing, ?_, ?_⟩
  · intro other member
    rcases adds.pending_new other member with old | found
    · exact adds.found_kept other (invariant.pending_found other (by rw [shape]; simp [old]))
    · exact found
  · intro other member
    rcases adds.found_new other member with old | ⟨_, waiting⟩
    · rcases invariant.expanded other old with waiting | done
      · rw [shape] at waiting
        rcases List.mem_cons.mp waiting with rfl | later
        · exact Or.inr adds.given_found
        · exact Or.inl (adds.pending_kept other later)
      · exact Or.inr fun next inside => has_mono adds.found_kept (done next inside)
    · exact Or.inl waiting

end Closing

theorem close_kept {fuel : Nat} {closing : Closing} {item : Item} (member : item ∈ closing.found) :
    item ∈ close g fuel closing := by
  induction fuel generalizing closing with
  | zero => exact member
  | succ fuel ih =>
      simp only [close]
      split
      · exact member
      · exact ih ((Closing.adds_foldl _ _).found_kept item member)

theorem close_induction {holds : Item → Prop}
    (step : ∀ item next, holds item → next ∈ item.expand g → holds next) {fuel : Nat}
    {closing : Closing} (pending : ∀ item ∈ closing.pending, item ∈ closing.found)
    (found : ∀ item ∈ closing.found, holds item) :
    ∀ item ∈ close g fuel closing, holds item := by
  induction fuel generalizing closing with
  | zero => exact found
  | succ fuel ih =>
      simp only [close]
      split
      · exact found
      · rename_i item rest shape
        have adds := Closing.adds_foldl (item.expand g) { closing with pending := rest }
        have own : holds item := found item (pending item (by rw [shape]; simp))
        apply ih
        · intro other member
          rcases adds.pending_new other member with old | new
          · exact adds.found_kept other (pending other (by rw [shape]; simp [old]))
          · exact new
        · intro other member
          rcases adds.found_new other member with old | ⟨added, _⟩
          · exact found other old
          · exact step item other own added

theorem close_done {closing : Closing} (none : closing.pending = []) (fuel : Nat) :
    close g fuel closing = closing.found := by
  cases fuel with
  | zero => rfl
  | succ fuel => simp only [close, none]

/-- With fuel for every key that can come up, nothing is pending in the end, and more fuel
makes no difference. -/
theorem close_ends (keys : List ItemKey) {fuel : Nat} {closing : Closing}
    (invariant : Closing.Open g closing) (initial : ∀ key ∈ initialKeys g, key ∈ keys)
    (inside : ∀ item ∈ closing.found, item.key ∈ keys)
    (enough : closing.pending.length + keys.length ≤ fuel + closing.found.length) :
    ∃ last, Closing.Open g last ∧ last.pending = [] ∧
      ∀ more, close g (fuel + more) closing = last.found := by
  induction fuel generalizing closing with
  | zero =>
      have bound : closing.found.length ≤ keys.length := by
        have within : ∀ key ∈ closing.found.keys, key ∈ keys := by
          intro key member
          obtain ⟨item, itemMember, rfl⟩ := List.mem_map.mp member
          exact inside item itemMember
        simpa [ItemSet.keys] using
          (List.subperm_of_subset (keys_nodup invariant.increasing) within).length_le
      have none : closing.pending = [] := List.length_eq_zero_iff.mp (by omega)
      exact ⟨closing, invariant, none, fun more => close_done none _⟩
  | succ fuel ih =>
      cases shape : closing.pending with
      | nil => exact ⟨closing, invariant, shape, fun more => close_done shape _⟩
      | cons item pending =>
          have adds := Closing.adds_foldl (item.expand g) { closing with pending }
          have balance := adds.balance
          have insideNext : ∀ other ∈ ((item.expand g).foldl Closing.add
              { closing with pending }).found, other.key ∈ keys := by
            intro other member
            rcases adds.found_new other member with old | ⟨added, _⟩
            · exact inside other old
            · exact initial other.key (key_mem_initialKeys added)
          simp only [shape, List.length_cons] at enough
          simp only at balance
          obtain ⟨last, opened, none, ends⟩ := ih (invariant.pop shape) insideNext (by omega)
          refine ⟨last, opened, none, fun more => ?_⟩
          rw [Nat.add_right_comm, close, shape]
          exact ends more

section Closure

variable {items : List Item}

theorem closure_has {item : Item} (given : item ∈ items) : (closure g items).Has item := by
  have has := (Closing.adds_foldl items {}).given_found item given
  exact has_mono (fun _ => close_kept) has

theorem closure_induction (holds : Item → Prop) (given : ∀ item ∈ items, holds item)
    (step : ∀ item next, holds item → next ∈ item.expand g → holds next) :
    ∀ item ∈ closure g items, holds item := by
  apply close_induction step (Closing.open_start g items).pending_found
  intro item member
  rcases (Closing.adds_foldl items {}).found_new item member with nothing | ⟨inside, _⟩
  · cases nothing
  · exact given item inside

theorem closure_ends (g : Grammar) (items : List Item) :
    ∃ last, Closing.Open g last ∧ last.pending = [] ∧
      ∀ more, close g (closeLimit g items + more) (items.foldl Closing.add {}) = last.found := by
  have adds := Closing.adds_foldl items {}
  have balance := adds.balance
  refine close_ends (items.map Item.key ++ initialKeys g) (Closing.open_start g items) ?_ ?_ ?_
  · exact fun key inside => List.mem_append_right _ inside
  · intro other found
    rcases adds.found_new other found with nothing | ⟨given, _⟩
    · cases nothing
    · exact List.mem_append_left _ (List.mem_map_of_mem given)
  · simp only [closeLimit, List.length_append, List.length_map, length_initialKeys]
    simp only [List.length_nil] at balance
    omega

/-- The closure is what its loop ends with, however long it may run. -/
theorem close_eq_closure (g : Grammar) (items : List Item) (more : Nat) :
    close g (closeLimit g items + more) (items.foldl Closing.add {}) = closure g items := by
  obtain ⟨_, _, _, ends⟩ := closure_ends g items
  exact (ends more).trans (ends 0).symm

theorem closure_closed {item next : Item} (has : (closure g items).Has item)
    (member : next ∈ item.expand g) : (closure g items).Has next := by
  obtain ⟨own, ownMember, same⟩ := List.mem_map.mp has
  obtain ⟨last, opened, none, ends⟩ := closure_ends g items
  have result : closure g items = last.found := ends 0
  rw [result] at ownMember ⊢
  rcases opened.expanded own ownMember with waiting | expanded
  · rw [none] at waiting
    cases waiting
  · exact expanded next (Item.expand_congr same ▸ member)

theorem close_increasing {fuel : Nat} {closing : Closing}
    (increasing : Sorted.Increasing Item.cmp closing.found) :
    Sorted.Increasing Item.cmp (close g fuel closing) := by
  induction fuel generalizing closing with
  | zero => exact increasing
  | succ fuel ih =>
      simp only [close]
      split
      · exact increasing
      · exact ih ((Closing.adds_foldl _ _).increasing increasing)

theorem closure_increasing (g : Grammar) (items : List Item) :
    Sorted.Increasing Item.cmp (closure g items) :=
  close_increasing (Closing.open_start g items).increasing

end Closure

end ItemSet

end ShiftReduce
