import Mathlib.Order.Bounds.Basic
import ShiftReduce.Calculator.Basic
import ShiftReduce.Proofs.Automaton.Counting
import ShiftReduce.Proofs.Item.Paths

/-! Closing a list of items is a closure operator on the keys of items: it gives the least
set with these items that has all closure steps, so order and repetition of the items do
not matter, closing again adds nothing, and unions go to unions. So they do under gotos. -/

namespace ShiftReduce

namespace Item

variable {g : Grammar} {item other : Item}

theorem inRange_iff : item.inRange g = true ↔ ∀ token rule, item.lookahead = some token →
    item.rule? g = some rule → item.dot ≤ rule.production.length := by
  unfold inRange
  cases item.lookahead <;> cases item.rule? g <;> simp

theorem inRange_congr (same : item.key = other.key) (inRange : item.inRange g = true) :
    other.inRange g = true := by
  simp only [key, Prod.mk.injEq] at same
  rw [inRange_iff] at inRange ⊢
  intro token rule carries known
  rw [carries] at same
  obtain ⟨own, ownCarries, _⟩ := Option.map_eq_some_iff.mp same.2.2
  rw [rule?, ← same.1] at known
  rw [← same.2.1]
  exact inRange own rule ownCarries known

theorem inRange_of_mem_expand {next : Item} (member : next ∈ item.expand g) :
    next.inRange g = true := by
  rw [inRange_iff, (Method.expand_rule? member).1]
  exact fun _ _ _ _ => Nat.zero_le _

theorem inRange_advance {token : Token} (next : item.next? g = some token) :
    item.advance.inRange g = true := by
  rw [inRange_iff]
  intro _ rule _ known
  exact dot_lt_of_next known next

end Item

namespace ItemSet

variable {g : Grammar} {items others union : List Item} {key : ItemKey}

/-- Items with a lookahead have their dot within the production of their rule, if it is known. -/
def InRange (g : Grammar) (items : List Item) : Prop :=
  ∀ item ∈ items, ∀ token rule, item.lookahead = some token → item.rule? g = some rule →
    item.dot ≤ rule.production.length

/-- A set of keys that has the given items and, with an item, all that its closure step
brings in. -/
def ClosedOver (g : Grammar) (items : List Item) (held : Set ItemKey) : Prop :=
  (∀ key ∈ keys items, key ∈ held) ∧
    ∀ item next : Item, item.key ∈ held → next ∈ item.expand g → next.key ∈ held

theorem InRange.closure? (inRange : InRange g items) :
    closure? g items = some (closure g items) := by
  have all : items.all (·.inRange g) = true :=
    List.all_eq_true.mpr fun item member => Item.inRange_iff.mpr (inRange item member)
  rw [ItemSet.closure?, if_pos all]

theorem InRange.closure (inRange : InRange g items) : InRange g (closure g items) := by
  intro item member
  refine Item.inRange_iff.mp (closure_induction (fun item => item.inRange g = true) ?_ ?_ item member)
  · exact fun given inside => Item.inRange_iff.mpr (inRange given inside)
  · exact fun _ _ _ inside => Item.inRange_of_mem_expand inside

theorem inRange_moved (g : Grammar) (items : ItemSet) (symbol : Symbol) :
    InRange g ((items.before g symbol).map Item.advance) := by
  intro moved member
  obtain ⟨item, inside, rfl⟩ := List.mem_map.mp member
  obtain ⟨token, next, _⟩ := Option.map_eq_some_iff.mp
    (of_decide_eq_true (List.mem_filter.mp inside).2)
  exact Item.inRange_iff.mp (Item.inRange_advance next)

theorem closedOver_closure (g : Grammar) (items : List Item) :
    ClosedOver g items {key | key ∈ (closure g items).keys} := by
  refine ⟨?_, fun _ _ => closure_closed⟩
  intro key member
  obtain ⟨item, inside, rfl⟩ := List.mem_map.mp member
  exact closure_has inside

theorem ClosedOver.mem {held : Set ItemKey} (closed : ClosedOver g items held)
    (member : key ∈ (closure g items).keys) : key ∈ held := by
  obtain ⟨item, inside, rfl⟩ := List.mem_map.mp member
  refine closure_induction (fun item => item.key ∈ held) ?_ closed.2 item inside
  exact fun given givenMember => closed.1 given.key (List.mem_map_of_mem givenMember)

theorem closure_isLeast (g : Grammar) (items : List Item) :
    IsLeast {held | ClosedOver g items held} {key | key ∈ (closure g items).keys} :=
  ⟨closedOver_closure g items, fun _ closed _ => closed.mem⟩

theorem closure_mono (contained : ∀ key ∈ keys items, key ∈ keys others) :
    ∀ key ∈ (closure g items).keys, key ∈ (closure g others).keys := by
  obtain ⟨given, closed⟩ := closedOver_closure g others
  have above : ClosedOver g items {key | key ∈ (closure g others).keys} :=
    ⟨fun key member => given key (contained key member), closed⟩
  exact fun _ => above.mem

theorem closure_congr (same : ∀ key, key ∈ keys items ↔ key ∈ keys others) :
    (closure g items).keys = (closure g others).keys := by
  refine keys_eq_of_mem_iff (closure_increasing g items) (closure_increasing g others) fun key =>
    ⟨?_, ?_⟩
  · exact closure_mono (fun key => (same key).mp) key
  · exact closure_mono (fun key => (same key).mpr) key

theorem closure_closure (g : Grammar) (items : List Item) :
    (closure g (closure g items)).keys = (closure g items).keys := by
  have again : ClosedOver g (closure g items) {key | key ∈ (closure g items).keys} :=
    ⟨fun _ member => member, (closedOver_closure g items).2⟩
  refine keys_eq_of_mem_iff (closure_increasing g _) (closure_increasing g items) fun key =>
    ⟨again.mem, ?_⟩
  exact (closedOver_closure g (closure g items)).1 key

theorem mem_closure_union
    (joined : ∀ key, key ∈ keys union ↔ key ∈ keys items ∨ key ∈ keys others) :
    key ∈ (closure g union).keys ↔ key ∈ (closure g items).keys ∨ key ∈ (closure g others).keys := by
  obtain ⟨own, ownClosed⟩ := closedOver_closure g items
  obtain ⟨theirs, theirsClosed⟩ := closedOver_closure g others
  have both : ClosedOver g union
      {key | key ∈ (closure g items).keys ∨ key ∈ (closure g others).keys} := by
    refine ⟨fun key given => ((joined key).mp given).imp (own key) (theirs key), ?_⟩
    exact fun item next held inside => held.imp (fun first => ownClosed item next first inside)
      (fun second => theirsClosed item next second inside)
  constructor
  · exact both.mem
  · rintro (first | second)
    · exact closure_mono (fun key inside => (joined key).mpr (Or.inl inside)) key first
    · exact closure_mono (fun key inside => (joined key).mpr (Or.inr inside)) key second

theorem mem_keys_moved {items : ItemSet} {symbol : Symbol} :
    key ∈ keys ((items.before g symbol).map Item.advance) ↔
      ∃ item : Item, item.key ∈ items.keys ∧ (item.next? g).map Token.symbol = some symbol ∧
        item.advance.key = key := by
  simp only [keys, before, List.map_map, List.mem_map, List.mem_filter, Function.comp_apply,
    decide_eq_true_eq]
  constructor
  · rintro ⟨item, ⟨member, next⟩, rfl⟩
    exact ⟨item, ⟨item, member, rfl⟩, next, rfl⟩
  · rintro ⟨item, ⟨own, member, same⟩, next, rfl⟩
    exact ⟨own, ⟨member, by rw [Item.next?_congr same, next]⟩, Item.advance_congr same⟩

theorem mem_goto_union
    (joined : ∀ key, key ∈ keys union ↔ key ∈ keys items ∨ key ∈ keys others) (symbol : Symbol) :
    key ∈ (goto g union symbol).keys ↔
      key ∈ (goto g items symbol).keys ∨ key ∈ (goto g others symbol).keys := by
  refine mem_closure_union fun key => ?_
  simp only [mem_keys_moved, joined, or_and_right, exists_or]

/-- Closing items in range succeeds and ends by itself with the least set that has them and
all closure steps. So it depends on the keys of the items alone, keeps inclusions, adds
nothing when repeated and takes unions to unions, as gotos do. -/
theorem closure_laws (inRange : InRange g items) (othersInRange : InRange g others)
    (joined : ∀ key, key ∈ keys union ↔ key ∈ keys items ∨ key ∈ keys others) :
    ∃ set other whole again, closure? g items = some set ∧ closure? g others = some other ∧
      closure? g union = some whole ∧ closure? g set = some again ∧
      (∀ more, close g (closeLimit g items + more) (items.foldl Closing.add {}) = set) ∧
      IsLeast {held | ClosedOver g items held} {key | key ∈ keys set} ∧
      ((∀ key, key ∈ keys items ↔ key ∈ keys others) → keys set = keys other) ∧
      ((∀ key ∈ keys items, key ∈ keys others) → ∀ key ∈ keys set, key ∈ keys other) ∧
      keys again = keys set ∧
      (∀ key, key ∈ keys whole ↔ key ∈ keys set ∨ key ∈ keys other) ∧
      ∀ symbol, closure? g ((before g items symbol).map Item.advance) = some (goto g items symbol) ∧
        ∀ key, key ∈ keys (goto g union symbol) ↔
          key ∈ keys (goto g items symbol) ∨ key ∈ keys (goto g others symbol) := by
  have unionInRange : InRange g union := by
    intro item member
    rw [← Item.inRange_iff]
    rcases (joined item.key).mp (List.mem_map_of_mem member) with own | theirs
    · obtain ⟨given, inside, same⟩ := List.mem_map.mp own
      exact Item.inRange_congr same (Item.inRange_iff.mpr (inRange given inside))
    · obtain ⟨given, inside, same⟩ := List.mem_map.mp theirs
      exact Item.inRange_congr same (Item.inRange_iff.mpr (othersInRange given inside))
  refine ⟨_, _, _, _, inRange.closure?, othersInRange.closure?, unionInRange.closure?,
    inRange.closure.closure?, close_eq_closure g items, closure_isLeast g items, closure_congr,
    closure_mono, closure_closure g items, fun key => mem_closure_union joined, fun symbol => ?_⟩
  exact ⟨(inRange_moved g items symbol).closure?, fun key => mem_goto_union joined symbol⟩

/-- The initial item of the calculator and a product with its second factor to come, given
twice: closed together they are what each is closed by itself. -/
theorem closure_laws_product :
    let start : Item := { rule := 0, dot := 0, lookahead := some .endMarker }
    let product : Item := { rule := 4, dot := 2, lookahead := some (.terminal "+") }
    ∃ set other whole, closure? Calculator.grammar [start] = some set ∧
      closure? Calculator.grammar [product, product] = some other ∧
      closure? Calculator.grammar [product, start, product] = some whole ∧
      ∀ key, key ∈ keys whole ↔ key ∈ keys set ∨ key ∈ keys other := by
  intro start product
  have inRange : InRange Calculator.grammar [start] := by
    refine fun item member => Item.inRange_iff.mp ?_
    rw [List.mem_singleton.mp member]
    decide +kernel
  have productInRange : InRange Calculator.grammar [product, product] := by
    refine fun item member => Item.inRange_iff.mp ?_
    obtain rfl : item = product := by simpa using member
    decide +kernel
  have joined : ∀ key, key ∈ keys [product, start, product] ↔
      key ∈ keys [start] ∨ key ∈ keys [product, product] := by
    intro key
    simp only [keys, List.map_cons, List.map_nil, List.mem_cons, List.not_mem_nil]
    tauto
  obtain ⟨set, other, whole, _, closed, otherClosed, wholeClosed, _, _, _, _, _, _, united, _⟩ :=
    closure_laws inRange productInRange joined
  exact ⟨set, other, whole, closed, otherClosed, wholeClosed, united⟩

end ItemSet

end ShiftReduce
