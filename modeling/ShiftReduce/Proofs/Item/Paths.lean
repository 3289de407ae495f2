import ShiftReduce.Method
import ShiftReduce.Proofs.Item.Closure

/-! The items reached along a path of symbols, by closure steps and by moving
the dot. The item sets of the automaton hold exactly these. -/

namespace ShiftReduce

namespace Item

variable {g : Grammar} {item : Item} {rule : Rule} {token : Token}

@[simp] theorem rule?_advance (item : Item) : item.advance.rule? g = item.rule? g := rfl

theorem rest_of_rule (known : item.rule? g = some rule) :
    item.rest g = rule.production.drop item.dot := by
  rw [rest, known]

theorem rest_of_next (next : item.next? g = some token) :
    item.rest g = token :: item.advance.rest g := by
  cases known : item.rule? g with
  | none => simp [next?, rest, known] at next
  | some rule =>
      have advanced : item.advance.rule? g = some rule := known
      rw [next?, rest_of_rule known] at next
      rw [rest_of_rule known, rest_of_rule advanced]
      cases shape : rule.production.drop item.dot with
      | nil => simp [shape] at next
      | cons head tail =>
          have same : head = token := by simpa [shape] using next
          have moved : rule.production.drop (item.dot + 1) = tail := by
            rw [← List.drop_drop, shape]
            rfl
          rw [same, advance, moved]

theorem next?_of_rest {after : List Token} (shape : item.rest g = token :: after) :
    item.next? g = some token ∧ item.advance.rest g = after := by
  have next : item.next? g = some token := by
    rw [next?, shape]
    rfl
  rw [rest_of_next next] at shape
  exact ⟨next, (List.cons.inj shape).2⟩

theorem next_of_rest {symbol : Symbol} {symbols : List Symbol}
    (shape : (item.rest g).map Token.symbol = symbol :: symbols) :
    ∃ token, item.next? g = some token ∧ token.symbol = symbol ∧
      (item.advance.rest g).map Token.symbol = symbols := by
  obtain ⟨token, after, rest, rfl, rfl⟩ := List.map_eq_cons_iff.mp shape
  obtain ⟨next, rfl⟩ := next?_of_rest rest
  exact ⟨token, next, rfl, rfl⟩

theorem getElem?_of_next (known : item.rule? g = some rule) (next : item.next? g = some token) :
    rule.production[item.dot]? = some token := by
  rw [next?, rest_of_rule known, List.head?_drop] at next
  exact next

theorem symbols_of_next (known : item.rule? g = some rule) (next : item.next? g = some token) :
    rule.symbols = rule.symbols.take item.dot ++
      token.symbol :: (item.advance.rest g).map Token.symbol := by
  have after := rest_of_next next
  rw [rest_of_rule known] at after
  have halves := List.take_append_drop item.dot rule.production
  rw [after] at halves
  rw [Rule.symbols, ← List.map_take]
  nth_rewrite 1 [← halves]
  rw [List.map_append, List.map_cons]

theorem take_advance (known : item.rule? g = some rule) (next : item.next? g = some token) :
    rule.symbols.take item.advance.dot = rule.symbols.take item.dot ++ [token.symbol] := by
  have here : rule.symbols[item.dot]? = some token.symbol := by
    rw [Rule.symbols, List.getElem?_map, getElem?_of_next known next]
    rfl
  rw [advance, List.take_add_one, here]
  rfl

theorem dot_lt_of_next (known : item.rule? g = some rule) (next : item.next? g = some token) :
    item.dot < rule.production.length :=
  (List.getElem?_eq_some_iff.mp (getElem?_of_next known next)).1

theorem declared_of_next (next : item.next? g = some token) :
    token ∈ g.tokens ∧ token.symbol ≠ .epsilon := by
  cases known : item.rule? g with
  | none => simp [next?, rest, known] at next
  | some rule =>
      have inside := List.mem_of_getElem? (getElem?_of_next known next)
      obtain ⟨plain, declared⟩ :=
        (g.rules_declared rule (Grammar.mem_of_rule? known).1).mem_production inside
      exact ⟨declared, by simpa [Token.isEpsilon] using plain⟩

theorem take_of_complete (known : item.rule? g = some rule) (complete : item.next? g = none) :
    rule.symbols.take item.dot = rule.symbols := by
  rw [next?, rest_of_rule known, List.head?_eq_none_iff, List.drop_eq_nil_iff] at complete
  exact List.take_of_length_le (rule.length_symbols ▸ complete)

end Item

namespace Method

variable {method : Method} {g : Grammar} {path : List Symbol} {item : Item}

/-- An item is reached along the path that leads from the initial item to it. -/
inductive Reaches (method : Method) (g : Grammar) : List Symbol → Item → Prop
  | initial : Reaches method g [] (method.initialItem g)
  | expand {path : List Symbol} {item next : Item} : Reaches method g path item →
      next ∈ item.expand g → Reaches method g path next
  | advance {path : List Symbol} {item : Item} {token : Token} : Reaches method g path item →
      item.next? g = some token → Reaches method g (path ++ [token.symbol]) item.advance

theorem initialItem_rule (method : Method) (g : Grammar) :
    (method.initialItem g).rule = g.start.id := by
  cases method <;> rfl

theorem initialItem_dot (method : Method) (g : Grammar) : (method.initialItem g).dot = 0 := by
  cases method <;> rfl

theorem initialItem_rule? (method : Method) (g : Grammar) :
    (method.initialItem g).rule? g = some g.start := by
  rw [Item.rule?, initialItem_rule]
  exact Grammar.rule?_of_mem g.start_mem

theorem expand_rule? {next : Item} (member : next ∈ item.expand g) :
    next.dot = 0 ∧ ∃ rule ∈ g.rules, next.rule? g = some rule ∧
      ∃ token, item.next? g = some token ∧ token.symbol = rule.left.symbol := by
  obtain ⟨token, after, shape, _, rule, ruleMember, left, lookahead, _, rfl⟩ :=
    Item.mem_expand.mp member
  exact ⟨rfl, rule, ruleMember, Grammar.rule?_of_mem ruleMember, token,
    (Item.next?_of_rest shape).1, left.symm⟩

theorem Reaches.rule? (reaches : method.Reaches g path item) :
    ∃ rule ∈ g.rules, item.rule? g = some rule ∧ item.dot ≤ rule.production.length := by
  induction reaches with
  | initial =>
      refine ⟨g.start, g.start_mem, initialItem_rule? method g, ?_⟩
      rw [initialItem_dot]
      exact Nat.zero_le _
  | expand _ member _ =>
      obtain ⟨dot, rule, ruleMember, known, _⟩ := expand_rule? member
      refine ⟨rule, ruleMember, known, ?_⟩
      rw [dot]
      exact Nat.zero_le _
  | advance _ next ih =>
      obtain ⟨rule, ruleMember, known, _⟩ := ih
      exact ⟨rule, ruleMember, known, Item.dot_lt_of_next known next⟩

/-- A path ends with the symbols before the dot, and what comes before them
leads to the item with its dot in front. -/
theorem Reaches.split (reaches : method.Reaches g path item) {rule : Rule}
    (known : item.rule? g = some rule) :
    ∃ before, path = before ++ rule.symbols.take item.dot ∧
      method.Reaches g before { item with dot := 0 } := by
  induction reaches with
  | initial =>
      refine ⟨[], by simp [initialItem_dot], ?_⟩
      have same : { method.initialItem g with dot := 0 } = method.initialItem g := by
        cases method <;> rfl
      rw [same]
      exact Reaches.initial
  | @expand path parent next reaches member _ =>
      have dot := (expand_rule? member).1
      have same : { next with dot := 0 } = next := by
        rw [← dot]
      refine ⟨path, by simp [dot], ?_⟩
      rw [same]
      exact reaches.expand member
  | @advance path item token _ next ih =>
      rw [Item.rule?_advance] at known
      obtain ⟨before, shape, front⟩ := ih known
      refine ⟨before, ?_, front⟩
      rw [shape, Item.take_advance known next, List.append_assoc]

theorem Reaches.origin (reaches : method.Reaches g path item) (front : item.dot = 0) :
    path = [] ∧ item = method.initialItem g ∨
      ∃ parent, method.Reaches g path parent ∧ item ∈ parent.expand g := by
  cases reaches with
  | initial => exact Or.inl ⟨rfl, rfl⟩
  | expand reaches member => exact Or.inr ⟨_, reaches, member⟩
  | advance _ _ => cases front

theorem Reaches.lookahead (reaches : method.Reaches g path item) :
    method ≠ .lr1 ∧ item.lookahead = none ∨
      method = .lr1 ∧ ∃ token, item.lookahead = some token ∧
        token.symbol.isTerminal = true ∧ g.Declares token.symbol := by
  induction reaches with
  | initial =>
      cases method
      · exact Or.inl ⟨by decide, rfl⟩
      · exact Or.inl ⟨by decide, rfl⟩
      · exact Or.inr ⟨rfl, .endMarker, rfl, rfl, g.declares_endMarker⟩
  | expand _ member ih =>
      obtain ⟨_, _, _, _, _, _, _, lookahead, inside, rfl⟩ := Item.mem_expand.mp member
      rcases Item.mem_inherited inside with ⟨own, rfl⟩ | ⟨token, found, own, rfl, leads⟩
      · rcases ih with ⟨plain, _⟩ | ⟨_, other, carried, _⟩
        · exact Or.inl ⟨plain, rfl⟩
        · rw [own] at carried
          cases carried
      · rcases ih with ⟨_, bare⟩ | ⟨lr1, _⟩
        · rw [own] at bare
          cases bare
        · obtain ⟨_, symbol, _, _, _, first, proper⟩ := leads
          exact Or.inr ⟨lr1, found, rfl, Grammar.terminal_of_first first proper⟩
  | advance _ _ ih => exact ih

theorem Reaches.lookahead_lr1 (reaches : Method.lr1.Reaches g path item) :
    ∃ token, item.lookahead = some token ∧ token.symbol.isTerminal = true ∧
      g.Declares token.symbol := by
  simpa using reaches.lookahead

/-- The path, what is left after the dot and some more symbols derive from the start rule. -/
theorem Reaches.derives (reaches : method.Reaches g path item) :
    ∃ more, g.Derives g.start.symbols (path ++ ((item.rest g).map Token.symbol ++ more)) := by
  induction reaches with
  | initial =>
      refine ⟨[], ?_⟩
      rw [Item.rest_of_rule (initialItem_rule? method g), initialItem_dot]
      simpa [Rule.symbols] using Grammar.Derives.refl _
  | @expand path item next _ member ih =>
      obtain ⟨more, derives⟩ := ih
      obtain ⟨dot, rule, ruleMember, known, token, atDot, left⟩ := expand_rule? member
      refine ⟨(item.advance.rest g).map Token.symbol ++ more, derives.trans ?_⟩
      rw [Item.rest_of_next atDot, Item.rest_of_rule known, dot, List.drop_zero, List.map_cons,
        left]
      have step := (Grammar.Derives.rule ruleMember).context path
        ((item.advance.rest g).map Token.symbol ++ more)
      simpa [Rule.symbols] using step
  | advance _ next ih =>
      obtain ⟨more, derives⟩ := ih
      refine ⟨more, ?_⟩
      rw [Item.rest_of_next next] at derives
      simpa using derives

end Method

namespace ItemSet

variable {method : Method} {g : Grammar} {items : ItemSet} {path : List Symbol}

theorem goto_has {item : Item} {token : Token} (has : items.Has item)
    (next : item.next? g = some token) : (goto g items token.symbol).Has item.advance := by
  obtain ⟨own, member, same⟩ := List.mem_map.mp has
  have moved : own ∈ items.before g token.symbol := by
    refine List.mem_filter.mpr ⟨member, ?_⟩
    rw [Item.next?_congr same, next]
    simp
  rw [← has_congr (Item.advance_congr same)]
  exact closure_has (List.mem_map_of_mem moved)

/-- A set holds exactly the items reached along a path, as far as keys tell. -/
def Represents (items : ItemSet) (method : Method) (g : Grammar) (path : List Symbol) : Prop :=
  ∀ item, items.Has item ↔ ∃ other, other.key = item.key ∧ method.Reaches g path other

theorem Represents.mem_keys (represents : items.Represents method g path) {key : ItemKey} :
    key ∈ items.keys ↔ ∃ item, method.Reaches g path item ∧ item.key = key := by
  let item : Item := { rule := key.1, dot := key.2.1, lookahead := key.2.2.map Token.plain }
  have same : item.key = key := by simp [item, Item.key, Option.map_map, Function.comp_def]
  have has := represents item
  rw [Has, same] at has
  rw [has]
  constructor
  · rintro ⟨other, keys, reaches⟩
    exact ⟨other, reaches, keys⟩
  · rintro ⟨other, reaches, keys⟩
    exact ⟨other, keys, reaches⟩

theorem Represents.exists_reaches (represents : items.Represents method g path)
    (nonempty : items ≠ []) : ∃ item, method.Reaches g path item := by
  obtain ⟨item, inside⟩ := List.exists_mem_of_ne_nil items nonempty
  obtain ⟨other, _, reaches⟩ := (represents item).mp (has_of_mem inside)
  exact ⟨other, reaches⟩

theorem Represents.congr {same : ItemSet} (represents : items.Represents method g path)
    (keys : same.keys = items.keys) : same.Represents method g path := by
  intro item
  rw [Has, keys]
  exact represents item

theorem represents_initial (method : Method) (g : Grammar) :
    (method.initialItems g).Represents method g [] := by
  intro item
  constructor
  · intro has
    obtain ⟨own, member, same⟩ := List.mem_map.mp has
    refine ⟨own, same, ?_⟩
    refine closure_induction (method.Reaches g []) ?_
      (fun _ _ reaches inside => reaches.expand inside) own member
    intro given single
    rw [List.mem_singleton.mp single]
    exact Method.Reaches.initial
  · rintro ⟨other, same, reaches⟩
    rw [← has_congr same]
    generalize empty : ([] : List Symbol) = path at reaches
    clear same
    induction reaches with
    | initial => exact closure_has (by simp)
    | expand _ inside ih => exact closure_closed (ih empty) inside
    | advance _ _ _ => simp at empty

theorem represents_goto (represents : items.Represents method g path) (symbol : Symbol) :
    (goto g items symbol).Represents method g (path ++ [symbol]) := by
  intro item
  constructor
  · intro has
    obtain ⟨own, member, same⟩ := List.mem_map.mp has
    rw [← same]
    apply closure_induction (fun found => ∃ other, other.key = found.key ∧
      method.Reaches g (path ++ [symbol]) other) ?_ ?_ own member
    · intro given inside
      obtain ⟨moved, movedMember, rfl⟩ := List.mem_map.mp inside
      obtain ⟨old, atDot⟩ := List.mem_filter.mp movedMember
      obtain ⟨other, sameKey, reaches⟩ := (represents moved).mp (has_of_mem old)
      have next : (other.next? g).map Token.symbol = some symbol := by
        rw [Item.next?_congr sameKey]
        simpa using atDot
      obtain ⟨token, found, rfl⟩ := Option.map_eq_some_iff.mp next
      exact ⟨other.advance, Item.advance_congr sameKey, reaches.advance found⟩
    · rintro parent next ⟨other, sameKey, reaches⟩ inside
      rw [← Item.expand_congr sameKey] at inside
      exact ⟨next, rfl, reaches.expand inside⟩
  · rintro ⟨other, same, reaches⟩
    rw [← has_congr same]
    generalize whole : path ++ [symbol] = longer at reaches
    clear same
    induction reaches with
    | initial => simp at whole
    | expand _ inside ih => exact closure_closed (ih whole) inside
    | @advance shorter moved token reaches next _ =>
        obtain ⟨rfl, single⟩ := List.append_inj' whole rfl
        have sameSymbol : symbol = token.symbol := by simpa using single
        rw [sameSymbol]
        exact goto_has ((represents moved).mpr ⟨moved, rfl, reaches⟩) next

end ItemSet

end ShiftReduce
