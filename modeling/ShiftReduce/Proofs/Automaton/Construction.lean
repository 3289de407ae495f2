import ShiftReduce.Proofs.Automaton.Counting
import ShiftReduce.Proofs.Item.Paths

/-! The automaton of a grammar: its states are numbered by their places, every
state is explored, and the state at the end of a path holds the items reached
along it. -/

namespace ShiftReduce.Automaton

variable {method : Method} {g : Grammar} {a b : Automaton}

structure Listed (g : Grammar) (a : Automaton) : Prop where
  numbered : ∀ index state, a.states[index]? = some state → state.number = some (index + 1)
  distinct : (a.states.map fun state => state.items.keys).Nodup
  proper : ∀ state ∈ a.states, state.items.Proper g

/-- States are only added at the end, and edges stay as they are. -/
def Extends (a b : Automaton) : Prop :=
  a.states <+: b.states ∧ b.transitions = a.transitions

theorem Extends.refl (a : Automaton) : Extends a a :=
  ⟨List.prefix_refl _, rfl⟩

theorem Extends.trans {c : Automaton} (first : Extends a b) (second : Extends b c) :
    Extends a c :=
  ⟨first.1.trans second.1, second.2.trans first.2⟩

theorem getElem?_of_prefix {states longer : List State} (grown : states <+: longer)
    {index : Nat} {state : State} (found : states[index]? = some state) :
    longer[index]? = some state := by
  obtain ⟨added, rfl⟩ := grown
  have bound := (List.getElem?_eq_some_iff.mp found).1
  rw [List.getElem?_append_left bound]
  exact found

theorem state?_of_prefix (grown : a.states <+: b.states) {number : StateId} {state : State}
    (found : a.state? number = some state) : b.state? number = some state := by
  cases number with
  | zero => cases found
  | succ index => exact getElem?_of_prefix grown found

theorem Listed.state?_of_mem (listed : a.Listed g) {state : State} (member : state ∈ a.states) :
    ∃ number, state.number = some number ∧ a.state? number = some state := by
  obtain ⟨index, found⟩ := List.mem_iff_getElem?.mp member
  exact ⟨index + 1, listed.numbered index state found, found⟩

theorem Listed.number_of_state? (listed : a.Listed g) {number : StateId} {state : State}
    (found : a.state? number = some state) : state ∈ a.states ∧ state.number = some number := by
  cases number with
  | zero => cases found
  | succ index => exact ⟨List.mem_of_getElem? found, listed.numbered index state found⟩

theorem Listed.eq_of_keys (listed : a.Listed g) {first second : StateId} {state other : State}
    (found : a.state? first = some state) (otherFound : a.state? second = some other)
    (keys : state.items.keys = other.items.keys) : first = second := by
  obtain ⟨member, numbered⟩ := listed.number_of_state? found
  obtain ⟨otherMember, otherNumbered⟩ := listed.number_of_state? otherFound
  have same : state = other := List.inj_on_of_nodup_map listed.distinct member otherMember keys
  rw [same, otherNumbered] at numbered
  exact (Option.some.inj numbered).symm

theorem Listed.find?_some (listed : a.Listed g) {state : State} {number : StateId}
    (found : a.find? state = some number) :
    ∃ known, a.state? number = some known ∧ known.items.keys = state.items.keys := by
  obtain ⟨known, knownFound, sameNumber⟩ := Option.bind_eq_some_iff.mp found
  obtain ⟨other, otherNumber, atOther⟩ :=
    listed.state?_of_mem (List.mem_of_find?_eq_some knownFound)
  rw [otherNumber] at sameNumber
  cases sameNumber
  exact ⟨known, atOther, by simpa [State.sameItems] using List.find?_some knownFound⟩

theorem Listed.find?_none (listed : a.Listed g) {state : State} (missing : a.find? state = none) :
    ∀ known ∈ a.states, known.items.keys ≠ state.items.keys := by
  cases found : a.states.find? (fun known => known.sameItems state) with
  | none =>
      intro known member same
      have different := List.find?_eq_none.mp found known member
      simp [State.sameItems, same] at different
  | some known =>
      obtain ⟨number, numbered, _⟩ := listed.state?_of_mem (List.mem_of_find?_eq_some found)
      simp [find?, found, numbered] at missing

theorem extends_intern (a : Automaton) (state : State) : Extends a (a.intern state).2 := by
  unfold intern
  split
  · exact Extends.refl a
  · exact ⟨List.prefix_append _ _, rfl⟩

theorem Listed.intern (listed : a.Listed g) {state : State} (proper : state.items.Proper g) :
    (a.intern state).2.Listed g := by
  unfold Automaton.intern
  split
  · exact listed
  · rename_i missing
    refine ⟨?_, ?_, ?_⟩
    · intro index found foundAt
      rcases Nat.lt_trichotomy index a.states.length with before | here | beyond
      · rw [List.getElem?_append_left before] at foundAt
        exact listed.numbered index found foundAt
      · subst here
        rw [List.getElem?_concat_length] at foundAt
        cases foundAt
        rfl
      · rw [List.getElem?_eq_none (by simp; omega)] at foundAt
        cases foundAt
    · rw [List.map_append]
      refine List.nodup_append.mpr ⟨listed.distinct, by simp, ?_⟩
      intro keys member other single same
      obtain ⟨known, knownMember, rfl⟩ := List.mem_map.mp member
      rw [List.mem_singleton.mp single] at same
      exact listed.find?_none missing known knownMember same
    · intro found member
      rcases List.mem_append.mp member with old | new
      · exact listed.proper found old
      · rw [List.mem_singleton.mp new]
        exact proper

theorem Listed.state?_intern (listed : a.Listed g) (state : State) :
    ∃ known, (a.intern state).2.state? (a.intern state).1 = some known ∧
      known.items.keys = state.items.keys := by
  unfold Automaton.intern
  split
  · rename_i number found
    exact listed.find?_some found
  · exact ⟨_, List.getElem?_concat_length, rfl⟩

/-- The edges over some tokens from a set of items lead to its gotos. -/
structure EdgesTo (g : Grammar) (items : ItemSet) (tokens : List Token) (a : Automaton)
    (edges : List Edge) : Prop where
  sound : ∀ edge ∈ edges, ∃ state, a.state? edge.target = some state ∧
    state.items.keys = (items.goto g edge.token.symbol).keys
  complete : ∀ token ∈ tokens, items.goto g token.symbol ≠ [] → token ∈ edges.map Edge.token
  labelled : (edges.map Edge.token).Sublist tokens

theorem EdgesTo.mono {items : ItemSet} {tokens : List Token} {edges : List Edge}
    (edgesTo : EdgesTo g items tokens a edges) (grown : a.states <+: b.states) :
    EdgesTo g items tokens b edges := by
  refine ⟨?_, edgesTo.complete, edgesTo.labelled⟩
  intro edge member
  obtain ⟨state, found, same⟩ := edgesTo.sound edge member
  exact ⟨state, state?_of_prefix grown found, same⟩

theorem EdgesTo.symbols_nodup {items : ItemSet} {edges : List Edge}
    (edgesTo : EdgesTo g items (labels g) a edges) : (edges.map (·.token.symbol)).Nodup := by
  have labelled := (edgesTo.labelled.trans List.filter_sublist).map Token.symbol
  rw [List.map_map] at labelled
  exact g.symbols_nodup.sublist labelled

theorem explore_spec {items : ItemSet} (proper : items.Proper g) (tokens : List Token)
    (listed : a.Listed g) :
    (explore g items a tokens).2.Listed g ∧ Extends a (explore g items a tokens).2 ∧
      EdgesTo g items tokens (explore g items a tokens).2 (explore g items a tokens).1 := by
  induction tokens generalizing a with
  | nil => exact ⟨listed, Extends.refl a, by simp [explore], by simp, List.Sublist.refl _⟩
  | cons token rest ih =>
      simp only [explore]
      split
      · rename_i empty
        obtain ⟨restListed, extended, edges⟩ := ih listed
        refine ⟨restListed, extended, edges.sound, ?_, edges.labelled.cons token⟩
        intro other member nonempty
        rcases List.mem_cons.mp member with rfl | later
        · exact absurd empty nonempty
        · exact edges.complete other later nonempty
      · have nextProper : (State.ofClosed g (items.goto g token.symbol)).items.Proper g :=
          proper.goto token.symbol
        obtain ⟨known, found, same⟩ :=
          listed.state?_intern (State.ofClosed g (items.goto g token.symbol))
        obtain ⟨restListed, extended, edges⟩ := ih (listed.intern nextProper)
        refine ⟨restListed, (extends_intern a _).trans extended, ?_, ?_, ?_⟩
        · intro edge member
          rcases List.mem_cons.mp member with rfl | later
          · exact ⟨known, state?_of_prefix extended.1 found, same⟩
          · exact edges.sound edge later
        · intro other member nonempty
          rcases List.mem_cons.mp member with rfl | later
          · exact List.mem_cons_self
          · exact List.mem_cons_of_mem _ (edges.complete other later nonempty)
        · exact edges.labelled.cons_cons token

/-- The states are listed from the initial one on, and those explored have their edges. -/
structure Growing (method : Method) (g : Grammar) (a : Automaton) : Prop where
  listed : a.Listed g
  initial : ∃ state, a.state? .initial = some state ∧ state.items = method.initialItems g
  explored : ∀ (index : Nat) edges, a.transitions[index]? = some edges →
    ∃ state, a.states[index]? = some state ∧ EdgesTo g state.items (labels g) a edges

theorem Growing.explore (growing : Growing method g a) {state : State}
    (next : a.states[a.transitions.length]? = some state) :
    Growing method g { (explore g state.items a (labels g)).2 with
      transitions := (explore g state.items a (labels g)).2.transitions ++
        [(explore g state.items a (labels g)).1] } := by
  have proper := growing.listed.proper state (List.mem_of_getElem? next)
  obtain ⟨listed, extended, edges⟩ := explore_spec proper (labels g) growing.listed
  refine ⟨⟨listed.numbered, listed.distinct, listed.proper⟩, ?_, ?_⟩
  · obtain ⟨first, found, same⟩ := growing.initial
    exact ⟨first, state?_of_prefix extended.1 found, same⟩
  · intro index found foundAt
    simp only [extended.2] at foundAt
    rcases Nat.lt_trichotomy index a.transitions.length with before | here | beyond
    · rw [List.getElem?_append_left before] at foundAt
      obtain ⟨source, sourceAt, sourceEdges⟩ := growing.explored index found foundAt
      exact ⟨source, getElem?_of_prefix extended.1 sourceAt, sourceEdges.mono extended.1⟩
    · subst here
      rw [List.getElem?_concat_length] at foundAt
      cases foundAt
      exact ⟨state, getElem?_of_prefix extended.1 next, edges.mono (List.prefix_refl _)⟩
    · rw [List.getElem?_eq_none (by simp; omega)] at foundAt
      cases foundAt

theorem Growing.discover (growing : Growing method g a) (fuel : Nat) :
    Growing method g (discover g fuel a) := by
  induction fuel generalizing a with
  | zero => exact growing
  | succ fuel ih =>
      simp only [Automaton.discover]
      split
      · exact growing
      · rename_i state next
        exact ih (growing.explore next)

theorem Growing.length_le (growing : Growing method g a) : a.states.length ≤ stateLimit g := by
  have proper : ∀ items ∈ a.states.map State.items, items.Proper g := by
    intro items member
    obtain ⟨state, stateMember, rfl⟩ := List.mem_map.mp member
    exact growing.listed.proper state stateMember
  have bound := ItemSet.length_le_stateLimit proper
    (by simpa [Function.comp_def] using growing.listed.distinct)
  simpa using bound

theorem Growing.length_transitions_le (growing : Growing method g a) :
    a.transitions.length ≤ a.states.length := by
  by_contra longer
  have inside : a.states.length < a.transitions.length := by omega
  obtain ⟨_, found, _⟩ := growing.explored _ _ (List.getElem?_eq_getElem inside)
  have bound := (List.getElem?_eq_some_iff.mp found).1
  omega

/-- With fuel for as many states as there can be, all of them are explored. -/
theorem Growing.discover_complete (growing : Growing method g a) (fuel : Nat)
    (enough : stateLimit g ≤ fuel + a.transitions.length) :
    (Automaton.discover g fuel a).states.length ≤
      (Automaton.discover g fuel a).transitions.length := by
  induction fuel generalizing a with
  | zero =>
      have bound := growing.length_le
      simp only [Automaton.discover]
      omega
  | succ fuel ih =>
      simp only [Automaton.discover]
      split
      · rename_i done
        exact List.getElem?_eq_none_iff.mp done
      · rename_i state next
        apply ih (growing.explore next)
        have proper := growing.listed.proper state (List.mem_of_getElem? next)
        obtain ⟨_, extended, _⟩ := explore_spec proper (labels g) growing.listed
        simp only [extended.2, List.length_append, List.length_singleton]
        omega

theorem growing_start (method : Method) (g : Grammar) :
    Growing method g (intern {} (.ofClosed g (method.initialItems g))).2 := by
  have empty : Listed g {} := ⟨by simp, List.nodup_nil, by simp⟩
  have proper : (State.ofClosed g (method.initialItems g)).items.Proper g := by
    apply ItemSet.proper_closure
    intro item single
    rw [List.mem_singleton.mp single]
    refine ItemSet.mem_allKeys.mpr ⟨g.start, g.start_mem, method.initialItem_rule g, ?_, ?_⟩
    · rw [Item.key, method.initialItem_dot]
      exact Nat.zero_le _
    · cases method
      · exact List.mem_cons_self
      · exact List.mem_cons_self
      · obtain ⟨token, member, same⟩ := List.mem_map.mp g.declares_endMarker.1
        exact List.mem_cons_of_mem _ (List.mem_map.mpr ⟨token, member, by rw [same]; rfl⟩)
  refine ⟨empty.intern proper, ⟨_, rfl, rfl⟩, ?_⟩
  intro index edges found
  rw [(extends_intern {} _).2] at found
  cases found

theorem growing_build (method : Method) (g : Grammar) : Growing method g (build method g) :=
  (growing_start method g).discover (stateLimit g)

theorem length_states_le (method : Method) (g : Grammar) :
    (build method g).states.length ≤ (build method g).transitions.length :=
  (growing_start method g).discover_complete (stateLimit g) (by omega)

theorem length_transitions (method : Method) (g : Grammar) :
    (build method g).transitions.length = (build method g).states.length :=
  Nat.le_antisymm (growing_build method g).length_transitions_le (length_states_le method g)

theorem edges?_build {number : StateId} {state : State}
    (found : (build method g).state? number = some state) :
    ∃ edges, (build method g).edges? number = some edges ∧
      EdgesTo g state.items (labels g) (build method g) edges := by
  cases number with
  | zero => cases found
  | succ index =>
      have bound := (List.getElem?_eq_some_iff.mp found).1
      rw [← length_transitions] at bound
      have edgesAt := List.getElem?_eq_getElem bound
      obtain ⟨same, sameAt, edgesTo⟩ := (growing_build method g).explored index _ edgesAt
      obtain rfl : state = same := Option.some.inj (found.symm.trans sameAt)
      exact ⟨_, edgesAt, edgesTo⟩

/-- A path of symbols leads from the initial state over edges to a state. -/
inductive Leads (a : Automaton) : List Symbol → StateId → Prop
  | start : Leads a [] .initial
  | step {path : List Symbol} {source target : StateId} {symbol : Symbol} :
      Leads a path source → a.target? source symbol = some target →
      Leads a (path ++ [symbol]) target

theorem mem_labels {token : Token} :
    token ∈ labels g ↔ token ∈ g.tokens ∧ token.symbol ≠ .endMarker ∧ token.symbol ≠ .epsilon := by
  simp [labels, Token.isEndMarker, Token.isEpsilon]

section Build

variable {source target : StateId} {symbol : Symbol} {path : List Symbol} {item : Item}

theorem target?_spec (found : (build method g).target? source symbol = some target) :
    symbol ≠ .endMarker ∧ ∃ state next, (build method g).state? source = some state ∧
      (build method g).state? target = some next ∧
      next.items.keys = (state.items.goto g symbol).keys := by
  obtain ⟨edge, edgeFound, rfl⟩ := Option.map_eq_some_iff.mp found
  obtain ⟨edges, edgesFound, inEdges⟩ := Option.bind_eq_some_iff.mp edgeFound
  obtain ⟨member, rfl⟩ := Keyed.find?_some inEdges
  cases source with
  | zero => cases edgesFound
  | succ index =>
      obtain ⟨state, stateAt, edgesTo⟩ := (growing_build method g).explored index edges edgesFound
      obtain ⟨next, nextFound, same⟩ := edgesTo.sound edge member
      have label := edgesTo.labelled.subset (List.mem_map_of_mem member)
      exact ⟨(mem_labels.mp label).2.1, state, next, stateAt, nextFound, same⟩

theorem target?_of_goto {state : State} (found : (build method g).state? source = some state)
    {token : Token} (label : token ∈ labels g) (nonempty : state.items.goto g token.symbol ≠ []) :
    ∃ target, (build method g).target? source token.symbol = some target := by
  obtain ⟨edges, edgesAt, edgesTo⟩ := edges?_build found
  obtain ⟨edge, member, sameToken⟩ := List.mem_map.mp (edgesTo.complete token label nonempty)
  refine ⟨edge.target, ?_⟩
  rw [← sameToken, target?, edgesAt, Option.bind_some,
    Keyed.find?_mem edgesTo.symbols_nodup member]
  rfl

/-- The state at the end of a path holds the items reached along it. -/
theorem Leads.represents (leads : (build method g).Leads path target) :
    ∃ state, (build method g).state? target = some state ∧
      state.items.Represents method g path := by
  induction leads with
  | start =>
      obtain ⟨state, found, same⟩ := (growing_build method g).initial
      exact ⟨state, found, same ▸ ItemSet.represents_initial method g⟩
  | step _ edge ih =>
      obtain ⟨state, found, represents⟩ := ih
      obtain ⟨_, known, next, knownFound, nextFound, same⟩ := target?_spec edge
      have sameState : known = state := Option.some.inj (knownFound.symm.trans found)
      rw [sameState] at same
      exact ⟨next, nextFound, (ItemSet.represents_goto represents _).congr same⟩

theorem Leads.target? (leads : (build method g).Leads path source)
    (reaches : method.Reaches g path item) {token : Token} (next : item.next? g = some token)
    (proper : token.symbol ≠ .endMarker) :
    ∃ target, (build method g).target? source token.symbol = some target := by
  obtain ⟨state, found, represents⟩ := leads.represents
  obtain ⟨rule, ruleMember, known, _⟩ := reaches.rule?
  have inside : token ∈ rule.production := List.mem_of_getElem? (Item.getElem?_of_next known next)
  obtain ⟨plain, declared⟩ := (g.rules_declared rule ruleMember).mem_production inside
  have label : token ∈ labels g :=
    mem_labels.mpr ⟨declared, proper, by simpa [Token.isEpsilon] using plain⟩
  refine target?_of_goto found label ?_
  intro empty
  have has := ItemSet.goto_has ((represents item).mpr ⟨item, rfl, reaches⟩) next
  rw [empty] at has
  cases has

theorem Leads.endMarker_not_mem (leads : (build method g).Leads path target) :
    Symbol.endMarker ∉ path := by
  induction leads with
  | start => simp
  | step _ edge ih =>
      intro member
      rcases List.mem_append.mp member with before | last
      · exact ih before
      · exact (target?_spec edge).1 (List.mem_singleton.mp last).symm

end Build

end ShiftReduce.Automaton
