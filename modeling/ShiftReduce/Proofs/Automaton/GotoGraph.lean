import ShiftReduce.Proofs.Automaton.Reachable

/-! The automaton is the whole graph of gotos from the initial items, each item set once.
The exploration ends by itself: more steps than it is given would change nothing. -/

namespace ShiftReduce.Automaton

variable {method : Method} {g : Grammar} {a : Automaton}

/-- The graph of the item sets that gotos lead to from the initial items. -/
structure GotoGraph (method : Method) (g : Grammar) (a : Automaton) : Prop where
  numbered : ∀ (index : Nat) state, a.states[index]? = some state →
    state.number = some (index + 1) ∧ a.state? (index + 1) = some state
  distinct : ∀ first second state other, a.state? first = some state →
    a.state? second = some other → state.items.keys = other.items.keys → first = second
  found : ∀ probe number, a.find? probe = some number ↔
    ∃ state, a.state? number = some state ∧ state.items.keys = probe.items.keys
  initial : ∃ state, a.state? .initial = some state ∧ state.items = method.initialItems g
  explored : a.transitions.length = a.states.length
  edges : ∀ number state, a.state? number = some state → ∃ edges, a.edges? number = some edges ∧
    (edges.map (·.token.symbol)).Nodup ∧ ∀ token target, { token, target } ∈ edges ↔
      token ∈ g.tokens ∧ token.symbol ≠ .endMarker ∧ token.symbol ≠ .epsilon ∧
        state.items.goto g token.symbol ≠ [] ∧ ∃ next, a.state? target = some next ∧
          next.items.keys = (state.items.goto g token.symbol).keys
  reachable : ∀ number state, a.state? number = some state → ∃ path, a.Leads path number
  final : ∀ state ∈ a.states,
    state.isFinal = true ↔ ∃ item ∈ state.items, item.isAccepting g = true

theorem Listed.find?_iff (listed : a.Listed g) {probe : State} {number : StateId} :
    a.find? probe = some number ↔
      ∃ state, a.state? number = some state ∧ state.items.keys = probe.items.keys := by
  constructor
  · exact listed.find?_some
  · rintro ⟨state, found, same⟩
    cases result : a.find? probe with
    | none => exact absurd same (listed.find?_none result state (listed.number_of_state? found).1)
    | some other =>
        obtain ⟨known, knownFound, knownSame⟩ := listed.find?_some result
        rw [listed.eq_of_keys knownFound found (knownSame.trans same.symm)]

theorem mem_edges_iff {state : State} {edges : List Edge}
    (edgesTo : EdgesTo g state.items (labels g) (build method g) edges) {token : Token}
    {target : StateId} :
    { token, target } ∈ edges ↔ token ∈ labels g ∧ state.items.goto g token.symbol ≠ [] ∧
      ∃ next, (build method g).state? target = some next ∧
        next.items.keys = (state.items.goto g token.symbol).keys := by
  constructor
  · intro member
    obtain ⟨next, nextFound, same⟩ := edgesTo.sound _ member
    refine ⟨edgesTo.labelled.subset (List.mem_map_of_mem member), ?_, next, nextFound, same⟩
    intro empty
    obtain ⟨_, _, _, nonempty⟩ := placed_of_state? nextFound
    rw [empty] at same
    exact nonempty (List.map_eq_nil_iff.mp same)
  · rintro ⟨label, nonempty, next, nextFound, same⟩
    obtain ⟨⟨_, other⟩, member, rfl⟩ := List.mem_map.mp (edgesTo.complete token label nonempty)
    obtain ⟨found, foundAt, sameFound⟩ := edgesTo.sound _ member
    rwa [(growing_build method g).listed.eq_of_keys nextFound foundAt (same.trans sameFound.symm)]

theorem isFinal_iff {state : State} (member : state ∈ (build method g).states) :
    state.isFinal = true ↔ ∃ item ∈ state.items, item.isAccepting g = true := by
  have flagged : state.isFinal = state.items.any (·.isAccepting g) :=
    build_induction (motive := fun state => state.isFinal = state.items.any (·.isAccepting g))
      (fun _ _ flagged => flagged) rfl (fun _ _ _ _ _ => rfl) state member
  rw [flagged, List.any_eq_true]

theorem discover_stable {fuel : Nat}
    (done : (discover g fuel a).states.length ≤ (discover g fuel a).transitions.length)
    (more : Nat) : discover g (fuel + more) a = discover g fuel a := by
  induction fuel generalizing a with
  | zero =>
      have last : a.states[a.transitions.length]? = none := List.getElem?_eq_none_iff.mpr done
      cases more with
      | zero => rfl
      | succ more => simp only [discover, last]
  | succ fuel ih =>
      rw [Nat.add_right_comm]
      simp only [discover] at done ⊢
      split
      · rfl
      · rename_i state next
        rw [next] at done
        exact ih done

theorem inRange_of_mem {state : State} (member : state ∈ (build method g).states) {item : Item}
    (inside : item ∈ state.items) : item.inRange g = true := by
  have proper := (growing_build method g).listed.proper state member
  obtain ⟨rule, ruleMember, id, bound, _⟩ :=
    ItemSet.mem_allKeys.mp (proper.inside item.key (List.mem_map_of_mem inside))
  have known : item.rule? g = some rule := by
    have sameId : item.rule = rule.id := id
    rw [Item.rule?, sameId]
    exact Grammar.rule?_of_mem ruleMember
  unfold Item.inRange
  rw [known]
  split
  · rename_i found
    cases found
    exact decide_eq_true bound
  · rfl

/-- The automaton of a grammar is the graph of its gotos. Its exploration and the closures
on the way end by themselves, and no closure comes upon a dot beyond its production. -/
theorem build_gotoGraph (method : Method) (g : Grammar) :
    GotoGraph method g (build method g) ∧
    (∀ more, discover g (stateLimit g + more)
      (intern {} (.ofClosed g (method.initialItems g))).2 = build method g) ∧
    (∀ items more, ItemSet.close g (ItemSet.closeLimit g items + more)
      (items.foldl ItemSet.Closing.add {}) = ItemSet.closure g items) ∧
    ∀ state ∈ (build method g).states, ∀ item ∈ state.items, item.inRange g = true := by
  have growing := growing_build method g
  refine ⟨⟨?_, ?_, ?_, growing.initial, length_transitions method g, ?_, ?_, ?_⟩, ?_,
    ItemSet.close_eq_closure g, ?_⟩
  · exact fun index state found => ⟨growing.listed.numbered index state found, found⟩
  · exact fun _ _ _ _ found otherFound same => growing.listed.eq_of_keys found otherFound same
  · exact fun _ _ => growing.listed.find?_iff
  · intro number state found
    obtain ⟨edges, edgesAt, edgesTo⟩ := edges?_build found
    refine ⟨edges, edgesAt, edgesTo.symbols_nodup, fun token target => ?_⟩
    rw [mem_edges_iff edgesTo, mem_labels, and_assoc, and_assoc]
  · exact fun _ _ found => exists_leads_to found
  · exact fun _ member => isFinal_iff member
  · exact discover_stable (length_states_le method g)
  · exact fun _ member _ inside => inRange_of_mem member inside

end ShiftReduce.Automaton
