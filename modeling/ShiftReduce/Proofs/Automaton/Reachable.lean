import ShiftReduce.Proofs.Automaton.Construction

/-! Every state of the automaton is at the end of a path. Its items are gotos of the
initial ones along some path, this path leads to a state with the same items, and
no two states have the same items. -/

namespace ShiftReduce.Automaton

variable {method : Method} {g : Grammar} {a : Automaton}

section Induction

variable {motive : State → Prop}
  (numbered : ∀ state number, motive state → motive { state with number := some number })

include numbered

theorem intern_induction {state : State} (known : ∀ old ∈ a.states, motive old)
    (added : motive state) : ∀ found ∈ (a.intern state).2.states, motive found := by
  unfold intern
  split
  · exact known
  · intro found member
    rcases List.mem_append.mp member with old | new
    · exact known found old
    · rw [List.mem_singleton.mp new]
      exact numbered state _ added

theorem explore_induction {items : ItemSet} {tokens : List Token}
    (known : ∀ old ∈ a.states, motive old)
    (added : ∀ token ∈ tokens, items.goto g token.symbol ≠ [] →
      motive (.ofClosed g (items.goto g token.symbol))) :
    ∀ found ∈ (explore g items a tokens).2.states, motive found := by
  induction tokens generalizing a with
  | nil => exact known
  | cons token rest ih =>
      have later := fun other inside => added other (List.mem_cons_of_mem token inside)
      simp only [explore]
      split
      · exact ih known later
      · rename_i nonempty
        exact ih (intern_induction numbered known (added token (by simp) nonempty)) later

theorem discover_induction (fuel : Nat) (known : ∀ old ∈ a.states, motive old)
    (goto : ∀ state, motive state → ∀ token ∈ labels g, state.items.goto g token.symbol ≠ [] →
      motive (.ofClosed g (state.items.goto g token.symbol))) :
    ∀ found ∈ (discover g fuel a).states, motive found := by
  induction fuel generalizing a with
  | zero => exact known
  | succ fuel ih =>
      simp only [discover]
      split
      · exact known
      · rename_i state next
        have own := known state (List.mem_of_getElem? next)
        exact ih (explore_induction numbered known (goto state own))

/-- What holds of the initial state, whatever its number, and is kept by gotos holds of
all states. -/
theorem build_induction (initial : motive (.ofClosed g (method.initialItems g)))
    (goto : ∀ state, motive state → ∀ token ∈ labels g, state.items.goto g token.symbol ≠ [] →
      motive (.ofClosed g (state.items.goto g token.symbol))) :
    ∀ state ∈ (build method g).states, motive state :=
  discover_induction numbered (stateLimit g) (intern_induction numbered (by simp) initial) goto

end Induction

variable {path : List Symbol} {source target : StateId}

theorem Leads.unique (leads : a.Leads path source) (again : a.Leads path target) :
    source = target := by
  induction leads generalizing target with
  | start =>
      generalize empty : ([] : List Symbol) = path at again
      cases again with
      | start => rfl
      | step _ _ => simp at empty
  | @step path source next symbol _ edge ih =>
      generalize whole : path ++ [symbol] = longer at again
      cases again with
      | start => simp at whole
      | step before otherEdge =>
          obtain ⟨rfl, single⟩ := List.append_inj' whole rfl
          cases single
          rw [ih before] at edge
          exact Option.some.inj (edge.symm.trans otherEdge)

theorem exists_leads {item : Item} (reaches : method.Reaches g path item)
    (proper : Symbol.endMarker ∉ path) : ∃ state, (build method g).Leads path state := by
  induction reaches with
  | initial => exact ⟨.initial, Leads.start⟩
  | expand _ _ ih => exact ih proper
  | advance reaches next ih =>
      rw [List.mem_append, not_or, List.mem_singleton] at proper
      obtain ⟨source, leads⟩ := ih proper.1
      obtain ⟨target, edge⟩ := leads.target? reaches next (fun same => proper.2 same.symm)
      exact ⟨target, leads.step edge⟩

theorem Leads.eq_of_represents (leads : (build method g).Leads path target) {state : State}
    (found : (build method g).state? source = some state)
    (represents : state.items.Represents method g path) : source = target := by
  have listed := (growing_build method g).listed
  obtain ⟨other, otherFound, otherRepresents⟩ := leads.represents
  refine listed.eq_of_keys found otherFound (ItemSet.keys_eq_of_mem_iff
    (listed.proper state (listed.number_of_state? found).1).increasing
    (listed.proper other (listed.number_of_state? otherFound).1).increasing fun key => ?_)
  rw [represents.mem_keys, otherRepresents.mem_keys]

/-- Items, one at least, that are those reached along a path of edge labels. -/
def Placed (method : Method) (g : Grammar) (items : ItemSet) : Prop :=
  ∃ path, Symbol.endMarker ∉ path ∧ items.Represents method g path ∧ items ≠ []

theorem placed_initial (method : Method) (g : Grammar) :
    Placed method g (method.initialItems g) := by
  refine ⟨[], by simp, ItemSet.represents_initial method g, ?_⟩
  intro empty
  have has : (method.initialItems g).Has (method.initialItem g) := ItemSet.closure_has (by simp)
  rw [empty] at has
  cases has

theorem Placed.goto {items : ItemSet} (placed : Placed method g items) {token : Token}
    (label : token ∈ labels g) (nonempty : items.goto g token.symbol ≠ []) :
    Placed method g (items.goto g token.symbol) := by
  obtain ⟨path, proper, represents, _⟩ := placed
  refine ⟨path ++ [token.symbol], ?_, ItemSet.represents_goto represents _, nonempty⟩
  rw [List.mem_append, not_or, List.mem_singleton]
  exact ⟨proper, fun same => (mem_labels.mp label).2.1 same.symm⟩

theorem placed_of_state? {state : State} (found : (build method g).state? source = some state) :
    Placed method g state.items :=
  build_induction (motive := fun state => Placed method g state.items) (fun _ _ placed => placed)
    (placed_initial method g) (fun _ placed _ label nonempty => placed.goto label nonempty) state
    ((growing_build method g).listed.number_of_state? found).1

theorem Leads.exists_reaches (leads : (build method g).Leads path target) :
    ∃ item, method.Reaches g path item := by
  obtain ⟨state, found, represents⟩ := leads.represents
  obtain ⟨_, _, _, nonempty⟩ := placed_of_state? found
  exact represents.exists_reaches nonempty

theorem exists_leads_to {state : State} (found : (build method g).state? source = some state) :
    ∃ path, (build method g).Leads path source := by
  obtain ⟨path, proper, represents, nonempty⟩ := placed_of_state? found
  obtain ⟨_, reaches⟩ := represents.exists_reaches nonempty
  obtain ⟨target, leads⟩ := exists_leads reaches proper
  rw [leads.eq_of_represents found represents]
  exact ⟨path, leads⟩

end ShiftReduce.Automaton
