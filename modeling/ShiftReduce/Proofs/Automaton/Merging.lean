import ShiftReduce.Proofs.Automaton.GotoGraph
import ShiftReduce.Proofs.Lookahead.ValidItems
import ShiftReduce.Proofs.Table.Refinement

/-! Merging LR(1) states with the same cores gives the LR(0) automaton. In a productive
grammar no core is lost: an item reached without lookaheads is reached with some
lookahead too, so one path leads to an LR(1) state and to the LR(0) state of its cores. -/

namespace ShiftReduce

namespace ItemSet

variable {items : ItemSet} {item : Item}

/-- The rules and dots of some items, each once. -/
def cores (items : ItemSet) : ItemSet :=
  ofList (items.map Item.core)

theorem cores_increasing (items : ItemSet) : Sorted.Increasing Item.cmp (cores items) :=
  Sorted.ofList_increasing _

theorem mem_keys_cores {key : ItemKey} :
    key ∈ (cores items).keys ↔ ∃ item ∈ items, item.core.key = key := by
  have decided (a b : Item) : Item.cmp a b = .eq ↔ a.key = b.key := Item.cmp_eq_eq_iff
  rw [keys, cores, ofList, Sorted.mem_map_ofList decided, List.map_map, List.mem_map]
  rfl

theorem mem_cores : item ∈ cores items ↔ ∃ other ∈ items, other.core = item := by
  constructor
  · intro member
    exact List.mem_map.mp (Sorted.mem_of_mem_ofList member)
  · rintro ⟨other, inside, rfl⟩
    obtain ⟨found, member, same⟩ := List.mem_map.mp (mem_keys_cores.mpr ⟨other, inside, rfl⟩)
    rwa [← Item.eq_core_of_key same]

end ItemSet

namespace Method

variable {g : Grammar} {path : List Symbol} {item : Item}

/-- In a productive grammar an item can be given a lookahead. -/
theorem Reaches.exists_lr1 (productive : g.Productive) (reaches : Method.lr0.Reaches g path item) :
    ∃ other, Method.lr1.Reaches g path other ∧ other.core = item := by
  obtain ⟨rule, _, known, inRange⟩ := reaches.rule?
  obtain ⟨_, followed⟩ := reaches.followed productive
  obtain ⟨look, expects, valid⟩ := followed.valid known
  obtain ⟨other, reached, key⟩ := exists_reaches_of_valid .lr1 valid
  refine ⟨other, reached, (Item.eq_core_of_key ?_).symm⟩
  rw [reaches.key_eq known expects]
  simp only [Item.key, Prod.mk.injEq, List.length_take, rule.length_symbols,
    Nat.min_eq_left inRange] at key
  simp [Item.key, Item.core, carried, key]

end Method

namespace Automaton

variable {g : Grammar} {a : Automaton} {path : List Symbol} {state base : StateId}
  {symbol : Symbol}

theorem Leads.target?_of_concat (leads : a.Leads path state)
    (longer : a.Leads (path ++ [symbol]) base) : a.target? state symbol = some base := by
  generalize whole : path ++ [symbol] = other at longer
  cases longer with
  | start => simp at whole
  | step before edge =>
      obtain ⟨rfl, single⟩ := List.append_inj' whole rfl
      cases single
      rw [leads.unique before]
      exact edge

/-- The state of another automaton that has the cores of the items of a state. -/
def merged (fine coarse : Automaton) (state : StateId) : Option StateId :=
  (fine.state? state).bind fun found => coarse.find? { items := found.items.cores }

section Productive

variable (productive : g.Productive)

include productive

theorem Leads.exists_leads_lr1 (leads : (build .lr0 g).Leads path base) :
    ∃ state, (build .lr1 g).Leads path state := by
  obtain ⟨item, reaches⟩ := leads.exists_reaches
  obtain ⟨other, reached, _⟩ := reaches.exists_lr1 productive
  exact exists_leads reached leads.endMarker_not_mem

theorem Leads.items_eq_cores (leads : (build .lr1 g).Leads path state)
    (shared : (build .lr0 g).Leads path base) :
    ∃ source target, (build .lr1 g).state? state = some source ∧
      (build .lr0 g).state? base = some target ∧ target.items = source.items.cores := by
  obtain ⟨source, atState, represents⟩ := leads.represents
  obtain ⟨target, atBase, baseRepresents⟩ := shared.represents
  refine ⟨source, target, atState, atBase, ?_⟩
  have listed := (growing_build .lr0 g).listed
  have proper := listed.proper target (listed.number_of_state? atBase).1
  have keys : target.items.keys = source.items.cores.keys := by
    refine ItemSet.keys_eq_of_mem_iff proper.increasing (ItemSet.cores_increasing _) fun key => ?_
    rw [baseRepresents.mem_keys, ItemSet.mem_keys_cores]
    constructor
    · rintro ⟨item, reaches, rfl⟩
      obtain ⟨other, reached, rfl⟩ := reaches.exists_lr1 productive
      obtain ⟨own, member, same⟩ := List.mem_map.mp ((represents other).mpr ⟨other, rfl, reached⟩)
      exact ⟨own, member, Item.core_congr same⟩
    · rintro ⟨item, member, rfl⟩
      obtain ⟨other, same, reaches⟩ := (represents item).mp (ItemSet.has_of_mem member)
      exact ⟨other.core, reaches.core (by decide), Item.core_congr same⟩
  refine eq_of_map_eq keys fun item _ core inside same => ?_
  obtain ⟨other, _, rfl⟩ := ItemSet.mem_cores.mp inside
  exact Item.eq_core_of_key same

theorem Leads.merged_eq (leads : (build .lr1 g).Leads path state)
    (shared : (build .lr0 g).Leads path base) :
    merged (build .lr1 g) (build .lr0 g) state = some base := by
  obtain ⟨source, target, atState, atBase, same⟩ := leads.items_eq_cores productive shared
  rw [merged, atState, Option.bind_some, (growing_build .lr0 g).listed.find?_iff]
  exact ⟨target, atBase, by rw [same]⟩

theorem exists_merged_eq (base : StateId) {target : State}
    (found : (build .lr0 g).state? base = some target) :
    ∃ state source, (build .lr1 g).state? state = some source ∧
      merged (build .lr1 g) (build .lr0 g) state = some base ∧
      target.items = source.items.cores := by
  obtain ⟨path, shared⟩ := exists_leads_to found
  obtain ⟨state, leads⟩ := shared.exists_leads_lr1 productive
  obtain ⟨source, other, atState, atBase, same⟩ := leads.items_eq_cores productive shared
  obtain rfl : target = other := Option.some.inj (found.symm.trans atBase)
  exact ⟨state, source, atState, leads.merged_eq productive shared, same⟩

theorem size_lr0_le_lr1 : (build .lr0 g).size ≤ (build .lr1 g).size := by
  have listed := (growing_build .lr0 g).listed
  have covered : ∀ keys ∈ (build .lr0 g).states.map fun state => state.items.keys,
      keys ∈ (build .lr1 g).states.map fun state => state.items.cores.keys := by
    intro keys member
    obtain ⟨target, inside, rfl⟩ := List.mem_map.mp member
    obtain ⟨base, _, found⟩ := listed.state?_of_mem inside
    obtain ⟨state, source, atState, _, same⟩ := exists_merged_eq productive base found
    have sourceMember := ((growing_build .lr1 g).listed.number_of_state? atState).1
    exact List.mem_map.mpr ⟨source, sourceMember, by rw [same]⟩
  simpa [size] using (List.subperm_of_subset listed.distinct covered).length_le

theorem Leads.merged_target? (leads : (build .lr1 g).Leads path state)
    (shared : (build .lr0 g).Leads path base) (symbol : Symbol) :
    ((build .lr1 g).target? state symbol).map (merged (build .lr1 g) (build .lr0 g)) =
      ((build .lr0 g).target? base symbol).map some := by
  cases edge : (build .lr1 g).target? state symbol with
  | some next =>
      have longer := leads.step edge
      obtain ⟨other, sharedLonger⟩ := longer.exists_leads_lr0
      rw [Option.map_some, longer.merged_eq productive sharedLonger,
        shared.target?_of_concat sharedLonger, Option.map_some]
  | none =>
      cases baseEdge : (build .lr0 g).target? base symbol with
      | none => rfl
      | some other =>
          obtain ⟨next, longer⟩ := (shared.step baseEdge).exists_leads_lr1 productive
          cases edge.symm.trans (leads.target?_of_concat longer)

end Productive

/-- Taking the cores of their items maps the LR(1) states onto the LR(0) states of a
productive grammar. The map keeps the initial state and final states and commutes
with the edges, so there are no fewer LR(1) states. -/
theorem lr1_merges_onto_lr0 (productive : g.Productive) :
    let fine := build .lr1 g
    let coarse := build .lr0 g
    (∀ state source, fine.state? state = some source → ∃ base target,
      merged fine coarse state = some base ∧ coarse.state? base = some target ∧
        target.items = source.items.cores ∧ target.isFinal = source.isFinal) ∧
    (∀ base target, coarse.state? base = some target → ∃ state source,
      fine.state? state = some source ∧ merged fine coarse state = some base ∧
        target.items = source.items.cores) ∧
    merged fine coarse .initial = some .initial ∧
    (∀ state base, merged fine coarse state = some base → ∀ symbol,
      (fine.target? state symbol).map (merged fine coarse) =
        (coarse.target? base symbol).map some) ∧
    coarse.size ≤ fine.size := by
  intro fine coarse
  refine ⟨?_, exists_merged_eq productive, Leads.start.merged_eq productive Leads.start, ?_,
    size_lr0_le_lr1 productive⟩
  · intro state source found
    obtain ⟨path, leads⟩ := exists_leads_to found
    obtain ⟨base, shared⟩ := leads.exists_leads_lr0
    obtain ⟨other, target, atState, atBase, same⟩ := leads.items_eq_cores productive shared
    obtain rfl : source = other := Option.some.inj (found.symm.trans atState)
    refine ⟨base, target, leads.merged_eq productive shared, atBase, same, ?_⟩
    have member := ((growing_build .lr1 g).listed.number_of_state? found).1
    have baseMember := ((growing_build .lr0 g).listed.number_of_state? atBase).1
    rw [Bool.eq_iff_iff, isFinal_iff member, isFinal_iff baseMember, same]
    simp only [ItemSet.mem_cores, exists_exists_and_eq_and, Item.isAccepting_core]
  · intro state base same
    obtain ⟨source, found, _⟩ := Option.bind_eq_some_iff.mp same
    obtain ⟨path, leads⟩ := exists_leads_to found
    obtain ⟨other, shared⟩ := leads.exists_leads_lr0
    obtain rfl : base = other :=
      Option.some.inj (same.symm.trans (leads.merged_eq productive shared))
    exact leads.merged_target? productive shared

/-- An LR(1) state of the calculator has the dot after `E +` and before the products,
and it is merged into the eighth LR(0) state. -/
theorem lr1_merges_onto_lr0_sum :
    ∃ state source, (build .lr1 Calculator.grammar).state? state = some source ∧
      merged (build .lr1 Calculator.grammar) (build .lr0 Calculator.grammar) state = some 8 ∧
      source.items.cores.map (fun item => (item.rule, item.dot)) =
        [(1, 2), (4, 0), (5, 0), (6, 0), (7, 0), (8, 0)] := by
  have found : ((build .lr0 Calculator.grammar).state? 8).map
      (fun target => target.items.map fun item => (item.rule, item.dot)) =
        some [(1, 2), (4, 0), (5, 0), (6, 0), (7, 0), (8, 0)] := by
    decide +kernel
  obtain ⟨target, atBase, shape⟩ := Option.map_eq_some_iff.mp found
  obtain ⟨_, onto, _⟩ := lr1_merges_onto_lr0 Calculator.grammar_productive
  obtain ⟨state, source, atState, image, same⟩ := onto 8 target atBase
  exact ⟨state, source, atState, image, same ▸ shape⟩

end Automaton

end ShiftReduce
