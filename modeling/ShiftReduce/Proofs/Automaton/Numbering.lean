import Mathlib.Data.List.Shortlex
import ShiftReduce.Proofs.Automaton.Reachable

/-! States are numbered in the order of their least paths, by length and then symbol by
symbol. The edges, in the order in which they are found, are ordered by source and
label, and the first one to a state comes before all edges to later states. So a
least path to the source of that edge, with its label, is a least path to the state. -/

namespace ShiftReduce

/-- Paths are ordered by length and, where that is the same, symbol by symbol. -/
abbrev PathLess : List Symbol → List Symbol → Prop :=
  List.Shortlex fun first second => compare first second = .lt

namespace PathLess

variable {path other : List Symbol} {symbol next : Symbol}

theorem concat (less : PathLess path other) (symbol next : Symbol) :
    PathLess (path ++ [symbol]) (other ++ [next]) := by
  rcases List.shortlex_def.mp less with shorter | ⟨lengths, lex⟩
  · exact List.Shortlex.of_length_lt (by simpa using shorter)
  · refine List.Shortlex.of_lex (by simpa using lengths) ?_
    clear less
    induction lex with
    | nil => simp at lengths
    | cons _ ih => exact .cons (ih (by simpa using lengths))
    | rel first => exact .rel first

theorem concat_left (path : List Symbol) (less : compare symbol next = .lt) :
    PathLess (path ++ [symbol]) (path ++ [next]) :=
  List.Shortlex.append_left ((List.shortlex_singleton_iff symbol next).mpr less) path

theorem asymm (less : PathLess path other) : ¬ PathLess other path := by
  have oriented : Std.Asymm fun first second : Symbol => compare first second = .lt :=
    ⟨fun first second before after => by
      rw [Std.OrientedCmp.gt_of_lt before] at after
      cases after⟩
  exact List.Shortlex.asymm.asymm path other less

end PathLess

namespace Automaton

variable {method : Method} {g : Grammar} {a : Automaton} {size number source : StateId}
  {edges : List (StateId × Edge)}

/-- Among the edges listed, one that comes from an earlier state is the first to lead to this
state or a later one. -/
def Introduced (edges : List (StateId × Edge)) (number : StateId) : Prop :=
  ∃ before source edge after, edges = before ++ (source, edge) :: after ∧
    edge.target = number ∧ source < number ∧ ∀ entry ∈ before, entry.2.target < number

theorem Introduced.append (introduced : Introduced edges number)
    (more : List (StateId × Edge)) : Introduced (edges ++ more) number := by
  obtain ⟨before, source, edge, after, rfl, rest⟩ := introduced
  exact ⟨before, source, edge, after ++ more, by simp, rest⟩

/-- The edges listed lead to the first states only, and introduce all of these but the
initial one. -/
structure Traced (size : Nat) (edges : List (StateId × Edge)) : Prop where
  bounded : ∀ entry ∈ edges, entry.2.target ≤ size
  introduced : ∀ number, StateId.initial < number → number ≤ size → Introduced edges number

theorem Traced.known (traced : Traced size edges) {edge : Edge} (known : edge.target ≤ size)
    (source : StateId) : Traced size (edges ++ [(source, edge)]) := by
  refine ⟨?_, fun number fresh bound => (traced.introduced number fresh bound).append _⟩
  intro entry member
  rcases List.mem_append.mp member with old | new
  · exact traced.bounded entry old
  · rw [List.mem_singleton.mp new]
    exact known

theorem Traced.fresh (traced : Traced size edges) {edge : Edge} (next : edge.target = size + 1)
    (explored : source ≤ size) : Traced (size + 1) (edges ++ [(source, edge)]) := by
  constructor
  · intro entry member
    rcases List.mem_append.mp member with old | new
    · exact Nat.le_succ_of_le (traced.bounded entry old)
    · rw [List.mem_singleton.mp new]
      exact Nat.le_of_eq next
  · intro number above bound
    by_cases last : number = size + 1
    · subst last
      exact ⟨edges, source, edge, [], rfl, next, Nat.lt_succ_of_le explored,
        fun entry member => Nat.lt_succ_of_le (traced.bounded entry member)⟩
    · have earlier : number ≤ size := Nat.le_of_lt_succ (Nat.lt_of_le_of_ne bound last)
      exact (traced.introduced number above earlier).append _

theorem Traced.intern (listed : a.Listed g) (traced : Traced a.states.length edges)
    (explored : source ≤ a.states.length) (state : State) (token : Token) :
    Traced (a.intern state).2.states.length
      (edges ++ [(source, { token, target := (a.intern state).1 })]) := by
  unfold Automaton.intern
  split
  · rename_i number found
    obtain ⟨known, atNumber, _⟩ := listed.find?_some found
    refine traced.known ?_ source
    cases number with
    | zero => exact Nat.zero_le _
    | succ index => exact (List.getElem?_eq_some_iff.mp atNumber).1
  · rw [List.length_append, List.length_singleton]
    exact traced.fresh rfl explored

theorem Traced.explore {items : ItemSet} (proper : items.Proper g) (listed : a.Listed g)
    (traced : Traced a.states.length edges) (explored : source ≤ a.states.length)
    (tokens : List Token) :
    Traced (explore g items a tokens).2.states.length
      (edges ++ (explore g items a tokens).1.map fun edge => (source, edge)) := by
  induction tokens generalizing a edges with
  | nil => simpa [Automaton.explore] using traced
  | cons token rest ih =>
      simp only [Automaton.explore]
      split
      · exact ih listed traced explored
      · have nextProper : (State.ofClosed g (items.goto g token.symbol)).items.Proper g :=
          proper.goto token.symbol
        have grown := (extends_intern a (State.ofClosed g (items.goto g token.symbol))).1.length_le
        have further := ih (listed.intern nextProper) (traced.intern listed explored _ token)
          (explored.trans grown)
        simpa using further

theorem allEdges_concat (a : Automaton) (row : List Edge) :
    allEdges { a with transitions := a.transitions ++ [row] } =
      a.allEdges ++ row.map fun edge => (a.transitions.length + 1, edge) := by
  simp [allEdges, List.zipIdx_append, Nat.add_comm]

theorem Growing.traced (growing : Growing method g a) (traced : Traced a.states.length a.allEdges)
    (fuel : Nat) :
    Traced (Automaton.discover g fuel a).states.length
      (Automaton.discover g fuel a).allEdges := by
  induction fuel generalizing a with
  | zero => exact traced
  | succ fuel ih =>
      simp only [Automaton.discover]
      split
      · exact traced
      · rename_i state next
        have proper := growing.listed.proper state (List.mem_of_getElem? next)
        obtain ⟨_, extended, _⟩ := explore_spec proper (labels g) growing.listed
        have bound := (List.getElem?_eq_some_iff.mp next).1
        refine ih (growing.explore next) ?_
        rw [allEdges_concat]
        have same : (Automaton.explore g state.items a (labels g)).2.allEdges = a.allEdges := by
          rw [allEdges, extended.2, allEdges]
        rw [same, extended.2]
        exact traced.explore proper growing.listed bound (labels g)

theorem traced_build (method : Method) (g : Grammar) :
    Traced (build method g).size (build method g).allEdges := by
  refine (growing_start method g).traced ⟨?_, ?_⟩ (stateLimit g)
  · intro entry member
    cases member
  · intro number above bound
    exact absurd bound (Nat.not_le_of_gt above)

theorem mem_rows {row : List Edge} :
    (row, source) ∈ a.transitions.zipIdx 1 ↔ a.edges? source = some row := by
  rw [List.mem_zipIdx_iff_le_and_getElem?_sub]
  cases source with
  | zero => simp [edges?]
  | succ index => simp [edges?]

theorem mem_allEdges {edge : Edge} :
    (source, edge) ∈ a.allEdges ↔ ∃ row, a.edges? source = some row ∧ edge ∈ row := by
  simp only [allEdges, List.mem_flatMap, Prod.exists, List.mem_map, Prod.mk.injEq]
  constructor
  · rintro ⟨row, _, member, _, inside, rfl, rfl⟩
    exact ⟨row, mem_rows.mp member, inside⟩
  · rintro ⟨row, found, inside⟩
    exact ⟨row, source, mem_rows.mpr found, edge, inside, rfl, rfl⟩

/-- Edges are found source by source, and label by label from each of them. -/
def Precedes (first second : StateId × Edge) : Prop :=
  first.1 < second.1 ∨
    first.1 = second.1 ∧ compare first.2.token.symbol second.2.token.symbol = .lt

theorem exists_edgesTo {row : List Edge} (found : (build method g).edges? source = some row) :
    ∃ state : State, EdgesTo g state.items (labels g) (build method g) row := by
  cases source with
  | zero => cases found
  | succ index =>
      obtain ⟨state, _, edgesTo⟩ := (growing_build method g).explored index row found
      exact ⟨state, edgesTo⟩

theorem allEdges_ordered (method : Method) (g : Grammar) :
    (build method g).allEdges.Pairwise Precedes := by
  rw [allEdges, List.pairwise_flatMap]
  constructor
  · rintro ⟨row, number⟩ member
    obtain ⟨_, edgesTo⟩ := exists_edgesTo (mem_rows.mp member)
    have labelled := g.tokens_increasing.sublist (edgesTo.labelled.trans List.filter_sublist)
    rw [List.pairwise_map] at labelled ⊢
    exact labelled.imp fun less => Or.inr ⟨rfl, less⟩
  · have numbers : ((build method g).transitions.zipIdx 1).Pairwise
        fun first second => first.2 < second.2 := by
      rw [← List.pairwise_map (f := Prod.snd) (R := (· < ·)), List.zipIdx_map_snd]
      exact List.pairwise_lt_range'
    refine numbers.imp fun less first inFirst second inSecond => Or.inl ?_
    obtain ⟨_, _, rfl⟩ := List.mem_map.mp inFirst
    obtain ⟨_, _, rfl⟩ := List.mem_map.mp inSecond
    exact less

theorem target?_iff_mem {target : StateId} {symbol : Symbol} :
    (build method g).target? source symbol = some target ↔
      ∃ edge, (source, edge) ∈ (build method g).allEdges ∧ edge.token.symbol = symbol ∧
        edge.target = target := by
  constructor
  · intro found
    obtain ⟨edge, edgeFound, rfl⟩ := Option.map_eq_some_iff.mp found
    obtain ⟨row, rowFound, inRow⟩ := Option.bind_eq_some_iff.mp edgeFound
    obtain ⟨member, same⟩ := Keyed.find?_some inRow
    exact ⟨edge, mem_allEdges.mpr ⟨row, rowFound, member⟩, same, rfl⟩
  · rintro ⟨edge, member, rfl, rfl⟩
    obtain ⟨row, rowFound, inside⟩ := mem_allEdges.mp member
    obtain ⟨_, edgesTo⟩ := exists_edgesTo rowFound
    rw [target?, rowFound, Option.bind_some, Keyed.find?_mem edgesTo.symbols_nodup inside]
    rfl

theorem exists_introducing (above : StateId.initial < number)
    (bound : number ≤ (build method g).size) :
    ∃ source symbol, source < number ∧
      (build method g).target? source symbol = some number ∧
      ∀ other next target, number ≤ target →
        (build method g).target? other next = some target →
        source < other ∨ source = other ∧ (symbol = next ∨ compare symbol next = .lt) := by
  obtain ⟨before, source, edge, after, shape, leads, earlier, passed⟩ :=
    (traced_build method g).introduced number above bound
  refine ⟨source, edge.token.symbol, earlier, target?_iff_mem.mpr ⟨edge, ?_, rfl, leads⟩, ?_⟩
  · rw [shape]
    simp
  · intro other next target far found
    obtain ⟨found, member, rfl, rfl⟩ := target?_iff_mem.mp found
    have ordered := allEdges_ordered method g
    rw [shape, List.pairwise_append] at ordered
    rw [shape] at member
    -- Before the first edge to the state, edges led to earlier states only.
    rcases List.mem_append.mp member with inBefore | rest
    · exact absurd (passed _ inBefore) (Nat.not_lt_of_ge far)
    · rcases List.mem_cons.mp rest with same | inAfter
      · cases same
        exact Or.inr ⟨rfl, Or.inl rfl⟩
      · rcases (List.pairwise_cons.mp ordered.2.1).1 _ inAfter with sources | ⟨same, labels⟩
        · exact Or.inl sources
        · exact Or.inr ⟨same, Or.inr labels⟩

theorem bounds_of_state? {state : State} (found : a.state? number = some state) :
    0 < number ∧ number ≤ a.size := by
  cases number with
  | zero => cases found
  | succ index => exact ⟨Nat.succ_pos index, (List.getElem?_eq_some_iff.mp found).1⟩

theorem exists_leads_first (above : 0 < number) (bound : number ≤ (build method g).size) :
    ∃ path, (build method g).Leads path number ∧
      ∀ other target, number ≤ target → (build method g).Leads other target →
        path = other ∨ PathLess path other := by
  -- Paths to later states are compared as well, as back edges may come from any of them.
  induction number using Nat.strongRecOn with
  | ind number ih =>
      by_cases first : number = StateId.initial
      · subst first
        refine ⟨[], Leads.start, fun other _ _ _ => ?_⟩
        exact (List.shortlex_nil_or_eq_nil other).symm.imp_left Eq.symm
      · have later : StateId.initial < number := Nat.lt_of_le_of_ne above (Ne.symm first)
        obtain ⟨source, symbol, earlier, edge, foremost⟩ := exists_introducing later bound
        obtain ⟨_, _, _, sourceFound, _⟩ := target?_spec edge
        obtain ⟨positive, inside⟩ := bounds_of_state? sourceFound
        obtain ⟨path, leads, least⟩ := ih source earlier positive inside
        refine ⟨path ++ [symbol], leads.step edge, fun other target far toTarget => ?_⟩
        cases toTarget with
        | start => exact absurd far (Nat.not_le_of_gt later)
        | @step front origin _ next toOrigin last =>
            -- The last edge comes no earlier than the one that introduced the state.
            rcases foremost origin next target far last with sources | ⟨rfl, labels⟩
            · rcases least front origin (Nat.le_of_lt sources) toOrigin with rfl | less
              · exact absurd (leads.unique toOrigin) (Nat.ne_of_lt sources)
              · exact Or.inr (less.concat symbol next)
            · rcases least front source (Nat.le_refl source) toOrigin with rfl | less
              · rcases labels with rfl | smaller
                · exact Or.inl rfl
                · exact Or.inr (PathLess.concat_left path smaller)
              · exact Or.inr (less.concat symbol next)

/-- A path to the state that comes before every other one. -/
def LeastPath (a : Automaton) (number : StateId) (path : List Symbol) : Prop :=
  a.Leads path number ∧ ∀ other, a.Leads other number → path = other ∨ PathLess path other

theorem exists_leastPath {state : State} (found : (build method g).state? number = some state) :
    ∃ path, (build method g).LeastPath number path := by
  obtain ⟨above, bound⟩ := bounds_of_state? found
  obtain ⟨path, leads, least⟩ := exists_leads_first above bound
  exact ⟨path, leads, fun other => least other number (Nat.le_refl number)⟩

theorem LeastPath.before {path other : List Symbol} {target : StateId}
    (leastPath : (build method g).LeastPath number path) (far : number ≤ target)
    (leads : (build method g).Leads other target) : path = other ∨ PathLess path other := by
  obtain ⟨_, found, _⟩ := leastPath.1.represents
  obtain ⟨above, bound⟩ := bounds_of_state? found
  obtain ⟨foremost, foremostLeads, least⟩ := exists_leads_first above bound
  obtain rfl : path = foremost := by
    rcases leastPath.2 foremost foremostLeads with same | less
    · exact same
    · rcases least path number (Nat.le_refl number) leastPath.1 with same | greater
      · exact same.symm
      · exact absurd greater less.asymm
  exact least other target far leads

/-- Every state has a least path, and the states are numbered in the order of these. -/
theorem build_numbering (method : Method) (g : Grammar) :
    (∀ number state, (build method g).state? number = some state →
      ∃ path, (build method g).LeastPath number path) ∧
    ∀ first second path other, (build method g).LeastPath first path →
      (build method g).LeastPath second other → (first < second ↔ PathLess path other) := by
  refine ⟨fun _ _ => exists_leastPath, fun first second path other least otherLeast => ?_⟩
  constructor
  · intro earlier
    rcases least.before (Nat.le_of_lt earlier) otherLeast.1 with rfl | less
    · exact absurd (least.1.unique otherLeast.1) (Nat.ne_of_lt earlier)
    · exact less
  · intro less
    by_contra later
    rcases otherLeast.before (Nat.le_of_not_lt later) least.1 with rfl | greater
    · exact less.asymm less
    · exact less.asymm greater

end Automaton

end ShiftReduce
