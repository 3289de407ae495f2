import ShiftReduce.Proofs.Table.Associativity

/-! What a look-up gives, read off the entries that were made. Only those for its cell count:
the distinct actions among them are the candidates, and the first of them declares the token. -/

namespace ShiftReduce

namespace Entry

/-- The entries made for the cell of a state and a symbol, in order. -/
def forCell (state : StateId) (symbol : Symbol) (entries : List Entry) : List Entry :=
  entries.filter fun entry => entry.state = state ∧ entry.token.symbol = symbol

/-- The token of the first of these entries: later ones with its symbol do not replace it. -/
def declared? (state : StateId) (symbol : Symbol) (entries : List Entry) : Option Token :=
  (forCell state symbol entries).head?.map token

/-- The distinct actions of these entries, in the order in which they first came up. -/
def candidates (state : StateId) (symbol : Symbol) (entries : List Entry) : List Action :=
  ((forCell state symbol entries).map action).eraseDups

theorem candidates_eq_nil {state : StateId} {symbol : Symbol} {entries : List Entry} :
    candidates state symbol entries = [] ↔ declared? state symbol entries = none := by
  rw [candidates, declared?]
  cases forCell state symbol entries with
  | nil => simp
  | cons first rest => simp [List.eraseDups_cons]

end Entry

theorem shiftReduce?_iff_perm {actions : List Action} {target : StateId} {rule : RuleId} :
    shiftReduce? actions = some (target, rule) ↔
      actions.Perm [.shift target, .reduce rule] := by
  refine ⟨fun pair => ?_, shiftReduce?_of_perm⟩
  unfold shiftReduce? at pair
  split at pair
  · cases pair
    exact List.Perm.refl _
  · cases pair
    exact List.Perm.swap _ _ []
  · cases pair

namespace Cell

variable {cell : Cell} {input : Token}

theorem resolve_single {action : Action} (single : cell.actions = [action]) :
    cell.resolve input = .ok (some action) := by
  rw [resolve, single]

theorem resolve_ne_none (filled : cell.actions ≠ []) : cell.resolve input ≠ .ok none := by
  unfold resolve
  split
  · rename_i nothing
    exact absurd nothing filled
  · simp
  · split <;> simp

theorem resolve_unsettled (several : 1 < cell.actions.length)
    (unsettled : ∀ target rule, cell.actions.Perm [.shift target, .reduce rule] →
      cell.assocFor input = none) :
    cell.resolve input = .error (.unresolvableConflict cell.token cell.actions) := by
  unfold resolve
  split
  · rename_i nothing
    simp [nothing] at several
  · rename_i single
    simp [single] at several
  · split
    · rename_i target rule assoc pair associates
      rw [unsettled target rule (shiftReduce?_iff_perm.mp pair)] at associates
      cases associates
    · rfl

end Cell

namespace Table

section Entered

variable (initial : StateId) (rules : List Rule)

/-- A cell holds the token entered first for it and the candidates. -/
theorem cell?_entered (entries : List Entry) (state : StateId) (symbol : Symbol) :
    (ofEntries initial rules entries).cell? state symbol =
      (Entry.declared? state symbol entries).map fun token =>
        { token, actions := Entry.candidates state symbol entries } := by
  rw [Entry.declared?, Option.map_map]
  exact cell?_ofEntries initial rules entries state symbol

variable {entries : List Entry} {state : StateId} {token : Token}

theorem lookup_absent (absent : Entry.declared? state token.symbol entries = none) :
    (ofEntries initial rules entries).lookup state token = .ok none := by
  rw [lookup, cell?_entered, absent]
  rfl

theorem lookup_entered {declared : Token}
    (first : Entry.declared? state token.symbol entries = some declared) :
    (ofEntries initial rules entries).lookup state token =
      Cell.resolve ⟨declared, Entry.candidates state token.symbol entries⟩ token := by
  rw [lookup, cell?_entered, first]
  rfl

theorem lookup_congr {others : List Entry}
    (same : Entry.forCell state token.symbol others = Entry.forCell state token.symbol entries) :
    (ofEntries initial rules others).lookup state token =
      (ofEntries initial rules entries).lookup state token := by
  simp only [lookup, cell?_entered, Entry.declared?, Entry.candidates, same]

end Entered

/-- A look-up finds nothing exactly if nothing was entered for its cell, and takes an action
that is the only candidate. One shift against one reduction falls by the associativity of the
token entered first, or else of the token looked up. Any other choice is refused, with that
first token and all candidates in order. Entries for other cells do not matter. -/
theorem lookup_policy (initial : StateId) (rules : List Rule) (entries : List Entry)
    (state : StateId) (token : Token) :
    let actions := Entry.candidates state token.symbol entries
    let result := (ofEntries initial rules entries).lookup state token
    (result = .ok none ↔ actions = []) ∧
    (∀ action, actions = [action] → result = .ok (some action)) ∧
    (∀ declared, Entry.declared? state token.symbol entries = some declared →
      (∀ target rule assoc, actions.Perm [.shift target, .reduce rule] →
        (declared.assoc <|> token.assoc) = some assoc →
        result = .ok (some (assoc.choice target rule))) ∧
      (1 < actions.length →
        (∀ target rule, actions.Perm [.shift target, .reduce rule] →
          (declared.assoc <|> token.assoc) = none) →
        result = .error (.unresolvableConflict declared actions))) ∧
    ∀ others,
      Entry.forCell state token.symbol others = Entry.forCell state token.symbol entries →
      (ofEntries initial rules others).lookup state token = result := by
  intro actions result
  refine ⟨?_, ?_, ?_, fun others same => lookup_congr initial rules same⟩
  · cases first : Entry.declared? state token.symbol entries with
    | none =>
        exact iff_of_true (lookup_absent initial rules first) (Entry.candidates_eq_nil.mpr first)
    | some declared =>
        have filled : actions ≠ [] := by simp [actions, Entry.candidates_eq_nil, first]
        have found : result = _ := lookup_entered initial rules first
        rw [found]
        exact iff_of_false (Cell.resolve_ne_none filled) filled
  · intro action single
    cases first : Entry.declared? state token.symbol entries with
    | none => cases (Entry.candidates_eq_nil.mpr first).symm.trans single
    | some declared =>
        exact (lookup_entered initial rules first).trans (Cell.resolve_single single)
  · intro declared first
    have found : result = Cell.resolve ⟨declared, actions⟩ token :=
      lookup_entered initial rules first
    refine ⟨fun target rule assoc pair associates => ?_, fun several unsettled => ?_⟩
    · have settled : Cell.resolve ⟨declared, actions⟩ token = _ := Cell.resolve_pair pair token
      rw [found, settled, Cell.assocFor, associates]
    · exact found.trans (Cell.resolve_unsettled several unsettled)

/-- The first `+` entered has no associativity, so that of the input decides; the one entered
later does not count. -/
example :
    (ofEntries 1 [] [⟨3, .terminal "+", .reduce 2⟩, ⟨4, .operator "+" .right, .accept⟩,
      ⟨3, .operator "+" .right, .shift 5⟩]).lookup 3 (.operator "+" .left) =
      .ok (some (.reduce 2)) := by
  decide

end Table

end ShiftReduce
