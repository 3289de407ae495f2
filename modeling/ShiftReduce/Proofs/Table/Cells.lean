import Mathlib.Data.List.Nodup
import ShiftReduce.Table.Lookup
import ShiftReduce.Proofs.Collections

/-! What the cells of a table hold after entries were made, and what looking
them up can give. -/

namespace ShiftReduce

namespace Row

theorem cell_add_self (row : Row) (token : Token) (action : Action) :
    Keyed.find? Cell.symbol token.symbol (row.add token action).cells =
      some (((Keyed.find? Cell.symbol token.symbol row.cells).getD { token }).add action) :=
  Keyed.find?_upsert_self Cell.symbol token.symbol { token } (·.add action) (fun _ same => same) rfl
    row.cells

theorem cell_add_of_ne (row : Row) {token : Token} {symbol : Symbol} (action : Action)
    (different : symbol ≠ token.symbol) :
    Keyed.find? Cell.symbol symbol (row.add token action).cells =
      Keyed.find? Cell.symbol symbol row.cells :=
  Keyed.find?_upsert_of_ne Cell.symbol token.symbol symbol { token } (·.add action)
    (fun _ same => same) rfl different row.cells

end Row

namespace Table

variable {table : Table} {state : StateId} {symbol : Symbol} {action : Action}

theorem row_add_self (table : Table) (entry : Entry) :
    Keyed.find? Row.state entry.state (table.add entry).rows =
      some (((Keyed.find? Row.state entry.state table.rows).getD { state := entry.state }).add
        entry.token entry.action) :=
  Keyed.find?_upsert_self Row.state entry.state { state := entry.state }
    (·.add entry.token entry.action) (fun _ same => same) rfl table.rows

theorem row_add_of_ne {entry : Entry} (different : state ≠ entry.state) :
    Keyed.find? Row.state state (table.add entry).rows = Keyed.find? Row.state state table.rows :=
  Keyed.find?_upsert_of_ne Row.state entry.state state { state := entry.state }
    (·.add entry.token entry.action) (fun _ same => same) rfl different table.rows

theorem cell?_add_self (table : Table) (entry : Entry) :
    (table.add entry).cell? entry.state entry.token.symbol =
      some (((table.cell? entry.state entry.token.symbol).getD { token := entry.token }).add
        entry.action) := by
  simp only [cell?, cells?, row_add_self, Option.map_some, Option.bind_some, Row.cell_add_self]
  cases Keyed.find? Row.state entry.state table.rows <;> rfl

theorem cell?_add_of_ne {entry : Entry}
    (different : ¬ (state = entry.state ∧ symbol = entry.token.symbol)) :
    (table.add entry).cell? state symbol = table.cell? state symbol := by
  by_cases same : state = entry.state
  · subst same
    have other : symbol ≠ entry.token.symbol := fun equal => different ⟨rfl, equal⟩
    simp only [cell?, cells?, row_add_self, Option.map_some, Option.bind_some,
      Row.cell_add_of_ne _ _ other]
    cases Keyed.find? Row.state entry.state table.rows <;> rfl
  · simp only [cell?, cells?, row_add_of_ne same]

/-- A cell depends on the entries made for it and on their order. -/
theorem cell?_addAll (table : Table) (entries : List Entry) (state : StateId) (symbol : Symbol) :
    (table.addAll entries).cell? state symbol =
      (entries.filter fun entry => entry.state = state ∧ entry.token.symbol = symbol).foldl
        (fun cell entry => some ((cell.getD { token := entry.token }).add entry.action))
        (table.cell? state symbol) := by
  induction entries generalizing table with
  | nil => rfl
  | cons entry rest ih =>
      have step : table.addAll (entry :: rest) = (table.add entry).addAll rest := rfl
      rw [step, ih]
      by_cases here : entry.state = state ∧ entry.token.symbol = symbol
      · obtain ⟨rfl, rfl⟩ := here
        rw [cell?_add_self, List.filter_cons_of_pos (by simp), List.foldl_cons]
      · rw [cell?_add_of_ne fun same => here ⟨same.1.symm, same.2.symm⟩,
          List.filter_cons_of_neg (by simpa using here)]

theorem foldl_add (token : Token) (known : List Action) (entries : List Entry) :
    entries.foldl
        (fun cell entry => some ((cell.getD { token := entry.token }).add entry.action))
        (some (Cell.mk token known.eraseDups)) =
      some (Cell.mk token (known ++ entries.map Entry.action).eraseDups) := by
  induction entries generalizing known with
  | nil => simp
  | cons entry rest ih =>
      have later := ih (known ++ [entry.action])
      rw [← Keyed.insert_eraseDups, List.append_assoc] at later
      exact later

/-- A cell keeps the token that was entered first and the actions in the order in which they
were first entered. -/
theorem cell?_ofEntries (initial : StateId) (rules : List Rule) (entries : List Entry)
    (state : StateId) (symbol : Symbol) :
    let made := entries.filter fun entry => entry.state = state ∧ entry.token.symbol = symbol
    (ofEntries initial rules entries).cell? state symbol = made.head?.map fun entry =>
      { token := entry.token, actions := (made.map Entry.action).eraseDups } := by
  intro made
  have nothing : (empty initial rules).cell? state symbol = none := rfl
  rw [ofEntries, cell?_addAll, nothing]
  change made.foldl _ none = _
  cases made with
  | nil => rfl
  | cons first rest => exact foldl_add first.token [first.action] rest

def Lists (table : Table) (state : StateId) (symbol : Symbol) (action : Action) : Prop :=
  ∃ cell, table.cell? state symbol = some cell ∧ action ∈ cell.actions

theorem mem_actions_add {cell : Cell} {added : Action} :
    action ∈ (cell.add added).actions ↔ action = added ∨ action ∈ cell.actions := by
  have keys : action ∈ (Keyed.insert id added cell.actions).map id ↔
      action = id added ∨ action ∈ cell.actions.map id := Keyed.mem_map_insert
  simpa [Cell.add] using keys

theorem nodup_actions_add {cell : Cell} (added : Action) (distinct : cell.actions.Nodup) :
    (cell.add added).actions.Nodup := by
  have keyed : (cell.actions.map id).Nodup := by simpa using distinct
  simpa [Cell.add] using Keyed.nodup_insert added keyed

theorem lists_add {entry : Entry} :
    (table.add entry).Lists state symbol action ↔ table.Lists state symbol action ∨
      entry.state = state ∧ entry.token.symbol = symbol ∧ entry.action = action := by
  by_cases here : state = entry.state ∧ symbol = entry.token.symbol
  · obtain ⟨rfl, rfl⟩ := here
    simp only [Lists, cell?_add_self, Option.some.injEq, exists_eq_left', mem_actions_add,
      true_and]
    cases table.cell? entry.state entry.token.symbol with
    | none => simp [eq_comm]
    | some cell =>
        simp only [Option.getD_some, Option.some.injEq, exists_eq_left']
        constructor
        · rintro (rfl | old)
          · exact Or.inr rfl
          · exact Or.inl old
        · rintro (old | rfl)
          · exact Or.inr old
          · exact Or.inl rfl
  · rw [Lists, cell?_add_of_ne here, ← Lists]
    constructor
    · exact Or.inl
    · rintro (old | ⟨rfl, rfl, _⟩)
      · exact old
      · exact absurd ⟨rfl, rfl⟩ here

theorem lists_addAll {entries : List Entry} :
    (table.addAll entries).Lists state symbol action ↔ table.Lists state symbol action ∨
      ∃ entry ∈ entries, entry.state = state ∧ entry.token.symbol = symbol ∧
        entry.action = action := by
  induction entries generalizing table with
  | nil => simp [addAll]
  | cons entry rest ih =>
      have step : table.addAll (entry :: rest) = (table.add entry).addAll rest := rfl
      rw [step, ih, lists_add]
      simp only [List.mem_cons, exists_eq_or_imp, or_assoc]

theorem lists_ofEntries {initial : StateId} {rules : List Rule} {entries : List Entry} :
    (ofEntries initial rules entries).Lists state symbol action ↔
      ∃ entry ∈ entries, entry.state = state ∧ entry.token.symbol = symbol ∧
        entry.action = action := by
  have nothing : ¬ (empty initial rules).Lists state symbol action := by
    rintro ⟨cell, found, _⟩
    cases found
  rw [ofEntries, lists_addAll]
  simp [nothing]

/-- Cells hold at least one action, and none twice. -/
def Tidy (table : Table) : Prop :=
  ∀ state symbol cell, table.cell? state symbol = some cell →
    cell.actions ≠ [] ∧ cell.actions.Nodup

theorem Tidy.add (tidy : table.Tidy) (entry : Entry) : (table.add entry).Tidy := by
  intro state symbol cell found
  by_cases here : state = entry.state ∧ symbol = entry.token.symbol
  · obtain ⟨rfl, rfl⟩ := here
    rw [cell?_add_self] at found
    cases found
    constructor
    · exact List.ne_nil_of_mem (mem_actions_add.mpr (Or.inl rfl))
    · apply nodup_actions_add
      cases known : table.cell? entry.state entry.token.symbol with
      | none => exact List.nodup_nil
      | some cell => exact (tidy _ _ cell known).2
  · rw [cell?_add_of_ne here] at found
    exact tidy state symbol cell found

theorem ofEntries_induction {holds : Table → Prop} {initial : StateId} {rules : List Rule}
    (start : holds (empty initial rules))
    (add : ∀ table entry, holds table → holds (table.add entry)) (entries : List Entry) :
    holds (ofEntries initial rules entries) := by
  rw [ofEntries]
  generalize empty initial rules = table at start
  induction entries generalizing table with
  | nil => exact start
  | cons entry rest ih => exact ih (table.add entry) (add table entry start)

theorem tidy_ofEntries (initial : StateId) (rules : List Rule) (entries : List Entry) :
    (ofEntries initial rules entries).Tidy := by
  refine ofEntries_induction ?_ (fun _ entry tidy => tidy.add entry) entries
  intro state symbol cell found
  cases found

/-- Rows are told apart by their states, and the cells of a row by their symbols. -/
structure Indexed (table : Table) : Prop where
  rows : (table.rows.map Row.state).Nodup
  cells : ∀ row ∈ table.rows, (row.cells.map Cell.symbol).Nodup

theorem Indexed.add (indexed : table.Indexed) (entry : Entry) : (table.add entry).Indexed := by
  refine ⟨Keyed.nodup_upsert (fun _ same => same) rfl indexed.rows, ?_⟩
  have extended (row : Row) (distinct : (row.cells.map Cell.symbol).Nodup) :
      ((row.add entry.token entry.action).cells.map Cell.symbol).Nodup :=
    Keyed.nodup_upsert (fun _ same => same) rfl distinct
  intro row member
  rcases Keyed.mem_upsert member with old | rfl | ⟨old, inside, rfl⟩
  · exact indexed.cells row old
  · exact extended _ List.nodup_nil
  · exact extended old (indexed.cells old inside)

theorem indexed_ofEntries (initial : StateId) (rules : List Rule) (entries : List Entry) :
    (ofEntries initial rules entries).Indexed := by
  refine ofEntries_induction ⟨List.nodup_nil, ?_⟩ (fun _ entry indexed => indexed.add entry) entries
  intro row member
  cases member

theorem Indexed.cell?_of_mem (indexed : table.Indexed) {row : Row} (rowMember : row ∈ table.rows)
    {cell : Cell} (member : cell ∈ row.cells) :
    table.cell? row.state cell.symbol = some cell := by
  rw [cell?, cells?, Keyed.find?_mem indexed.rows rowMember]
  exact Keyed.find?_mem (indexed.cells row rowMember) member

theorem mem_of_cell? {cell : Cell} (found : table.cell? state symbol = some cell) :
    ∃ row ∈ table.rows, row.state = state ∧ cell ∈ row.cells ∧ cell.symbol = symbol := by
  obtain ⟨cells, cellsFound, inCells⟩ := Option.bind_eq_some_iff.mp found
  obtain ⟨row, rowFound, rfl⟩ := Option.map_eq_some_iff.mp cellsFound
  obtain ⟨rowMember, same⟩ := Keyed.find?_some rowFound
  exact ⟨row, rowMember, same, Keyed.find?_some inCells⟩

theorem Indexed.mem_entries (indexed : table.Indexed) {entry : Entry} :
    entry ∈ table.entries ↔ ∃ cell, table.cell? entry.state entry.token.symbol = some cell ∧
      cell.token = entry.token ∧ entry.action ∈ cell.actions := by
  constructor
  · intro member
    obtain ⟨row, rowMember, inRow⟩ := List.mem_flatMap.mp member
    obtain ⟨cell, cellMember, inCell⟩ := List.mem_flatMap.mp inRow
    obtain ⟨action, inside, rfl⟩ := List.mem_map.mp inCell
    exact ⟨cell, indexed.cell?_of_mem rowMember cellMember, rfl, inside⟩
  · rintro ⟨cell, found, same, inside⟩
    obtain ⟨row, rowMember, sameState, member, _⟩ := mem_of_cell? found
    refine List.mem_flatMap.mpr ⟨row, rowMember, List.mem_flatMap.mpr ⟨cell, member,
      List.mem_map.mpr ⟨entry.action, inside, ?_⟩⟩⟩
    rw [sameState, same]

theorem Indexed.lists_of_entry (indexed : table.Indexed) {entry : Entry}
    (member : entry ∈ table.entries) : table.Lists entry.state entry.token.symbol entry.action := by
  obtain ⟨cell, found, _, inside⟩ := indexed.mem_entries.mp member
  exact ⟨cell, found, inside⟩

theorem nodup_entries (tidy : table.Tidy) (indexed : table.Indexed) :
    table.entries.Nodup := by
  refine List.nodup_flatMap.mpr ⟨fun row rowMember => ?_, ?_⟩
  · refine List.nodup_flatMap.mpr ⟨fun cell member => ?_, ?_⟩
    · refine (tidy _ _ cell (indexed.cell?_of_mem rowMember member)).2.map ?_
      exact fun _ _ same => (Entry.mk.inj same).2.2
    · refine (List.pairwise_map.mp (indexed.cells row rowMember)).imp fun different => ?_
      refine List.disjoint_left.mpr fun entry inFirst inSecond => different ?_
      obtain ⟨_, _, rfl⟩ := List.mem_map.mp inFirst
      obtain ⟨_, _, same⟩ := List.mem_map.mp inSecond
      rw [Cell.symbol, Cell.symbol, (Entry.mk.inj same).2.1]
  · refine (List.pairwise_map.mp indexed.rows).imp fun different => ?_
    refine List.disjoint_left.mpr fun entry inFirst inSecond => different ?_
    obtain ⟨_, _, inCell⟩ := List.mem_flatMap.mp inFirst
    obtain ⟨_, _, otherCell⟩ := List.mem_flatMap.mp inSecond
    obtain ⟨_, _, rfl⟩ := List.mem_map.mp inCell
    obtain ⟨_, _, same⟩ := List.mem_map.mp otherCell
    exact (Entry.mk.inj same).1.symm

theorem entry_of_lists (lists : table.Lists state symbol action) :
    ∃ entry ∈ table.entries, entry.state = state ∧ entry.token.symbol = symbol ∧
      entry.action = action := by
  obtain ⟨cell, found, inside⟩ := lists
  obtain ⟨row, rowMember, sameState, member, sameSymbol⟩ := mem_of_cell? found
  refine ⟨{ state := row.state, token := cell.token, action }, ?_, sameState, sameSymbol, rfl⟩
  exact List.mem_flatMap.mpr ⟨row, rowMember, List.mem_flatMap.mpr ⟨cell, member,
    List.mem_map_of_mem inside⟩⟩

theorem mem_conflicts {cell : Cell} (found : table.cell? state symbol = some cell)
    (several : 1 < cell.actions.length) : (state, cell) ∈ table.conflicts := by
  obtain ⟨row, rowMember, rfl, member, _⟩ := mem_of_cell? found
  refine List.mem_flatMap.mpr ⟨row, rowMember, List.mem_map.mpr ⟨cell, ?_, rfl⟩⟩
  exact List.mem_filter.mpr ⟨member, by simpa using several⟩

theorem Indexed.mem_conflicts_iff (indexed : table.Indexed) {cell : Cell} :
    (state, cell) ∈ table.conflicts ↔
      table.cell? state cell.symbol = some cell ∧ 1 < cell.actions.length := by
  constructor
  · intro conflict
    obtain ⟨row, rowMember, inRow⟩ := List.mem_flatMap.mp conflict
    obtain ⟨other, inside, same⟩ := List.mem_map.mp inRow
    cases same
    obtain ⟨member, several⟩ := List.mem_filter.mp inside
    exact ⟨indexed.cell?_of_mem rowMember member, by simpa using several⟩
  · rintro ⟨found, several⟩
    exact mem_conflicts found several

theorem nodup_conflicts (indexed : table.Indexed) : table.conflicts.Nodup := by
  refine List.nodup_flatMap.mpr ⟨fun row member => ?_, ?_⟩
  · have cells : row.cells.Nodup := (indexed.cells row member).of_map
    refine (cells.filter _).map fun first second same => ?_
    exact (Prod.mk.inj same).2
  · refine (List.pairwise_map.mp indexed.rows).imp fun different => ?_
    refine List.disjoint_left.mpr fun conflict inFirst inSecond => different ?_
    obtain ⟨_, _, rfl⟩ := List.mem_map.mp inFirst
    obtain ⟨_, _, same⟩ := List.mem_map.mp inSecond
    exact (Prod.mk.inj same).1.symm

theorem actions?_of_lists (tidy : table.Tidy) (lists : table.Lists state symbol action)
    (alone : ∀ other, table.Lists state symbol other → other = action) :
    table.actions? state symbol = some [action] := by
  obtain ⟨cell, found, member⟩ := lists
  have distinct := (tidy state symbol cell found).2
  have copies : cell.actions = List.replicate cell.actions.length action :=
    List.eq_replicate_of_mem fun other inside => alone other ⟨cell, found, inside⟩
  have least := List.length_pos_of_mem member
  rw [copies] at distinct
  have most := List.nodup_replicate.mp distinct
  have count : cell.actions.length = 1 := by omega
  rw [actions?, found, Option.map_some, copies, count]
  rfl

theorem actions?_of_pair (tidy : table.Tidy) {first second : Action} (different : first ≠ second)
    (firstLists : table.Lists state symbol first) (secondLists : table.Lists state symbol second)
    (only : ∀ other, table.Lists state symbol other → other = first ∨ other = second) :
    ∃ actions, table.actions? state symbol = some actions ∧ actions.Perm [first, second] := by
  obtain ⟨cell, found, member⟩ := firstLists
  obtain ⟨again, foundAgain, otherMember⟩ := secondLists
  cases found.symm.trans foundAgain
  refine ⟨cell.actions, by rw [actions?, found]; rfl, ?_⟩
  refine (List.perm_ext_iff_of_nodup (tidy state symbol cell found).2 (by simpa using different)).mpr
    fun action => ?_
  simp only [List.mem_cons, List.not_mem_nil, or_false]
  constructor
  · exact fun inside => only action ⟨cell, found, inside⟩
  · rintro (rfl | rfl)
    · exact member
    · exact otherMember

theorem lookup_of_actions? {token : Token}
    (single : table.actions? state token.symbol = some [action]) :
    table.lookup state token = .ok (some action) := by
  obtain ⟨cell, found, actions⟩ := Option.map_eq_some_iff.mp single
  simp [lookup, found, Cell.resolve, actions]

theorem lookup_of_lists (settled : table.conflicts = []) {token : Token}
    (lists : table.Lists state token.symbol action) :
    table.lookup state token = .ok (some action) := by
  obtain ⟨cell, found, member⟩ := lists
  apply lookup_of_actions?
  rw [actions?, found, Option.map_some, Option.some.injEq]
  cases shape : cell.actions with
  | nil =>
      rw [shape] at member
      cases member
  | cons first rest =>
      cases rest with
      | nil =>
          rw [shape] at member
          rw [List.mem_singleton.mp member]
      | cons second others =>
          have conflict := mem_conflicts found (by rw [shape]; simp)
          rw [settled] at conflict
          cases conflict

theorem lookup_none (tidy : table.Tidy) {token : Token}
    (nothing : ∀ action, ¬ table.Lists state token.symbol action) :
    table.lookup state token = .ok none := by
  cases found : table.cell? state token.symbol with
  | none => simp only [lookup, found]
  | some cell =>
      obtain ⟨action, inside⟩ := List.exists_mem_of_ne_nil _ (tidy _ _ cell found).1
      exact absurd ⟨cell, found, inside⟩ (nothing action)

/-- A table has no conflicts exactly if no state has two actions on a symbol. -/
theorem conflicts_eq_nil_iff (tidy : table.Tidy) (indexed : table.Indexed) :
    table.conflicts = [] ↔ ∀ state symbol first second, table.Lists state symbol first →
      table.Lists state symbol second → first = second := by
  constructor
  · intro settled state symbol first second firstLists secondLists
    have firstFound : table.lookup state { symbol } = .ok (some first) :=
      lookup_of_lists settled firstLists
    have secondFound : table.lookup state { symbol } = .ok (some second) :=
      lookup_of_lists settled secondLists
    cases firstFound.symm.trans secondFound
    rfl
  · intro single
    refine List.eq_nil_iff_forall_not_mem.mpr ?_
    rintro ⟨state, cell⟩ conflict
    obtain ⟨found, several⟩ := indexed.mem_conflicts_iff.mp conflict
    have distinct := (tidy _ _ cell found).2
    cases shape : cell.actions with
    | nil => simp [shape] at several
    | cons first rest =>
        cases rest with
        | nil => simp [shape] at several
        | cons second others =>
            have same := single state cell.symbol first second
              ⟨cell, found, by rw [shape]; simp⟩ ⟨cell, found, by rw [shape]; simp⟩
            rw [shape, same] at distinct
            simp at distinct

theorem Indexed.mem_cells (indexed : table.Indexed) {cell : Cell} :
    cell ∈ (table.cells? state).getD [] ↔ table.cell? state cell.symbol = some cell := by
  constructor
  · intro member
    cases cellsFound : table.cells? state with
    | none => simp [cellsFound] at member
    | some cells =>
        rw [cellsFound, Option.getD_some] at member
        obtain ⟨row, rowFound, rfl⟩ := Option.map_eq_some_iff.mp cellsFound
        obtain ⟨rowMember, rfl⟩ := Keyed.find?_some rowFound
        exact indexed.cell?_of_mem rowMember member
  · intro found
    obtain ⟨cells, cellsFound, inCells⟩ := Option.bind_eq_some_iff.mp found
    rw [cellsFound, Option.getD_some]
    exact (Keyed.find?_some inCells).1

theorem Indexed.nodup_cells (indexed : table.Indexed) (state : StateId) :
    (((table.cells? state).getD []).map Cell.symbol).Nodup := by
  cases cellsFound : table.cells? state with
  | none => exact List.nodup_nil
  | some cells =>
      obtain ⟨row, rowFound, rfl⟩ := Option.map_eq_some_iff.mp cellsFound
      exact indexed.cells row (Keyed.find?_some rowFound).1

theorem Indexed.nodup_terminals (indexed : table.Indexed) (state : StateId) :
    (((((table.cells? state).getD []).map Cell.token).filter Token.isTerminal).map
      Token.symbol).Nodup := by
  refine List.Nodup.sublist (List.filter_sublist.map _) ?_
  rw [List.map_map]
  exact indexed.nodup_cells state

theorem Indexed.mem_expectedTokens (indexed : table.Indexed) {token : Token} :
    token ∈ table.expectedTokens state ↔ token.isTerminal = true ∧
      ∃ cell, table.cell? state token.symbol = some cell ∧ cell.token = token := by
  rw [expectedTokens, (Token.sorted_perm (indexed.nodup_terminals state)).mem_iff,
    List.mem_filter, List.mem_map, and_comm]
  refine and_congr_right fun _ => exists_congr fun cell => ?_
  rw [indexed.mem_cells]
  refine and_congr_left ?_
  rintro rfl
  rfl

theorem mem_expectedTokens (tidy : table.Tidy) (indexed : table.Indexed) :
    symbol ∈ (table.expectedTokens state).map Token.symbol ↔
      symbol.isTerminal = true ∧ ∃ action, table.Lists state symbol action := by
  constructor
  · intro member
    obtain ⟨token, inside, rfl⟩ := List.mem_map.mp member
    obtain ⟨terminal, cell, found, _⟩ := indexed.mem_expectedTokens.mp inside
    obtain ⟨action, inside⟩ := List.exists_mem_of_ne_nil _ (tidy _ _ cell found).1
    exact ⟨terminal, action, cell, found, inside⟩
  · rintro ⟨terminal, action, cell, found, _⟩
    obtain ⟨_, _, _, _, rfl⟩ := mem_of_cell? found
    exact List.mem_map_of_mem (indexed.mem_expectedTokens.mpr ⟨terminal, cell, found, rfl⟩)

theorem expectedTokens_congr {other : Table} (indexed : table.Indexed)
    (otherIndexed : other.Indexed) {state : StateId}
    (same : ∀ symbol, table.cell? state symbol = other.cell? state symbol) :
    table.expectedTokens state = other.expectedTokens state := by
  have distinct := indexed.nodup_cells state
  have otherDistinct := otherIndexed.nodup_cells state
  have perm : ((table.cells? state).getD []).Perm ((other.cells? state).getD []) := by
    refine (List.perm_ext_iff_of_nodup (List.Nodup.of_map _ distinct)
      (List.Nodup.of_map _ otherDistinct)).mpr fun cell => ?_
    rw [indexed.mem_cells, otherIndexed.mem_cells, same]
  exact Token.sorted_congr (indexed.nodup_terminals state) ((perm.map Cell.token).filter _)

theorem actions_of_shiftReduce? {actions : List Action} {target : StateId} {rule : RuleId}
    (pair : shiftReduce? actions = some (target, rule)) :
    .shift target ∈ actions ∧ .reduce rule ∈ actions := by
  unfold shiftReduce? at pair
  split at pair
  · cases pair
    simp
  · cases pair
    simp
  · cases pair

theorem lists_of_lookup {token : Token} (result : table.lookup state token = .ok (some action)) :
    table.Lists state token.symbol action := by
  unfold lookup at result
  split at result
  · cases result
  · rename_i cell found
    refine ⟨cell, found, ?_⟩
    unfold Cell.resolve at result
    split at result
    · cases result
    · rename_i only shape
      cases result
      rw [shape]
      simp
    · split at result
      · rename_i target rule assoc pair _
        obtain ⟨shift, reduce⟩ := actions_of_shiftReduce? pair
        cases result
        split
        · exact reduce
        · exact shift
      · cases result

theorem conflict_of_lookup_error {token : Token} {error : Error}
    (result : table.lookup state token = .error error) :
    ∃ declared actions, error = .unresolvableConflict declared actions := by
  unfold lookup at result
  split at result
  · cases result
  · rename_i cell found
    unfold Cell.resolve at result
    split at result
    · cases result
    · cases result
    · split at result
      · cases result
      · cases result
        exact ⟨_, _, rfl⟩

theorem rules_empty (initial : StateId) {rules : List Rule} (distinct : (rules.map Rule.id).Nodup) :
    (empty initial rules).rules = rules := by
  have append (known : List Rule) (fresh : ((known ++ rules).map Rule.id).Nodup) :
      rules.foldl (fun known rule => Keyed.replace Rule.id rule known) known = known ++ rules := by
    induction rules generalizing known with
    | nil => simp
    | cons rule rest ih =>
        have absent : rule.id ∉ known.map Rule.id := by
          rw [List.map_append, List.map_cons] at fresh
          intro member
          exact (List.nodup_append.mp fresh).2.2 rule.id member rule.id (by simp) rfl
        have placed : Keyed.replace Rule.id rule known = known ++ [rule] :=
          Keyed.upsert_fresh rule.id rule (fun _ => rule) absent
        rw [List.foldl_cons, placed, ih (List.nodup_cons.mp distinct).2 (known ++ [rule])
          (by simpa using fresh)]
        simp
  exact append [] (by simpa using distinct)

theorem rules_addAll (table : Table) (entries : List Entry) :
    (table.addAll entries).rules = table.rules := by
  induction entries generalizing table with
  | nil => rfl
  | cons entry rest ih => exact ih (table.add entry)

theorem initial_addAll (table : Table) (entries : List Entry) :
    (table.addAll entries).initial = table.initial := by
  induction entries generalizing table with
  | nil => rfl
  | cons entry rest ih => exact ih (table.add entry)

end Table

end ShiftReduce
