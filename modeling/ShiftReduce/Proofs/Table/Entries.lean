import ShiftReduce.Proofs.Table.Resolution

/-! A table and its entries. However the entries for different cells are interleaved when they
are made, listing them groups them by state and symbol, and the groups give the table back. -/

namespace ShiftReduce

/-- What tells entries apart: the payload of the token does not count. -/
def Entry.key (entry : Entry) : StateId × Symbol × Action :=
  (entry.state, entry.token.symbol, entry.action)

theorem Entry.key_eq_iff {entry : Entry} {key : StateId × Symbol × Action} :
    entry.key = key ↔
      entry.state = key.1 ∧ entry.token.symbol = key.2.1 ∧ entry.action = key.2.2 := by
  simp [Entry.key, Prod.ext_iff]

theorem Cell.foldl_add_actions {cell : Cell} (distinct : cell.actions.Nodup) :
    cell.actions.foldl Cell.add { token := cell.token } = cell := by
  have inner : cell.actions.foldl Cell.add (Cell.mk cell.token []) = Cell.mk cell.token
      (cell.actions.foldl (fun known action => Keyed.insert id action known) []) :=
    List.foldl_hom (Cell.mk cell.token) fun _ _ => rfl
  rw [inner, Keyed.foldl_insert (by simpa using distinct)]

namespace Row

variable {row : Row}

def entries (row : Row) : List Entry :=
  row.cells.flatMap fun cell =>
    cell.actions.map fun action => { state := row.state, token := cell.token, action }

theorem state_of_mem_entries {entry : Entry} (member : entry ∈ row.entries) :
    entry.state = row.state := by
  obtain ⟨_, _, inCell⟩ := List.mem_flatMap.mp member
  obtain ⟨_, _, rfl⟩ := List.mem_map.mp inCell
  rfl

theorem entries_ne_nil (filled : row.cells ≠ [])
    (inhabited : ∀ cell ∈ row.cells, cell.actions ≠ []) : row.entries ≠ [] := by
  obtain ⟨cell, member⟩ := List.exists_mem_of_ne_nil _ filled
  obtain ⟨action, inside⟩ := List.exists_mem_of_ne_nil _ (inhabited cell member)
  exact List.ne_nil_of_mem (List.mem_flatMap.mpr ⟨cell, member, List.mem_map_of_mem inside⟩)

theorem foldl_add_entries (distinct : (row.cells.map Cell.symbol).Nodup)
    (tidy : ∀ cell ∈ row.cells, cell.actions ≠ [] ∧ cell.actions.Nodup) :
    row.entries.foldl (fun row entry => row.add entry.token entry.action)
      { state := row.state } = row := by
  have inner : row.entries.foldl (fun row entry => row.add entry.token entry.action)
      (Row.mk row.state []) = Row.mk row.state (row.entries.foldl (fun cells entry =>
        Keyed.upsert Cell.symbol entry.token.symbol { token := entry.token } (·.add entry.action)
          cells) []) :=
    List.foldl_hom (Row.mk row.state) fun _ _ => rfl
  have cells := Keyed.foldl_upsert_parts (fun action cell => cell.add action) (fun _ _ => rfl)
    Cell.actions (fun cell => { token := cell.token }) (fun _ => rfl) [] row.cells distinct
    fun cell member => ⟨(tidy cell member).1, Cell.foldl_add_actions (tidy cell member).2⟩
  simp only [entries, List.foldl_flatMap, List.foldl_map] at inner ⊢
  rw [inner]
  exact congrArg (Row.mk row.state) cells

end Row

namespace Table

variable {table : Table}

/-- Every row has a cell: a row is begun by an entry. -/
def Filled (table : Table) : Prop :=
  ∀ row ∈ table.rows, row.cells ≠ []

theorem Filled.add (filled : table.Filled) (entry : Entry) : (table.add entry).Filled := by
  intro row member
  rcases Keyed.mem_upsert member with old | rfl | ⟨old, inside, rfl⟩
  · exact filled row old
  · exact Keyed.upsert_ne_nil _ _ _ _
  · exact Keyed.upsert_ne_nil _ _ _ _

theorem filled_ofEntries (initial : StateId) (rules : List Rule) (entries : List Entry) :
    (ofEntries initial rules entries).Filled := by
  refine ofEntries_induction ?_ (fun _ entry filled => filled.add entry) entries
  intro row member
  cases member

theorem rows_addAll (table : Table) (entries : List Entry) :
    (table.addAll entries).rows = entries.foldl (fun rows entry =>
      Keyed.upsert Row.state entry.state { state := entry.state }
        (·.add entry.token entry.action) rows) table.rows :=
  (List.foldl_hom Table.rows fun _ _ => rfl).symm

theorem rows_addAll_entries (tidy : table.Tidy) (indexed : table.Indexed) (filled : table.Filled)
    {bare : Table} (blank : bare.rows = []) : (bare.addAll table.entries).rows = table.rows := by
  have cellsTidy : ∀ row ∈ table.rows, ∀ cell ∈ row.cells,
      cell.actions ≠ [] ∧ cell.actions.Nodup :=
    fun row rowMember cell member => tidy _ _ cell (indexed.cell?_of_mem rowMember member)
  have restored : ∀ row ∈ table.rows, row.entries ≠ [] ∧
      row.entries.foldl (fun row entry => row.add entry.token entry.action)
        { state := row.state } = row := by
    intro row member
    refine ⟨Row.entries_ne_nil (filled row member) fun cell inside => ?_, ?_⟩
    · exact (cellsTidy row member cell inside).1
    · exact Row.foldl_add_entries (indexed.cells row member) (cellsTidy row member)
  have rows := Keyed.foldl_upsert_parts (fun entry row => row.add entry.token entry.action)
    (fun _ _ => rfl) Row.entries (fun row => { state := row.state }) (fun _ => rfl) [] table.rows
    indexed.rows restored
  have grouped : table.entries = table.rows.flatMap Row.entries := rfl
  -- The entries of one row all carry its state, so they are added to one row.
  rw [rows_addAll, blank, grouped, List.foldl_flatMap]
  refine Eq.trans (List.foldl_ext _ _ _ fun known row _ => ?_) rows
  exact List.foldl_ext _ _ _ fun known entry member => by rw [Row.state_of_mem_entries member]

theorem addAll_eq (table : Table) (entries : List Entry) :
    table.addAll entries = { table with rows := (table.addAll entries).rows } := by
  rw [← initial_addAll table entries, ← rules_addAll table entries]

/-- Adding the entries of a table in the order in which it lists them makes it again. -/
theorem ofEntries_entries (initial : StateId) (rules : List Rule) (entries : List Entry) :
    ofEntries initial rules (ofEntries initial rules entries).entries =
      ofEntries initial rules entries := by
  have rows : ((empty initial rules).addAll (ofEntries initial rules entries).entries).rows =
      (ofEntries initial rules entries).rows :=
    rows_addAll_entries (tidy_ofEntries initial rules entries)
      (indexed_ofEntries initial rules entries) (filled_ofEntries initial rules entries) rfl
  rw [ofEntries, addAll_eq, rows, ofEntries, ← addAll_eq]

theorem nodup_rules_empty (initial : StateId) (rules : List Rule) :
    ((empty initial rules).rules.map Rule.id).Nodup := by
  have kept (known : List Rule) (distinct : (known.map Rule.id).Nodup) :
      ((rules.foldl (fun known rule => Keyed.replace Rule.id rule known) known).map
        Rule.id).Nodup := by
    induction rules generalizing known with
    | nil => exact distinct
    | cons rule rest ih => exact ih _ (Keyed.nodup_upsert (fun _ _ => rfl) rfl distinct)
  exact kept [] List.nodup_nil

theorem empty_ofEntries (initial : StateId) (rules : List Rule) (entries : List Entry) :
    empty (ofEntries initial rules entries).initial (ofEntries initial rules entries).rules =
      empty initial rules := by
  rw [ofEntries, initial_addAll, rules_addAll]
  have same := rules_empty initial (nodup_rules_empty initial rules)
  exact congrArg (fun known => Table.mk initial known []) same

theorem mem_keys (indexed : table.Indexed) {key : StateId × Symbol × Action} :
    key ∈ table.entries.map Entry.key ↔ table.Lists key.1 key.2.1 key.2.2 := by
  constructor
  · intro member
    obtain ⟨entry, inside, rfl⟩ := List.mem_map.mp member
    exact indexed.lists_of_entry inside
  · intro lists
    obtain ⟨entry, inside, same⟩ := entry_of_lists lists
    exact List.mem_map.mpr ⟨entry, inside, Entry.key_eq_iff.mpr same⟩

theorem nodup_keys (tidy : table.Tidy) (indexed : table.Indexed) :
    (table.entries.map Entry.key).Nodup := by
  refine (nodup_entries tidy indexed).map_on fun first firstMember second secondMember same => ?_
  obtain ⟨cell, found, token, _⟩ := indexed.mem_entries.mp firstMember
  obtain ⟨other, otherFound, otherToken, _⟩ := indexed.mem_entries.mp secondMember
  obtain ⟨state, symbol, action⟩ := Entry.key_eq_iff.mp same
  simp only [Entry.key] at state symbol action
  rw [state, symbol, otherFound] at found
  cases found
  cases first
  cases second
  simp only at state token otherToken action
  rw [state, ← token, otherToken, action]

theorem mem_keys_add (indexed : table.Indexed) (entry : Entry) {key : StateId × Symbol × Action} :
    key ∈ (table.add entry).entries.map Entry.key ↔
      key = entry.key ∨ key ∈ table.entries.map Entry.key := by
  rw [mem_keys (indexed.add entry), lists_add, mem_keys indexed, or_comm, ← Entry.key_eq_iff,
    eq_comm]

theorem holds_iff (indexed : table.Indexed) {entry : Entry} :
    table.holds entry = true ↔ entry.key ∈ table.entries.map Entry.key := by
  rw [mem_keys indexed, holds, actions?, Lists, Entry.key]
  cases table.cell? entry.state entry.token.symbol <;> simp

theorem length_entries_add (tidy : table.Tidy) (indexed : table.Indexed) (entry : Entry) :
    (table.add entry).entries.length = table.entries.length + (table.insert entry).1.toNat := by
  have distinct := nodup_keys tidy indexed
  have addedDistinct := nodup_keys (tidy.add entry) (indexed.add entry)
  cases held : table.holds entry with
  | true =>
      have same : ((table.add entry).entries.map Entry.key).Perm (table.entries.map Entry.key) := by
        refine (List.perm_ext_iff_of_nodup addedDistinct distinct).mpr fun key => ?_
        rw [mem_keys_add indexed, or_iff_right_of_imp]
        rintro rfl
        exact (holds_iff indexed).mp held
      simpa [insert, held] using same.length_eq
  | false =>
      have fresh : entry.key ∉ table.entries.map Entry.key := by
        rw [← holds_iff indexed, held]
        exact Bool.false_ne_true
      have more : ((table.add entry).entries.map Entry.key).Perm
          (entry.key :: table.entries.map Entry.key) := by
        refine (List.perm_ext_iff_of_nodup addedDistinct
          (List.nodup_cons.mpr ⟨fresh, distinct⟩)).mpr fun key => ?_
        rw [mem_keys_add indexed, List.mem_cons]
      simpa [insert, held] using more.length_eq

/-- Makes entries one after another and says of each whether it was new. -/
def insertAll (table : Table) : List Entry → List Bool × Table
  | [] => ([], table)
  | entry :: rest =>
      let (isNew, next) := table.insert entry
      let (others, last) := insertAll next rest
      (isNew :: others, last)

theorem insertAll_table (table : Table) (entries : List Entry) :
    (table.insertAll entries).2 = table.addAll entries := by
  induction entries generalizing table with
  | nil => rfl
  | cons entry rest ih => exact ih (table.add entry)

theorem count_insertAll (tidy : table.Tidy) (indexed : table.Indexed) (entries : List Entry) :
    (table.insertAll entries).1.count true + table.entries.length =
      (table.addAll entries).entries.length := by
  induction entries generalizing table with
  | nil => simp [insertAll, addAll]
  | cons entry rest ih =>
      have later := ih (tidy.add entry) (indexed.add entry)
      rw [length_entries_add tidy indexed] at later
      have first : (table.insertAll (entry :: rest)).1 =
          (table.insert entry).1 :: ((table.add entry).insertAll rest).1 := rfl
      have step : table.addAll (entry :: rest) = (table.add entry).addAll rest := rfl
      rw [first, step, ← later]
      cases (table.insert entry).1 with
      | false => simp
      | true =>
          rw [List.count_cons_self, Bool.toNat_true]
          omega

theorem cell?_entered_iff {initial : StateId} {rules : List Rule} {entries : List Entry}
    {state : StateId} {symbol : Symbol} {cell : Cell} :
    (ofEntries initial rules entries).cell? state symbol = some cell ↔
      Entry.declared? state symbol entries = some cell.token ∧
        Entry.candidates state symbol entries = cell.actions := by
  rw [cell?_entered, Option.map_eq_some_iff]
  constructor
  · rintro ⟨token, first, rfl⟩
    exact ⟨first, rfl⟩
  · rintro ⟨first, actions⟩
    exact ⟨cell.token, first, by rw [actions]⟩

/-- The entries a table lists are those that were made, each once whatever the payload of its
token, under the token entered first for their cell; so many were new when they were made. They
make the table again. Conflicts are the cells with several candidates, and the tokens expected
in a state are the terminals with entries there. -/
theorem entries_rebuild (initial : StateId) (rules : List Rule) (entries : List Entry) :
    let table := ofEntries initial rules entries
    let calls := (empty initial rules).insertAll entries
    (table.entries.map Entry.key).Nodup ∧
    (∀ key, key ∈ table.entries.map Entry.key ↔ key ∈ entries.map Entry.key) ∧
    (∀ entry ∈ table.entries,
      Entry.declared? entry.state entry.token.symbol entries = some entry.token) ∧
    calls.2 = table ∧ calls.1.count true = table.entries.length ∧
    ofEntries initial rules table.entries = table ∧
    ofEntries table.initial table.rules table.entries = table ∧
    (ofEntries initial rules table.entries).entries = table.entries ∧
    table.conflicts.Nodup ∧
    (∀ state cell, (state, cell) ∈ table.conflicts ↔
      Entry.declared? state cell.symbol entries = some cell.token ∧
        Entry.candidates state cell.symbol entries = cell.actions ∧ 2 ≤ cell.actions.length) ∧
    ∀ state, Sorted.Increasing Token.cmp (table.expectedTokens state) ∧
      ∀ token, token ∈ table.expectedTokens state ↔
        token.isTerminal = true ∧ Entry.declared? state token.symbol entries = some token := by
  intro table calls
  have tidy : table.Tidy := tidy_ofEntries initial rules entries
  have indexed : table.Indexed := indexed_ofEntries initial rules entries
  have again : ofEntries initial rules table.entries = table :=
    ofEntries_entries initial rules entries
  refine ⟨nodup_keys tidy indexed, ?_, ?_, insertAll_table _ entries, ?_, again, ?_,
    congrArg Table.entries again, nodup_conflicts indexed, ?_, ?_⟩
  · intro key
    rw [mem_keys indexed, lists_ofEntries, List.mem_map]
    simp only [Entry.key_eq_iff]
  · intro entry member
    obtain ⟨cell, found, token, _⟩ := indexed.mem_entries.mp member
    exact token ▸ (cell?_entered_iff.mp found).1
  · exact count_insertAll (tidy_ofEntries initial rules []) (indexed_ofEntries initial rules [])
      entries
  · rw [ofEntries, empty_ofEntries]
    exact again
  · intro state cell
    rw [indexed.mem_conflicts_iff, cell?_entered_iff, and_assoc]
    exact Iff.rfl
  · refine fun state => ⟨Sorted.ofList_increasing _, fun token => ?_⟩
    rw [indexed.mem_expectedTokens]
    refine and_congr_right fun _ => ⟨?_, fun first => ?_⟩
    · rintro ⟨cell, found, rfl⟩
      exact (cell?_entered_iff.mp found).1
    · exact ⟨{ token, actions := _ }, cell?_entered_iff.mpr ⟨first, rfl⟩, rfl⟩

end Table

end ShiftReduce
