/-! Lists whose entries are told apart by a key and kept in the order in which
their keys first came up. Updating an entry leaves it where it is; an entry
with a new key goes to the end. -/

namespace ShiftReduce.Keyed

variable {α κ : Type} [DecidableEq κ]

def find? (key : α → κ) (k : κ) (entries : List α) : Option α :=
  entries.find? fun entry => key entry = k

/-- Updates the entry with the given key, taking `fresh` for it if there is none yet. -/
def upsert (key : α → κ) (k : κ) (fresh : α) (update : α → α) : List α → List α
  | [] => [update fresh]
  | entry :: rest =>
      if key entry = k then update entry :: rest
      else entry :: upsert key k fresh update rest

/-- Adds an entry unless its key is taken: the first entry of a key stays. -/
def insert (key : α → κ) (entry : α) (entries : List α) : List α :=
  upsert key (key entry) entry id entries

/-- Puts an entry in the place of the one with its key, or at the end. -/
def replace (key : α → κ) (entry : α) (entries : List α) : List α :=
  upsert key (key entry) entry (fun _ => entry) entries

def erase (key : α → κ) (k : κ) (entries : List α) : List α :=
  entries.eraseP fun entry => key entry = k

theorem find?_upsert_self (key : α → κ) (k : κ) (fresh : α) (update : α → α)
    (kept : ∀ entry, key entry = k → key (update entry) = k) (freshKey : key fresh = k)
    (entries : List α) :
    find? key k (upsert key k fresh update entries) =
      some (update ((find? key k entries).getD fresh)) := by
  induction entries with
  | nil => simp [find?, upsert, kept fresh freshKey]
  | cons entry rest ih =>
      simp only [find?] at ih ⊢
      by_cases same : key entry = k
      · simp [upsert, same, kept entry same]
      · simp [upsert, same, ih]

theorem find?_upsert_of_ne (key : α → κ) (k other : κ) (fresh : α) (update : α → α)
    (kept : ∀ entry, key entry = k → key (update entry) = k) (freshKey : key fresh = k)
    (different : other ≠ k) (entries : List α) :
    find? key other (upsert key k fresh update entries) = find? key other entries := by
  induction entries with
  | nil =>
      have distinct : key (update fresh) ≠ other := by
        rw [kept fresh freshKey]
        exact fun same => different same.symm
      simp [find?, upsert, distinct]
  | cons entry rest ih =>
      simp only [find?] at ih ⊢
      by_cases same : key entry = k
      · have before : ¬ key entry = other := fun equal => different (equal.symm.trans same)
        have after : ¬ key (update entry) = other :=
          fun equal => different (equal.symm.trans (kept entry same))
        simp only [upsert, if_pos same, List.find?_cons, decide_eq_false before,
          decide_eq_false after]
      · simp only [upsert, if_neg same, List.find?_cons, ih]

theorem map_key_upsert (key : α → κ) (k : κ) (fresh : α) (update : α → α)
    (kept : ∀ entry, key entry = k → key (update entry) = k) (freshKey : key fresh = k)
    (entries : List α) :
    (upsert key k fresh update entries).map key =
      if k ∈ entries.map key then entries.map key else entries.map key ++ [k] := by
  induction entries with
  | nil => simp [upsert, kept fresh freshKey]
  | cons entry rest ih =>
      by_cases same : key entry = k
      · simp [upsert, same, kept entry same]
      · have other : k ≠ key entry := fun equal => same equal.symm
        simp only [upsert, same, if_false, List.map_cons, ih, List.mem_cons, other, false_or]
        split <;> rfl

end ShiftReduce.Keyed
