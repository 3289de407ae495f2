import Mathlib.Data.List.Nodup
import ShiftReduce.Token

/-! What look-ups and insertions do to the keys and members of keyed and of
sorted lists. -/

namespace ShiftReduce

namespace Keyed

variable {α κ : Type} [DecidableEq κ] {key : α → κ}

theorem find?_some {k : κ} {entries : List α} {entry : α}
    (found : find? key k entries = some entry) : entry ∈ entries ∧ key entry = k :=
  ⟨List.mem_of_find?_eq_some found, by simpa using List.find?_some found⟩

theorem find?_mem {entries : List α} {entry : α} (distinct : (entries.map key).Nodup)
    (member : entry ∈ entries) : find? key (key entry) entries = some entry := by
  induction entries with
  | nil => cases member
  | cons head rest ih =>
      obtain ⟨fresh, tail⟩ := List.nodup_cons.mp distinct
      rcases List.mem_cons.mp member with rfl | later
      · simp [find?]
      · have different : key head ≠ key entry := by
          intro same
          exact fresh (same ▸ List.mem_map_of_mem later)
        have found := ih tail later
        simp only [find?] at found ⊢
        simp [different, found]

theorem map_key_insert (key : α → κ) (entry : α) (entries : List α) :
    (insert key entry entries).map key =
      if key entry ∈ entries.map key then entries.map key else entries.map key ++ [key entry] :=
  map_key_upsert key (key entry) entry id (fun _ same => same) rfl entries

theorem upsert_fresh (k : κ) (fresh : α) (update : α → α) {entries : List α}
    (absent : k ∉ entries.map key) :
    upsert key k fresh update entries = entries ++ [update fresh] := by
  induction entries with
  | nil => rfl
  | cons head rest ih =>
      simp only [List.map_cons, List.mem_cons, not_or] at absent
      have different : ¬ key head = k := fun same => absent.1 same.symm
      simp [upsert, different, ih absent.2]

theorem upsert_ne_nil (k : κ) (fresh : α) (update : α → α) (entries : List α) :
    upsert key k fresh update entries ≠ [] := by
  cases entries with
  | nil => exact List.cons_ne_nil _ _
  | cons head rest =>
      rw [upsert]
      split
      · exact List.cons_ne_nil _ _
      · exact List.cons_ne_nil _ _

theorem upsert_append {k : κ} (fresh : α) (update : α → α) {front : List α}
    (absent : k ∉ front.map key) (back : List α) :
    upsert key k fresh update (front ++ back) = front ++ upsert key k fresh update back := by
  induction front with
  | nil => rfl
  | cons head rest ih =>
      simp only [List.map_cons, List.mem_cons, not_or] at absent
      have different : ¬ key head = k := fun same => absent.1 same.symm
      simp [upsert, different, ih absent.2]

theorem insert_of_mem {entry : α} {entries : List α} (present : key entry ∈ entries.map key) :
    insert key entry entries = entries := by
  induction entries with
  | nil => cases present
  | cons head rest ih =>
      by_cases same : key head = key entry
      · simp [insert, upsert, same]
      · have later : key entry ∈ rest.map key := by
          rcases List.mem_cons.mp present with equal | later
          · exact absurd equal.symm same
          · exact later
        have kept := ih later
        simp only [insert] at kept
        simp [insert, upsert, same, kept]

theorem insert_of_not_mem {entry : α} {entries : List α} (absent : key entry ∉ entries.map key) :
    insert key entry entries = entries ++ [entry] :=
  upsert_fresh (key entry) entry id absent

theorem nodup_upsert {k : κ} {fresh : α} {update : α → α} {entries : List α}
    (kept : ∀ entry, key entry = k → key (update entry) = k) (freshKey : key fresh = k)
    (distinct : (entries.map key).Nodup) :
    ((upsert key k fresh update entries).map key).Nodup := by
  rw [map_key_upsert key k fresh update kept freshKey]
  split
  · exact distinct
  · rename_i absent
    refine List.nodup_append.mpr ⟨distinct, by simp, ?_⟩
    intro present member other single same
    exact absent (List.mem_singleton.mp single ▸ same ▸ member)

theorem nodup_insert (entry : α) {entries : List α} (distinct : (entries.map key).Nodup) :
    ((insert key entry entries).map key).Nodup :=
  nodup_upsert (fun _ same => same) rfl distinct

theorem mem_upsert {k : κ} {fresh entry : α} {update : α → α} {entries : List α}
    (member : entry ∈ upsert key k fresh update entries) :
    entry ∈ entries ∨ entry = update fresh ∨ ∃ old ∈ entries, entry = update old := by
  induction entries with
  | nil => exact Or.inr (Or.inl (List.mem_singleton.mp member))
  | cons head rest ih =>
      simp only [upsert] at member
      split at member
      · rcases List.mem_cons.mp member with updated | later
        · exact Or.inr (Or.inr ⟨head, by simp, updated⟩)
        · exact Or.inl (List.mem_cons_of_mem _ later)
      · rcases List.mem_cons.mp member with rfl | later
        · exact Or.inl List.mem_cons_self
        · rcases ih later with old | created | ⟨old, inside, updated⟩
          · exact Or.inl (List.mem_cons_of_mem _ old)
          · exact Or.inr (Or.inl created)
          · exact Or.inr (Or.inr ⟨old, List.mem_cons_of_mem _ inside, updated⟩)

theorem mem_map_insert {k : κ} {entry : α} {entries : List α} :
    k ∈ (insert key entry entries).map key ↔ k = key entry ∨ k ∈ entries.map key := by
  rw [map_key_insert]
  split
  · rename_i present
    constructor
    · exact Or.inr
    · rintro (rfl | member)
      · exact present
      · exact member
  · rw [List.mem_append, List.mem_singleton]
    exact Or.comm

theorem mem_of_mem_insert {entry other : α} {entries : List α}
    (member : other ∈ insert key entry entries) : other = entry ∨ other ∈ entries := by
  rcases mem_upsert member with old | rfl | ⟨old, inside, rfl⟩
  · exact Or.inr old
  · exact Or.inl rfl
  · exact Or.inr inside

theorem insert_eraseDups [DecidableEq α] (entry : α) (entries : List α) :
    insert id entry entries.eraseDups = (entries ++ [entry]).eraseDups := by
  rw [List.eraseDups_append]
  by_cases present : entry ∈ entries
  · rw [insert_of_mem (by simpa using present)]
    simp [List.removeAll, present]
  · rw [insert_of_not_mem (by simpa using present)]
    simp [List.removeAll, present, List.eraseDups_cons]

section Parts

variable {β : Type} (update : β → α → α)
  (kept : ∀ part entry, key (update part entry) = key entry)

include kept

theorem foldl_upsert_last (fresh last : α) (front : List α)
    (absent : key last ∉ front.map key) (parts : List β) :
    parts.foldl (fun known part => upsert key (key last) fresh (update part) known)
        (front ++ [last]) =
      front ++ [parts.foldl (fun entry part => update part entry) last] := by
  induction parts generalizing last with
  | nil => rfl
  | cons part rest ih =>
      have later := ih (update part last) (by rwa [kept])
      rw [kept] at later
      rw [List.foldl_cons, upsert_append fresh _ absent]
      simpa [upsert] using later

/-- Entries with distinct keys come out of their parts again, these added in order: each entry
is begun by its first part, and the others find it in its place. -/
theorem foldl_upsert_parts (parts : α → List β) (fresh : α → α)
    (freshKey : ∀ entry, key (fresh entry) = key entry) (known entries : List α)
    (distinct : ((known ++ entries).map key).Nodup)
    (restored : ∀ entry ∈ entries, parts entry ≠ [] ∧
      (parts entry).foldl (fun entry part => update part entry) (fresh entry) = entry) :
    entries.foldl (fun known entry => (parts entry).foldl
        (fun known part => upsert key (key entry) (fresh entry) (update part) known) known) known =
      known ++ entries := by
  induction entries generalizing known with
  | nil => simp
  | cons entry rest ih =>
      have absent : key entry ∉ known.map key := by
        rw [List.map_append, List.map_cons] at distinct
        intro member
        exact (List.nodup_append.mp distinct).2.2 _ member _ (by simp) rfl
      obtain ⟨filled, whole⟩ := restored entry (by simp)
      obtain ⟨part, more, shape⟩ := List.exists_cons_of_ne_nil filled
      have own : (parts entry).foldl
          (fun known part => upsert key (key entry) (fresh entry) (update part) known) known =
          known ++ [entry] := by
        have grown := foldl_upsert_last update kept (fresh entry) (update part (fresh entry)) known
          (by rwa [kept, freshKey]) more
        rw [kept, freshKey] at grown
        rw [shape, List.foldl_cons] at whole ⊢
        rw [upsert_fresh _ _ _ absent, grown, whole]
      rw [List.foldl_cons, own, ih (known ++ [entry]) (by simpa using distinct)
        fun other inside => restored other (by simp [inside])]
      simp

end Parts

theorem foldl_insert {entries : List α} (distinct : (entries.map key).Nodup) :
    entries.foldl (fun known entry => insert key entry known) [] = entries :=
  foldl_upsert_parts (fun (_ : Unit) entry => entry) (fun _ _ => rfl) (fun _ => [()]) id
    (fun _ => rfl) [] entries distinct (by simp)

theorem find?_perm {first second : List α} (distinct : (first.map key).Nodup)
    (perm : first.Perm second) (k : κ) : find? key k first = find? key k second := by
  refine Option.ext fun entry => ⟨fun found => ?_, fun found => ?_⟩
  · obtain ⟨member, rfl⟩ := find?_some found
    exact find?_mem ((perm.map key).nodup distinct) (perm.mem_iff.mp member)
  · obtain ⟨member, rfl⟩ := find?_some found
    exact find?_mem distinct (perm.mem_iff.mpr member)

theorem nodup_erase (k : κ) {entries : List α} (distinct : (entries.map key).Nodup) :
    ((erase key k entries).map key).Nodup :=
  distinct.sublist (List.eraseP_sublist.map key)

theorem find?_erase_self (k : κ) {entries : List α} (distinct : (entries.map key).Nodup) :
    find? key k (erase key k entries) = none := by
  induction entries with
  | nil => rfl
  | cons head rest ih =>
      obtain ⟨fresh, tail⟩ := List.nodup_cons.mp distinct
      have later := ih tail
      simp only [find?, erase] at later ⊢
      by_cases here : key head = k
      · rw [List.eraseP_cons_of_pos (by simpa using here), List.find?_eq_none]
        intro entry member same
        rw [here, ← of_decide_eq_true same] at fresh
        exact fresh (List.mem_map_of_mem member)
      · rw [List.eraseP_cons_of_neg (by simpa using here), List.find?_cons_of_neg
          (by simpa using here), later]

theorem find?_erase_of_ne {k other : κ} (different : other ≠ k) (entries : List α) :
    find? key other (erase key k entries) = find? key other entries := by
  induction entries with
  | nil => rfl
  | cons head rest ih =>
      simp only [find?, erase] at ih ⊢
      by_cases here : key head = k
      · have passed : ¬ key head = other := fun same => different (same.symm.trans here)
        rw [List.eraseP_cons_of_pos (by simpa using here), List.find?_cons_of_neg
          (by simpa using passed)]
      · rw [List.eraseP_cons_of_neg (by simpa using here), List.find?_cons, List.find?_cons, ih]

theorem filter_key {entries : List α} (distinct : (entries.map key).Nodup) (k : κ) :
    entries.filter (fun entry => key entry = k) = (find? key k entries).toList := by
  induction entries with
  | nil => rfl
  | cons head rest ih =>
      obtain ⟨fresh, tail⟩ := List.nodup_cons.mp distinct
      have later := ih tail
      by_cases here : key head = k
      · subst here
        have none : rest.filter (fun entry => key entry = key head) = [] := by
          refine List.filter_eq_nil_iff.mpr fun entry member same => fresh ?_
          rw [← of_decide_eq_true same]
          exact List.mem_map_of_mem member
        simp [find?, none]
      · simp only [find?] at later ⊢
        simp [here, later]

end Keyed

namespace Sorted

variable {α : Type} {cmp : α → α → Ordering}

theorem contains_iff {element : α} {elements : List α} :
    contains cmp element elements = true ↔ ∃ other ∈ elements, cmp element other = .eq := by
  simp [contains]

theorem mem_insert_of_mem {element other : α} {elements : List α} (member : other ∈ elements) :
    other ∈ insert cmp element elements := by
  induction elements with
  | nil => cases member
  | cons head rest ih =>
      simp only [insert]
      split
      · exact List.mem_cons_of_mem _ member
      · exact member
      · rcases List.mem_cons.mp member with rfl | later
        · simp
        · exact List.mem_cons_of_mem _ (ih later)

theorem insert_perm {element : α} {elements : List α}
    (absent : contains cmp element elements = false) :
    (insert cmp element elements).Perm (element :: elements) := by
  induction elements with
  | nil => exact List.Perm.refl _
  | cons head rest ih =>
      simp only [contains, List.any_cons, Bool.or_eq_false_iff] at absent
      simp only [insert]
      split
      · exact List.Perm.refl _
      · rename_i equal
        simp [equal] at absent
      · exact ((ih absent.2).cons head).trans (List.Perm.swap element head rest)

theorem mem_of_mem_ofList {element : α} {elements : List α}
    (member : element ∈ ofList cmp elements) : element ∈ elements := by
  induction elements with
  | nil => cases member
  | cons head rest ih =>
      rcases mem_of_mem_insert member with rfl | later
      · exact List.mem_cons_self
      · exact List.mem_cons_of_mem _ (ih later)

section Keys

variable {κ : Type} {key : α → κ} (decided : ∀ a b, cmp a b = .eq ↔ key a = key b)

include decided

theorem mem_map_insert {k : κ} {element : α} {elements : List α} :
    k ∈ (insert cmp element elements).map key ↔ k = key element ∨ k ∈ elements.map key := by
  induction elements with
  | nil => simp [insert]
  | cons head rest ih =>
      simp only [insert]
      split
      · simp
      · rename_i same
        simp [(decided _ _).mp same]
      · rw [List.map_cons, List.mem_cons, ih, List.map_cons, List.mem_cons]
        exact or_left_comm

theorem mem_map_ofList {k : κ} {elements : List α} :
    k ∈ (ofList cmp elements).map key ↔ k ∈ elements.map key := by
  induction elements with
  | nil => rfl
  | cons head rest ih =>
      have step : ofList cmp (head :: rest) = insert cmp head (ofList cmp rest) := rfl
      rw [step, mem_map_insert decided, ih, List.map_cons, List.mem_cons]

theorem ofList_perm {elements : List α} (distinct : (elements.map key).Nodup) :
    (ofList cmp elements).Perm elements := by
  induction elements with
  | nil => exact List.Perm.refl _
  | cons head rest ih =>
      obtain ⟨fresh, tail⟩ := List.nodup_cons.mp distinct
      have absent : contains cmp head (ofList cmp rest) = false := by
        rw [Bool.eq_false_iff, Ne, contains_iff]
        rintro ⟨other, member, equal⟩
        rw [(decided _ _).mp equal] at fresh
        exact fresh (List.mem_map_of_mem (mem_of_mem_ofList member))
      exact (insert_perm absent).trans ((ih tail).cons head)

end Keys

theorem Increasing.eq_of_perm [Std.OrientedCmp cmp] {first second : List α}
    (increasing : Increasing cmp first) (otherIncreasing : Increasing cmp second)
    (perm : first.Perm second) : first = second := by
  refine perm.eq_of_pairwise ?_ increasing otherIncreasing
  intro a b _ _ less greater
  rw [Std.OrientedCmp.gt_of_lt less] at greater
  cases greater

end Sorted

theorem eq_of_map_eq {α β : Type} {f : α → β} {first second : List α}
    (same : first.map f = second.map f)
    (determined : ∀ a ∈ first, ∀ b ∈ second, f a = f b → a = b) : first = second := by
  induction first generalizing second with
  | nil => exact (List.map_eq_nil_iff.mp same.symm).symm
  | cons head rest ih =>
      obtain ⟨other, others, rfl, sameHead, sameRest⟩ := List.map_eq_cons_iff.mp same.symm
      rw [determined head (by simp) other (by simp) sameHead.symm]
      rw [ih sameRest.symm fun a inFirst b inSecond =>
        determined a (by simp [inFirst]) b (by simp [inSecond])]

theorem filter_eq_singleton {α : Type} {p : α → Bool} {element : α} {elements : List α}
    (distinct : elements.Nodup) (member : element ∈ elements) (holds : p element = true)
    (only : ∀ other ∈ elements, p other = true → other = element) :
    elements.filter p = [element] := by
  refine List.perm_singleton.mp ((List.perm_ext_iff_of_nodup (distinct.filter p)
    (List.nodup_singleton element)).mpr fun other => ?_)
  rw [List.mem_filter, List.mem_singleton]
  constructor
  · exact fun inside => only other inside.1 inside.2
  · rintro rfl
    exact ⟨member, holds⟩

namespace Token

theorem cmp_eq_eq_iff (first second : Token) :
    cmp first second = .eq ↔ first.symbol = second.symbol := by
  rw [cmp, compareOn, Std.LawfulEqOrd.compare_eq_iff_eq]

theorem mem_symbols_sorted {name : Symbol} {tokens : List Token} :
    name ∈ (sorted tokens).map symbol ↔ name ∈ tokens.map symbol :=
  Sorted.mem_map_ofList cmp_eq_eq_iff

theorem nodup_symbols {tokens : List Token} (increasing : Sorted.Increasing cmp tokens) :
    (tokens.map symbol).Nodup := by
  refine List.pairwise_map.mpr (increasing.imp ?_)
  intro first second less same
  rw [(cmp_eq_eq_iff first second).mpr same] at less
  cases less

/-- Of equal tokens the last one is kept. -/
theorem find?_of_mem_sorted {token : Token} {tokens : List Token} (member : token ∈ sorted tokens) :
    tokens.reverse.find? (fun other => other.symbol = token.symbol) = some token := by
  induction tokens with
  | nil => cases member
  | cons head rest ih =>
      rw [List.reverse_cons, List.find?_append]
      by_cases kept : token ∈ sorted rest
      · rw [ih kept]
        rfl
      · obtain rfl : token = head := (Sorted.mem_of_mem_insert member).resolve_right kept
        have absent : rest.reverse.find? (fun other => other.symbol = token.symbol) = none := by
          refine List.find?_eq_none.mpr fun other inside same => kept ?_
          have known : token.symbol ∈ (sorted rest).map symbol := by
            rw [mem_symbols_sorted, ← of_decide_eq_true same]
            exact List.mem_map_of_mem (List.mem_reverse.mp inside)
          obtain ⟨twin, twinMember, sameSymbol⟩ := List.mem_map.mp known
          have twinStays : twin ∈ sorted (token :: rest) := Sorted.mem_insert_of_mem twinMember
          have increasing : Sorted.Increasing cmp (sorted (token :: rest)) :=
            Sorted.ofList_increasing _
          rwa [List.inj_on_of_nodup_map (nodup_symbols increasing) member twinStays
            sameSymbol.symm]
        rw [absent]
        simp

theorem sorted_perm {tokens : List Token} (distinct : (tokens.map symbol).Nodup) :
    (sorted tokens).Perm tokens :=
  Sorted.ofList_perm cmp_eq_eq_iff distinct

theorem sorted_congr {first second : List Token} (distinct : (first.map symbol).Nodup)
    (perm : first.Perm second) : sorted first = sorted second := by
  have otherDistinct : (second.map symbol).Nodup := (perm.map symbol).nodup distinct
  refine (Sorted.ofList_increasing first).eq_of_perm (Sorted.ofList_increasing second) ?_
  exact ((sorted_perm distinct).trans perm).trans (sorted_perm otherDistinct).symm

end Token

namespace TokenSet

theorem mem_symbols_union {symbol : Symbol} {set tokens : List Token} :
    symbol ∈ (union set tokens).map Token.symbol ↔
      symbol ∈ set.map Token.symbol ∨ symbol ∈ tokens.map Token.symbol := by
  induction tokens generalizing set with
  | nil => simp [union]
  | cons token rest ih =>
      have step : union set (token :: rest) = union (insert set token) rest := rfl
      rw [step, ih, insert, Keyed.mem_map_insert, List.map_cons, List.mem_cons]
      tauto

theorem mem_of_mem_union {token : Token} {set tokens : List Token}
    (member : token ∈ union set tokens) : token ∈ set ∨ token ∈ tokens := by
  induction tokens generalizing set with
  | nil => exact Or.inl member
  | cons head rest ih =>
      rcases ih member with inserted | later
      · rcases Keyed.mem_of_mem_insert inserted with rfl | old
        · exact Or.inr List.mem_cons_self
        · exact Or.inl old
      · exact Or.inr (List.mem_cons_of_mem _ later)

theorem insert_perm {set other : TokenSet} (perm : set.Perm other) (token : Token) :
    (insert set token).Perm (insert other token) := by
  by_cases present : token.symbol ∈ set.map Token.symbol
  · rw [insert, insert, Keyed.insert_of_mem present,
      Keyed.insert_of_mem ((perm.map Token.symbol).mem_iff.mp present)]
    exact perm
  · have absent : token.symbol ∉ other.map Token.symbol :=
      fun inside => present ((perm.map Token.symbol).mem_iff.mpr inside)
    rw [insert, insert, Keyed.insert_of_not_mem present, Keyed.insert_of_not_mem absent]
    exact perm.append_right [token]

theorem nodup_union {set : TokenSet} (tokens : List Token)
    (distinct : (set.map Token.symbol).Nodup) :
    ((union set tokens).map Token.symbol).Nodup := by
  induction tokens generalizing set with
  | nil => exact distinct
  | cons token rest ih => exact ih (Keyed.nodup_insert token distinct)

theorem subset_union (set tokens : List Token) : ∃ added, union set tokens = set ++ added := by
  induction tokens generalizing set with
  | nil => exact ⟨[], by simp [union]⟩
  | cons token rest ih =>
      obtain ⟨added, result⟩ := ih (insert set token)
      have step : union set (token :: rest) = insert set token ++ added := result
      by_cases present : token.symbol ∈ set.map Token.symbol
      · refine ⟨added, ?_⟩
        rw [step, insert, Keyed.insert_of_mem present]
      · refine ⟨token :: added, ?_⟩
        rw [step, insert, Keyed.insert_of_not_mem present]
        simp

end TokenSet

end ShiftReduce
