import Mathlib.Data.List.Nodup
import Mathlib.Data.List.Perm.Subperm
import ShiftReduce.Grammar.Sets
import ShiftReduce.Proofs.Collections

/-! Families of token sets under inclusion conditions. Repeated passes end in
the least family above the seed that satisfies all conditions. -/

namespace ShiftReduce

namespace Family

variable {family : Family}

def Has (family : Family) (symbol member : Symbol) : Prop :=
  ∃ tokens, family.get? symbol = some tokens ∧ member ∈ tokens.map Token.symbol

theorem get?_extend_self (family : Family) (symbol : Symbol) (tokens : List Token) :
    (family.extend symbol tokens).get? symbol =
      some (TokenSet.union ((family.get? symbol).getD []) tokens) := by
  have found := Keyed.find?_upsert_self Prod.fst symbol (symbol, [])
    (fun entry : Symbol × TokenSet => (entry.1, TokenSet.union entry.2 tokens))
    (fun _ same => same) rfl family
  rw [get?, extend, found, get?]
  cases Keyed.find? Prod.fst symbol family <;> rfl

theorem get?_extend_of_ne {symbol other : Symbol} (tokens : List Token)
    (different : other ≠ symbol) :
    (family.extend symbol tokens).get? other = family.get? other := by
  have found := Keyed.find?_upsert_of_ne Prod.fst symbol other (symbol, [])
    (fun entry : Symbol × TokenSet => (entry.1, TokenSet.union entry.2 tokens))
    (fun _ same => same) rfl different family
  rw [get?, extend, found, get?]

theorem has_iff_getD {symbol member : Symbol} :
    family.Has symbol member ↔ member ∈ ((family.get? symbol).getD []).map Token.symbol := by
  unfold Has
  cases family.get? symbol <;> simp

theorem has_extend {symbol other member : Symbol} {tokens : List Token} :
    (family.extend symbol tokens).Has other member ↔
      family.Has other member ∨ other = symbol ∧ member ∈ tokens.map Token.symbol := by
  by_cases same : other = symbol
  · subst same
    rw [has_iff_getD, has_iff_getD, get?_extend_self, Option.getD_some,
      TokenSet.mem_symbols_union]
    simp
  · rw [has_iff_getD, has_iff_getD, get?_extend_of_ne tokens same]
    simp [same]

theorem size_cons (entry : Symbol × TokenSet) (rest : Family) :
    size (entry :: rest) = entry.2.length + size rest := rfl

theorem size_le_extend (family : Family) (symbol : Symbol) (tokens : List Token) :
    size family ≤ size (family.extend symbol tokens) := by
  induction family with
  | nil => exact Nat.zero_le _
  | cons entry rest ih =>
      simp only [extend, Keyed.upsert]
      split
      · obtain ⟨added, result⟩ := TokenSet.subset_union entry.2 tokens
        simp only [size_cons, result, List.length_append]
        omega
      · simp only [extend] at ih
        simp only [size_cons]
        omega

theorem has_of_size_extend {symbol member : Symbol} {tokens : List Token}
    (same : size (family.extend symbol tokens) = size family)
    (added : member ∈ tokens.map Token.symbol) : family.Has symbol member := by
  rw [has_iff_getD]
  induction family with
  | nil =>
      exfalso
      have joined : member ∈ (TokenSet.union [] tokens).map Token.symbol :=
        TokenSet.mem_symbols_union.mpr (Or.inr added)
      have empty : (TokenSet.union [] tokens).length = 0 := by
        simpa [extend, Keyed.upsert, size] using same
      rw [List.length_eq_zero_iff.mp empty] at joined
      cases joined
  | cons entry rest ih =>
      by_cases here : entry.1 = symbol
      · have grown : size ((entry.1, TokenSet.union entry.2 tokens) :: rest) =
            size (entry :: rest) := by
          simpa [extend, Keyed.upsert, here] using same
        obtain ⟨extra, result⟩ := TokenSet.subset_union entry.2 tokens
        have none : extra = [] := by
          simp only [size_cons, result, List.length_append] at grown
          exact List.length_eq_zero_iff.mp (by omega)
        have joined : member ∈ (TokenSet.union entry.2 tokens).map Token.symbol :=
          TokenSet.mem_symbols_union.mpr (Or.inr added)
        rw [result, none, List.append_nil] at joined
        simpa [get?, Keyed.find?, here] using joined
      · have tail : size (extend rest symbol tokens) = size rest := by
          simp only [extend, Keyed.upsert, here, if_false, size_cons] at same
          simp only [extend]
          omega
        have found := ih tail
        simpa [get?, Keyed.find?, here] using found

/-- Sets of symbols of an alphabet without repetition, one for each of some of its symbols. -/
structure Within (alphabet : List Symbol) (family : Family) : Prop where
  keys_nodup : (family.map Prod.fst).Nodup
  keys_mem : ∀ symbol ∈ family.map Prod.fst, symbol ∈ alphabet
  sets_nodup : ∀ entry ∈ family, (entry.2.map Token.symbol).Nodup
  sets_mem : ∀ entry ∈ family, ∀ token ∈ entry.2, token.symbol ∈ alphabet

theorem size_le_mul {bound : Nat} (small : ∀ entry ∈ family, entry.2.length ≤ bound) :
    size family ≤ family.length * bound := by
  induction family with
  | nil => exact Nat.zero_le _
  | cons entry rest ih =>
      have head := small entry (by simp)
      have tail := ih fun other member => small other (by simp [member])
      rw [size_cons, List.length_cons, Nat.add_mul, Nat.one_mul]
      omega

theorem Within.size_le {alphabet : List Symbol} (within : family.Within alphabet) :
    size family ≤ alphabet.length * alphabet.length := by
  have keys : family.length ≤ alphabet.length := by
    simpa using (List.subperm_of_subset within.keys_nodup within.keys_mem).length_le
  have sets : ∀ entry ∈ family, entry.2.length ≤ alphabet.length := by
    intro entry member
    have inside : ∀ symbol ∈ entry.2.map Token.symbol, symbol ∈ alphabet := by
      intro symbol symbolMember
      obtain ⟨token, tokenMember, rfl⟩ := List.mem_map.mp symbolMember
      exact within.sets_mem entry member token tokenMember
    simpa using (List.subperm_of_subset (within.sets_nodup entry member) inside).length_le
  calc
    size family ≤ family.length * alphabet.length := size_le_mul sets
    _ ≤ alphabet.length * alphabet.length := Nat.mul_le_mul_right _ keys

theorem mem_extend {symbol : Symbol} {tokens : List Token} {entry : Symbol × TokenSet}
    (member : entry ∈ family.extend symbol tokens) :
    entry ∈ family ∨ entry = (symbol, TokenSet.union [] tokens) ∨
      ∃ old ∈ family, entry = (old.1, TokenSet.union old.2 tokens) := by
  induction family with
  | nil => exact Or.inr (Or.inl (by simpa [extend, Keyed.upsert] using member))
  | cons head rest ih =>
      simp only [extend, Keyed.upsert] at member
      split at member
      · rcases List.mem_cons.mp member with equal | later
        · exact Or.inr (Or.inr ⟨head, by simp, equal⟩)
        · exact Or.inl (by simp [later])
      · rcases List.mem_cons.mp member with equal | later
        · exact Or.inl (by simp [equal])
        · rcases ih later with old | fresh | ⟨old, oldMember, equal⟩
          · exact Or.inl (by simp [old])
          · exact Or.inr (Or.inl fresh)
          · exact Or.inr (Or.inr ⟨old, by simp [oldMember], equal⟩)

theorem keys_extend (family : Family) (symbol : Symbol) (tokens : List Token) :
    (family.extend symbol tokens).map Prod.fst =
      if symbol ∈ family.map Prod.fst then family.map Prod.fst
      else family.map Prod.fst ++ [symbol] :=
  Keyed.map_key_upsert Prod.fst symbol (symbol, [])
    (fun entry : Symbol × TokenSet => (entry.1, TokenSet.union entry.2 tokens))
    (fun _ same => same) rfl family

theorem Within.extend {alphabet : List Symbol} {symbol : Symbol} {tokens : List Token}
    (within : family.Within alphabet) (inside : symbol ∈ alphabet)
    (tokensInside : ∀ token ∈ tokens, token.symbol ∈ alphabet) :
    (family.extend symbol tokens).Within alphabet := by
  have unionInside (set : TokenSet) (setInside : ∀ token ∈ set, token.symbol ∈ alphabet) :
      ∀ token ∈ TokenSet.union set tokens, token.symbol ∈ alphabet := by
    intro token member
    rcases TokenSet.mem_symbols_union.mp (List.mem_map_of_mem member) with old | new
    · obtain ⟨other, otherMember, same⟩ := List.mem_map.mp old
      exact same ▸ setInside other otherMember
    · obtain ⟨other, otherMember, same⟩ := List.mem_map.mp new
      exact same ▸ tokensInside other otherMember
  refine ⟨?_, ?_, ?_, ?_⟩
  · rw [keys_extend]
    split
    · exact within.keys_nodup
    · rename_i absent
      refine List.nodup_append.mpr ⟨within.keys_nodup, by simp, ?_⟩
      intro present member other single same
      exact absent (List.mem_singleton.mp single ▸ same ▸ member)
  · intro key member
    rw [keys_extend] at member
    split at member
    · exact within.keys_mem key member
    · rcases List.mem_append.mp member with old | new
      · exact within.keys_mem key old
      · rw [List.mem_singleton.mp new]
        exact inside
  · intro entry member
    rcases mem_extend member with old | rfl | ⟨old, oldMember, rfl⟩
    · exact within.sets_nodup entry old
    · exact TokenSet.nodup_union tokens List.nodup_nil
    · exact TokenSet.nodup_union tokens (within.sets_nodup old oldMember)
  · intro entry member
    rcases mem_extend member with old | rfl | ⟨old, oldMember, rfl⟩
    · exact within.sets_mem entry old
    · exact unionInside [] (by simp)
    · exact unionInside old.2 (within.sets_mem old oldMember)

theorem Within.get?_nodup {alphabet : List Symbol} {symbol : Symbol} {tokens : List Token}
    (within : family.Within alphabet) (found : family.get? symbol = some tokens) :
    (tokens.map Token.symbol).Nodup := by
  obtain ⟨entry, entryFound, rfl⟩ := Option.map_eq_some_iff.mp found
  exact within.sets_nodup entry (Keyed.find?_some entryFound).1

/-- Sets for exactly the given symbols, with tokens from a pool. -/
structure Drawn (keys : List Symbol) (pool : List Token) (family : Family) : Prop where
  keys_eq : family.map Prod.fst = keys
  members : ∀ entry ∈ family, ∀ token ∈ entry.2, token ∈ pool

section Drawn

variable {keys : List Symbol} {pool : List Token} {other : Family} {symbol : Symbol}

theorem Drawn.extend {tokens : List Token} (drawn : family.Drawn keys pool)
    (present : symbol ∈ keys) (tokensDrawn : ∀ token ∈ tokens, token ∈ pool) :
    (family.extend symbol tokens).Drawn keys pool := by
  have unionDrawn (set : TokenSet) (setDrawn : ∀ token ∈ set, token ∈ pool) :
      ∀ token ∈ TokenSet.union set tokens, token ∈ pool := by
    intro token member
    rcases TokenSet.mem_of_mem_union member with old | new
    · exact setDrawn token old
    · exact tokensDrawn token new
  refine ⟨?_, ?_⟩
  · rw [keys_extend, drawn.keys_eq, if_pos present]
  · intro entry member
    rcases mem_extend member with old | rfl | ⟨old, oldMember, rfl⟩
    · exact drawn.members entry old
    · exact unionDrawn [] (by simp)
    · exact unionDrawn old.2 (drawn.members old oldMember)

theorem Drawn.get?_none (drawn : family.Drawn keys pool) :
    family.get? symbol = none ↔ symbol ∉ keys := by
  rw [← drawn.keys_eq, get?, Option.map_eq_none_iff, Keyed.find?, List.find?_eq_none]
  simp only [decide_eq_true_eq, List.mem_map, not_exists, not_and]

theorem Drawn.get?_some {tokens : List Token} (drawn : family.Drawn keys pool)
    (found : family.get? symbol = some tokens) : ∀ token ∈ tokens, token ∈ pool := by
  obtain ⟨entry, entryFound, rfl⟩ := Option.map_eq_some_iff.mp found
  exact drawn.members entry (Keyed.find?_some entryFound).1

section Pool

variable (distinct : (pool.map Token.symbol).Nodup)

include distinct

theorem Drawn.subset {own theirs : List Token} (drawn : family.Drawn keys pool)
    (otherDrawn : other.Drawn keys pool) (found : family.get? symbol = some own)
    (otherFound : other.get? symbol = some theirs)
    (has : ∀ member, family.Has symbol member → other.Has symbol member) :
    ∀ token ∈ own, token ∈ theirs := by
  intro token member
  obtain ⟨_, sameFound, inside⟩ := has token.symbol ⟨own, found, List.mem_map_of_mem member⟩
  cases otherFound.symm.trans sameFound
  obtain ⟨twin, twinMember, twinSymbol⟩ := List.mem_map.mp inside
  rwa [List.inj_on_of_nodup_map distinct (drawn.get?_some found token member)
    (otherDrawn.get?_some otherFound twin twinMember) twinSymbol.symm]

/-- In a pool without repetition a token is given by its symbol, and a set by what
it has. -/
theorem Drawn.perm {alphabet : List Symbol} (within : family.Within alphabet)
    (otherWithin : other.Within alphabet) (drawn : family.Drawn keys pool)
    (otherDrawn : other.Drawn keys pool)
    (same : ∀ symbol member, family.Has symbol member ↔ other.Has symbol member)
    (symbol : Symbol) : Option.Rel List.Perm (family.get? symbol) (other.get? symbol) := by
  cases found : family.get? symbol with
  | none =>
      rw [otherDrawn.get?_none.mpr (drawn.get?_none.mp found)]
      exact Option.Rel.none
  | some own =>
      cases otherFound : other.get? symbol with
      | none =>
          rw [drawn.get?_none.mpr (otherDrawn.get?_none.mp otherFound)] at found
          cases found
      | some theirs =>
          have ownNodup := List.Nodup.of_map _ (within.get?_nodup found)
          have theirsNodup := List.Nodup.of_map _ (otherWithin.get?_nodup otherFound)
          refine Option.Rel.some ((List.perm_ext_iff_of_nodup ownNodup theirsNodup).mpr fun token =>
            ⟨?_, ?_⟩)
          · exact drawn.subset distinct otherDrawn found otherFound
              (fun member => (same symbol member).mp) token
          · exact otherDrawn.subset distinct drawn otherFound found
              (fun member => (same symbol member).mpr) token

end Pool

end Drawn

end Family

namespace Inclusion

variable {family : Family}

def Closed (inclusions : List Inclusion) (has : Symbol → Symbol → Prop) : Prop :=
  ∀ inclusion ∈ inclusions, ∀ member, has inclusion.subset member → has inclusion.superset member

theorem has_apply {inclusion : Inclusion} {symbol member : Symbol} :
    (apply family inclusion).Has symbol member ↔ family.Has symbol member ∨
      symbol = inclusion.superset ∧ family.Has inclusion.subset member := by
  unfold apply
  cases found : family.get? inclusion.subset with
  | none => simp [Family.Has, found]
  | some tokens =>
      rw [Family.has_extend]
      simp [Family.Has, found]

theorem size_le_apply (family : Family) (inclusion : Inclusion) :
    Family.size family ≤ Family.size (apply family inclusion) := by
  unfold apply
  split
  · exact Nat.le_refl _
  · exact Family.size_le_extend family _ _

theorem size_le_pass (inclusions : List Inclusion) (family : Family) :
    Family.size family ≤ Family.size (pass inclusions family) := by
  induction inclusions generalizing family with
  | nil => exact Nat.le_refl _
  | cons inclusion rest ih => exact Nat.le_trans (size_le_apply family inclusion) (ih _)

theorem has_of_size_apply {inclusion : Inclusion} {member : Symbol}
    (same : Family.size (apply family inclusion) = Family.size family)
    (below : family.Has inclusion.subset member) : family.Has inclusion.superset member := by
  obtain ⟨tokens, found, included⟩ := below
  simp only [apply, found] at same
  exact Family.has_of_size_extend same included

theorem closed_of_size_pass {inclusions : List Inclusion}
    (same : Family.size (pass inclusions family) = Family.size family) :
    Closed inclusions family.Has ∧
      ∀ symbol member, (pass inclusions family).Has symbol member ↔ family.Has symbol member := by
  induction inclusions generalizing family with
  | nil => exact ⟨by simp [Closed], fun _ _ => Iff.rfl⟩
  | cons inclusion rest ih =>
      have first := size_le_apply family inclusion
      have later := size_le_pass rest (apply family inclusion)
      have whole : Family.size (pass rest (apply family inclusion)) = Family.size family := same
      have firstSame : Family.size (apply family inclusion) = Family.size family := by omega
      have restSame : Family.size (pass rest (apply family inclusion)) =
          Family.size (apply family inclusion) := by omega
      obtain ⟨closed, kept⟩ := ih restSame
      have unchanged : ∀ symbol member,
          (apply family inclusion).Has symbol member ↔ family.Has symbol member := by
        intro symbol member
        rw [has_apply]
        constructor
        · rintro (old | ⟨rfl, below⟩)
          · exact old
          · exact has_of_size_apply firstSame below
        · exact Or.inl
      constructor
      · intro other otherMember member below
        rcases List.mem_cons.mp otherMember with rfl | inRest
        · exact has_of_size_apply firstSame below
        · exact (unchanged _ _).mp (closed other inRest member ((unchanged _ _).mpr below))
      · intro symbol member
        exact (kept symbol member).trans (unchanged symbol member)

theorem within_pass {alphabet : List Symbol} {inclusions : List Inclusion}
    (supersets : ∀ inclusion ∈ inclusions, inclusion.superset ∈ alphabet)
    (within : family.Within alphabet) : (pass inclusions family).Within alphabet := by
  induction inclusions generalizing family with
  | nil => exact within
  | cons inclusion rest ih =>
      have step : (apply family inclusion).Within alphabet := by
        unfold apply
        split
        · exact within
        · rename_i tokens found
          refine within.extend (supersets inclusion (by simp)) ?_
          obtain ⟨entry, entryFound, rfl⟩ := Option.map_eq_some_iff.mp found
          exact within.sets_mem entry (Keyed.find?_some entryFound).1
      exact ih (fun other member => supersets other (by simp [member])) step

theorem has_pass_of_has {inclusions : List Inclusion} {symbol member : Symbol}
    (has : family.Has symbol member) : (pass inclusions family).Has symbol member := by
  induction inclusions generalizing family with
  | nil => exact has
  | cons inclusion rest ih => exact ih (has_apply.mpr (Or.inl has))

theorem has_pass_least {inclusions : List Inclusion} {relation : Symbol → Symbol → Prop}
    (closed : Closed inclusions relation)
    (seeded : ∀ symbol member, family.Has symbol member → relation symbol member) :
    ∀ symbol member, (pass inclusions family).Has symbol member → relation symbol member := by
  induction inclusions generalizing family with
  | nil => exact seeded
  | cons inclusion rest ih =>
      have step : ∀ symbol member, (apply family inclusion).Has symbol member →
          relation symbol member := by
        intro symbol member has
        rcases has_apply.mp has with old | ⟨rfl, below⟩
        · exact seeded symbol member old
        · exact closed inclusion (by simp) member (seeded _ _ below)
      exact ih (fun other member => closed other (by simp [member])) step

section Saturation

variable {inclusions : List Inclusion} {alphabet : List Symbol} {fuel : Nat}

theorem has_saturate_of_has {symbol member : Symbol} (has : family.Has symbol member) :
    (saturate (pass inclusions) Family.size fuel family).Has symbol member :=
  saturate_invariant (pass inclusions) Family.size (fun current => current.Has symbol member)
    (fun _ => has_pass_of_has) fuel family has

theorem has_saturate_least {relation : Symbol → Symbol → Prop}
    (closed : Closed inclusions relation)
    (seeded : ∀ symbol member, family.Has symbol member → relation symbol member) :
    ∀ symbol member, (saturate (pass inclusions) Family.size fuel family).Has symbol member →
      relation symbol member :=
  saturate_invariant (pass inclusions) Family.size
    (fun current => ∀ symbol member, current.Has symbol member → relation symbol member)
    (fun _ => has_pass_least closed) fuel family seeded

theorem within_saturate
    (supersets : ∀ inclusion ∈ inclusions, inclusion.superset ∈ alphabet)
    (within : family.Within alphabet) :
    (saturate (pass inclusions) Family.size fuel family).Within alphabet :=
  saturate_invariant (pass inclusions) Family.size (fun current => current.Within alphabet)
    (fun _ => within_pass supersets) fuel family within

/-- With fuel for one pass per possible member the passes end, and the conditions hold then. -/
theorem saturate_ends
    (supersets : ∀ inclusion ∈ inclusions, inclusion.superset ∈ alphabet)
    (within : family.Within alphabet) (enough : alphabet.length * alphabet.length < fuel) :
    Settles (pass inclusions) Family.size fuel family ∧
      Closed inclusions (saturate (pass inclusions) Family.size fuel family).Has := by
  obtain ⟨last, _, same, result⟩ := saturate_stable (pass inclusions) Family.size
    (fun current => current.Within alphabet) (alphabet.length * alphabet.length)
    (fun _ => within_pass supersets) (fun current _ => size_le_pass inclusions current)
    (fun _ => Family.Within.size_le) fuel family within (by omega)
  obtain ⟨closed, kept⟩ := closed_of_size_pass same
  refine ⟨fun more => (result more).trans (result 0).symm, ?_⟩
  have whole : saturate (pass inclusions) Family.size fuel family = pass inclusions last := result 0
  rw [whole]
  intro inclusion member symbol below
  exact (kept _ _).mpr (closed inclusion member symbol ((kept _ _).mp below))

theorem has_saturate_mono {other : Family} {more : List Inclusion} {limit : Nat}
    (contained : ∀ inclusion ∈ inclusions, inclusion ∈ more)
    (closed : Closed more (saturate (pass more) Family.size limit other).Has)
    (seeded : ∀ symbol member, family.Has symbol member → other.Has symbol member) :
    ∀ symbol member, (saturate (pass inclusions) Family.size fuel family).Has symbol member →
      (saturate (pass more) Family.size limit other).Has symbol member :=
  has_saturate_least (fun inclusion inside => closed inclusion (contained inclusion inside))
    (fun symbol member has => has_saturate_of_has (seeded symbol member has))

theorem drawn_saturate {keys : List Symbol} {pool : List Token}
    (supersets : ∀ inclusion ∈ inclusions, inclusion.superset ∈ keys)
    (drawn : family.Drawn keys pool) :
    (saturate (pass inclusions) Family.size fuel family).Drawn keys pool := by
  refine saturate_invariant (pass inclusions) Family.size (fun current => current.Drawn keys pool)
    ?_ fuel family drawn
  intro current currentDrawn
  unfold pass
  induction inclusions generalizing current with
  | nil => exact currentDrawn
  | cons inclusion rest ih =>
      refine ih (fun other member => supersets other (by simp [member]))
        (apply current inclusion) ?_
      unfold apply
      split
      · exact currentDrawn
      · rename_i tokens found
        exact currentDrawn.extend (supersets inclusion (by simp)) (currentDrawn.get?_some found)

end Saturation

end Inclusion

end ShiftReduce
