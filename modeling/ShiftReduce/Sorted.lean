/-! Strictly increasing lists as finite sets. An element that compares equal to
one already present is not added, so the first of equals stays. -/

namespace ShiftReduce.Sorted

variable {α : Type}

def insert (cmp : α → α → Ordering) (element : α) : List α → List α
  | [] => [element]
  | head :: rest =>
      match cmp element head with
      | .lt => element :: head :: rest
      | .eq => head :: rest
      | .gt => head :: insert cmp element rest

def contains (cmp : α → α → Ordering) (element : α) (elements : List α) : Bool :=
  elements.any fun other => cmp element other == .eq

/-- The set of the elements of a list. Of equal elements the last one stays. -/
def ofList (cmp : α → α → Ordering) (elements : List α) : List α :=
  elements.foldr (insert cmp) []

def Increasing (cmp : α → α → Ordering) (elements : List α) : Prop :=
  elements.Pairwise fun a b => cmp a b = .lt

theorem mem_of_mem_insert {cmp : α → α → Ordering} {element a : α} {elements : List α}
    (member : a ∈ insert cmp element elements) : a = element ∨ a ∈ elements := by
  induction elements with
  | nil => simpa [insert] using member
  | cons head rest ih =>
      simp only [insert] at member
      split at member
      · simpa using member
      · exact Or.inr member
      · rcases List.mem_cons.mp member with equal | later
        · exact Or.inr (by simp [equal])
        · rcases ih later with equal | old
          · exact Or.inl equal
          · exact Or.inr (by simp [old])

theorem insert_increasing {cmp : α → α → Ordering} [Std.TransCmp cmp] (element : α)
    {elements : List α} (increasing : Increasing cmp elements) :
    Increasing cmp (insert cmp element elements) := by
  induction elements with
  | nil => simp [insert, Increasing]
  | cons head rest ih =>
      obtain ⟨above, tail⟩ := List.pairwise_cons.mp increasing
      simp only [insert]
      split
      · rename_i less
        refine List.pairwise_cons.mpr ⟨fun a member => ?_, increasing⟩
        rcases List.mem_cons.mp member with equal | later
        · rw [equal]
          exact less
        · exact Std.TransCmp.lt_trans less (above a later)
      · exact increasing
      · rename_i greater
        refine List.pairwise_cons.mpr ⟨fun a member => ?_, ih tail⟩
        rcases mem_of_mem_insert member with equal | later
        · rw [equal]
          exact Std.OrientedCmp.lt_of_gt greater
        · exact above a later

theorem ofList_increasing {cmp : α → α → Ordering} [Std.TransCmp cmp] (elements : List α) :
    Increasing cmp (ofList cmp elements) := by
  induction elements with
  | nil => exact List.Pairwise.nil
  | cons head rest ih => exact insert_increasing head ih

end ShiftReduce.Sorted
