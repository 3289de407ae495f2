/-! Repeating a growing pass until it adds nothing. -/

namespace ShiftReduce

variable {α : Type}

/-- Repeats `pass` until the size stays the same, `fuel` times at most. -/
def saturate (pass : α → α) (size : α → Nat) : Nat → α → α
  | 0, value => value
  | fuel + 1, value =>
      let next := pass value
      if size next = size value then next else saturate pass size fuel next

/-- The passes end by themselves within the fuel: more of it changes nothing. -/
def Settles (pass : α → α) (size : α → Nat) (fuel : Nat) (value : α) : Prop :=
  ∀ more, saturate pass size (fuel + more) value = saturate pass size fuel value

theorem saturate_invariant (pass : α → α) (size : α → Nat) (holds : α → Prop)
    (kept : ∀ value, holds value → holds (pass value)) (fuel : Nat) (value : α)
    (initial : holds value) : holds (saturate pass size fuel value) := by
  induction fuel generalizing value with
  | zero => exact initial
  | succ fuel ih =>
      simp only [saturate]
      split
      · exact kept value initial
      · exact ih (pass value) (kept value initial)

/-- Fuel above the room left for growth suffices: the last pass then added nothing, and
more fuel makes no difference. -/
theorem saturate_stable (pass : α → α) (size : α → Nat) (holds : α → Prop) (bound : Nat)
    (kept : ∀ value, holds value → holds (pass value))
    (grows : ∀ value, holds value → size value ≤ size (pass value))
    (bounded : ∀ value, holds value → size value ≤ bound) (fuel : Nat) (value : α)
    (initial : holds value) (enough : bound < size value + fuel) :
    ∃ last, holds last ∧ size (pass last) = size last ∧
      ∀ more, saturate pass size (fuel + more) value = pass last := by
  induction fuel generalizing value with
  | zero =>
      have := bounded value initial
      omega
  | succ fuel ih =>
      by_cases same : size (pass value) = size value
      · refine ⟨value, initial, same, fun more => ?_⟩
        rw [Nat.add_right_comm, saturate, if_pos same]
      · have growth := grows value initial
        obtain ⟨last, holdsLast, settled, result⟩ :=
          ih (pass value) (kept value initial) (by omega)
        refine ⟨last, holdsLast, settled, fun more => ?_⟩
        rw [Nat.add_right_comm, saturate, if_neg same]
        exact result more

end ShiftReduce
