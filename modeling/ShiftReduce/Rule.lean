import ShiftReduce.Token

/-! Production rules. -/

namespace ShiftReduce

abbrev RuleId := Nat

def RuleId.render (id : RuleId) : String :=
  "#" ++ toString id

/-- A production, identified by its number. An empty production is written
with ε as its only symbol. -/
structure Rule where
  id : RuleId
  left : Token
  right : List Token
deriving DecidableEq

namespace Rule

def isEmpty (rule : Rule) : Bool :=
  match rule.right with
  | [token] => token.isEpsilon
  | _ => false

theorem isEmpty_iff {rule : Rule} :
    rule.isEmpty = true ↔ rule.right.map Token.symbol = [.epsilon] := by
  unfold isEmpty
  split
  · rename_i only shape
    simp [shape, Token.isEpsilon]
  · rename_i several
    simp only [Bool.false_eq_true, false_iff]
    intro single
    obtain ⟨only, shape, _⟩ := List.map_eq_singleton_iff.mp single
    exact several only shape

/-- The check that ε does not stand beside other symbols. -/
theorem epsilon_alone_iff {rule : Rule} :
    (!rule.isEmpty && rule.right.any Token.isEpsilon) = false ↔
      rule.right.map Token.symbol = [.epsilon] ∨
        ∀ token ∈ rule.right, token.symbol ≠ .epsilon := by
  rw [Bool.and_eq_false_iff, Bool.not_eq_false', isEmpty_iff, List.any_eq_false]
  simp only [Token.isEpsilon, decide_eq_true_eq, ne_eq]

/-- The tokens this rule derives: its right-hand side, nothing for an empty production. -/
def production (rule : Rule) : List Token :=
  if rule.isEmpty then [] else rule.right

def symbols (rule : Rule) : List Symbol :=
  rule.production.map Token.symbol

def render (rule : Rule) : String :=
  rule.left.render ++ " -> " ++ Token.renderAll " " rule.right

def sameSides (a b : Rule) : Bool :=
  a.left.symbol = b.left.symbol ∧ a.right.map Token.symbol = b.right.map Token.symbol

end Rule

end ShiftReduce
