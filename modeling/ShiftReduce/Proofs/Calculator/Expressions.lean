import Mathlib.Data.List.Chain
import Mathlib.Data.Nat.Digits.Defs
import ShiftReduce.Calculator.Arithmetic
import ShiftReduce.Proofs.Calculator.LongestMatch

/-! Arithmetic expressions, their values and faults, and the ways of writing them.
However an expression is written, the tokens read are those of its lexemes. -/

namespace ShiftReduce.Calculator

structure Numeral where
  digits : List Char
  nonempty : digits ≠ []
  decimal : digits.all Char.isDigit = true

def Numeral.value (numeral : Numeral) : Nat :=
  Nat.ofDigits 10 (numeral.digits.reverse.map fun c => c.toNat - '0'.toNat)

def Fits (value : Int) : Prop :=
  Int64.minValue.toInt ≤ value ∧ value ≤ Int64.maxValue.toInt

instance (value : Int) : Decidable (Fits value) :=
  inferInstanceAs (Decidable (_ ∧ _))

def Numeral.value? (numeral : Numeral) : Option Int :=
  if Fits numeral.value then some numeral.value else none

inductive Level where
  | sum
  | product
  | factor

/-- Where the operands on the right of an operator of this level are found. -/
def Level.below : Level → Level
  | sum => product
  | product => factor
  | factor => factor

namespace Operator

def level : Operator → Level
  | add => .sum
  | sub => .sum
  | mul => .product
  | div => .product

def sign : Operator → Char
  | add => '+'
  | sub => '-'
  | mul => '*'
  | div => '/'

def exact : Operator → Int → Int → Int
  | add, a, b => a + b
  | sub, a, b => a - b
  | mul, a, b => a * b
  | div, a, b => a.tdiv b

def result? (operator : Operator) (a b : Int) : Option Int :=
  if operator = div ∧ b = 0 ∨ ¬ Fits (operator.exact a b) then none
  else some (operator.exact a b)

end Operator

/-- Expressions by the level of their outermost operator, one form for each kind
of rule: an operator has its own level on the left and the one below on the right. -/
inductive Expression : Level → Type
  | operate (operator : Operator) (left : Expression operator.level)
      (right : Expression operator.level.below) : Expression operator.level
  | product (inner : Expression .product) : Expression .sum
  | factor (inner : Expression .factor) : Expression .product
  | number (numeral : Numeral) : Expression .factor
  | group (inner : Expression .sum) : Expression .factor

inductive Lexeme where
  | numeral (literal : Numeral)
  | operator (operation : Operator)
  | opening
  | closing

def Lexeme.text : Lexeme → List Char
  | numeral literal => literal.digits
  | operator operation => [operation.sign]
  | opening => ['(']
  | closing => [')']

def Lexeme.isNumeral : Lexeme → Bool
  | numeral _ => true
  | _ => false

def Blanks (text : List Char) : Prop :=
  ∀ c ∈ text, c ∈ [' ', '\t', '\n', '\x0c']

/-- Texts of lexemes with any blanks before, after and between them. -/
inductive Spaced : List Lexeme → List Char → Prop
  | nil (blanks : List Char) : Blanks blanks → Spaced [] blanks
  | cons (blanks : List Char) {text : List Char} {lexeme : Lexeme} {lexemes : List Lexeme} :
      Blanks blanks → Spaced lexemes text →
      Spaced (lexeme :: lexemes) (blanks ++ (lexeme.text ++ text))

namespace Expression

def value? {level : Level} : Expression level → Option Int
  | operate operator left right =>
      left.value?.bind fun a => right.value?.bind fun b => operator.result? a b
  | product inner => inner.value?
  | factor inner => inner.value?
  | number numeral => numeral.value?
  | group inner => inner.value?

/-- The faults of the nodes in post-order: a number that does not fit, or an
operation that has no result though both of its operands have values. -/
def faults {level : Level} : Expression level → List Fault
  | operate operator left right =>
      left.faults ++ right.faults ++
        match left.value?, right.value? with
        | some a, some b => if operator.result? a b = none then [.arithmetic] else []
        | _, _ => []
  | product inner => inner.faults
  | factor inner => inner.faults
  | number numeral => if numeral.value? = none then [.invalidNumber] else []
  | group inner => inner.faults

def lexemes {level : Level} : Expression level → List Lexeme
  | operate operator left right => left.lexemes ++ .operator operator :: right.lexemes
  | product inner => inner.lexemes
  | factor inner => inner.lexemes
  | number numeral => [.numeral numeral]
  | group inner => .opening :: (inner.lexemes ++ [.closing])

def Written {level : Level} (expression : Expression level) (text : List Char) : Prop :=
  Spaced expression.lexemes text

end Expression

def Lexeme.token : Lexeme → Token
  | numeral literal => number literal.digits
  | operator operation => .terminal (String.singleton operation.sign)
  | opening => .terminal "("
  | closing => .terminal ")"

def Expression.tokens {level : Level} (expression : Expression level) : List Token :=
  expression.lexemes.map Lexeme.token ++ [.endMarker]

/-- Numerals do not follow one another, so each ends where its digits end. -/
def Separated (lexemes : List Lexeme) : Prop :=
  lexemes.IsChain fun before after => before.isNumeral = true → after.isNumeral = false

theorem Expression.separated_append {level : Level} (expression : Expression level)
    {rest : List Lexeme} (separated : Separated rest)
    (apart : ∀ next ∈ rest.head?, next.isNumeral = false) :
    Separated (expression.lexemes ++ rest) := by
  induction expression generalizing rest with
  | operate operator left right leftIh rightIh =>
      have tail : Separated (.operator operator :: (right.lexemes ++ rest)) :=
        List.IsChain.cons (rightIh separated apart) (by simp [Lexeme.isNumeral])
      have whole := leftIh tail (by simp [Lexeme.isNumeral])
      simpa [lexemes] using whole
  | product inner ih => exact ih separated apart
  | factor inner ih => exact ih separated apart
  | number numeral => exact List.IsChain.cons separated fun next member _ => apart next member
  | group inner ih =>
      have tail : Separated (.closing :: rest) :=
        List.IsChain.cons separated (by simp [Lexeme.isNumeral])
      have enclosed := ih tail (by simp [Lexeme.isNumeral])
      have whole : Separated (.opening :: (inner.lexemes ++ .closing :: rest)) :=
        List.IsChain.cons enclosed (by simp [Lexeme.isNumeral])
      simpa [lexemes] using whole

/-- The tokens read from a text, wherever in the input it starts. -/
def Reads (text : List Char) (tokens : List Token) : Prop :=
  ∀ offset, Lexes offset text (.ok tokens)

section Reads

variable {text piece blanks : List Char} {tokens : List Token} {pattern : Pattern}

theorem Reads.prepend (reads : Reads text tokens) (longest : LongestMatch pattern piece text) :
    Reads (piece ++ text) (pattern.tokens piece ++ tokens) :=
  fun _ => .piece longest (reads _)

theorem Blanks.matched (blank : Blanks blanks) (nonempty : blanks ≠ []) :
    Pattern.blanks.Matches blanks :=
  ⟨nonempty, fun c member => decide_eq_true (blank c member), nofun⟩

theorem Blanks.not_digits (blank : Blanks blanks)
    (ended : ∀ c ∈ text.head?, Pattern.digits.accepts c = false) :
    ∀ c ∈ (blanks ++ text).head?, Pattern.digits.accepts c = false := by
  cases blanks with
  | nil => exact ended
  | cons first others => exact (blank.matched (List.cons_ne_nil _ _)).not_accepts nofun

theorem Reads.skip (reads : Reads text tokens) (blank : Blanks blanks)
    (ended : ∀ c ∈ text.head?, Pattern.blanks.accepts c = false) :
    Reads (blanks ++ text) tokens := by
  cases blanks with
  | nil => exact reads
  | cons first others =>
      have matched := blank.matched (List.cons_ne_nil _ _)
      exact reads.prepend (.of_stops matched fun _ => ended)

end Reads

namespace Lexeme

def pattern : Lexeme → Pattern
  | numeral _ => .digits
  | operator _ => .mark
  | opening => .mark
  | closing => .mark

theorem matched (lexeme : Lexeme) : lexeme.pattern.Matches lexeme.text := by
  cases lexeme with
  | numeral literal =>
      refine ⟨literal.nonempty, fun c member => ?_, nofun⟩
      exact (Pattern.accepts_digits c).trans (List.all_eq_true.mp literal.decimal c member)
  | operator operation => exact .of_accepts (by cases operation <;> rfl)
  | opening => exact .of_accepts rfl
  | closing => exact .of_accepts rfl

theorem tokens_text (lexeme : Lexeme) : lexeme.pattern.tokens lexeme.text = [lexeme.token] := by
  cases lexeme with
  | numeral literal => rfl
  | operator operation => cases operation <;> rfl
  | opening => rfl
  | closing => rfl

theorem pattern_ne_digits {lexeme : Lexeme} (notNumeral : lexeme.isNumeral = false) :
    lexeme.pattern ≠ .digits := by
  cases lexeme with
  | numeral literal => cases notNumeral
  | operator _ | opening | closing => exact nofun

theorem pattern_ne_blanks (lexeme : Lexeme) : lexeme.pattern ≠ .blanks := by
  cases lexeme <;> exact nofun

/-- A lexeme is read as one piece unless it is a numeral and more digits follow. -/
theorem longestMatch (lexeme : Lexeme) {text : List Char}
    (ended : lexeme.isNumeral = true → ∀ c ∈ text.head?, Pattern.digits.accepts c = false) :
    LongestMatch lexeme.pattern lexeme.text text := by
  refine .of_stops lexeme.matched fun repeats => ?_
  cases lexeme with
  | numeral literal => exact ended rfl
  | operator _ | opening | closing => cases repeats

end Lexeme

theorem Spaced.not_digits {lexemes : List Lexeme} {text : List Char}
    (spaced : Spaced lexemes text) (apart : ∀ next ∈ lexemes.head?, next.isNumeral = false) :
    ∀ c ∈ text.head?, Pattern.digits.accepts c = false := by
  cases spaced with
  | nil blanks blank =>
      rw [← List.append_nil text]
      exact blank.not_digits nofun
  | @cons blanks rest lexeme later blank spaced =>
      have different := Lexeme.pattern_ne_digits (apart lexeme rfl)
      exact blank.not_digits (lexeme.matched.not_accepts different)

theorem Spaced.reads {lexemes : List Lexeme} {text : List Char} (spaced : Spaced lexemes text)
    (separated : Separated lexemes) :
    Reads text (lexemes.map Lexeme.token ++ [.endMarker]) := by
  induction spaced with
  | nil blanks blank =>
      have ended : Reads [] [.endMarker] := fun _ => .done
      simpa using ended.skip blank nofun
  | @cons blanks text lexeme lexemes blank spaced ih =>
      obtain ⟨apart, later⟩ := List.isChain_cons.mp separated
      have longest := lexeme.longestMatch fun numeral =>
        spaced.not_digits fun next member => apart next member numeral
      have rest := (ih later).prepend longest
      rw [lexeme.tokens_text] at rest
      exact rest.skip blank (lexeme.matched.not_accepts lexeme.pattern_ne_blanks)

theorem Expression.Written.scan_eq {level : Level} {expression : Expression level}
    {text : List Char} (written : expression.Written text) :
    scan text = .ok expression.tokens := by
  have separated : Separated (expression.lexemes ++ []) :=
    expression.separated_append List.IsChain.nil (by simp)
  rw [List.append_nil] at separated
  exact lexes_iff.mp (Spaced.reads written separated 0)

end ShiftReduce.Calculator
