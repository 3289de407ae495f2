import Mathlib.Data.List.TakeWhile
import ShiftReduce.Calculator.Lexer

/-! Reading by longest match. At every place the longest piece that a pattern matches is
taken, blanks are skipped, and a text is refused where no pattern matches. These rules fix
what is read of a text, and it is what the scanner reads. -/

namespace ShiftReduce.Calculator

/-- Runs of digits, single operators or parentheses, and runs of blanks. -/
inductive Pattern where
  | digits
  | mark
  | blanks

namespace Pattern

def accepts : Pattern → Char → Bool
  | digits, c => '0' ≤ c ∧ c ≤ '9'
  | mark, c => c ∈ ['(', ')', '+', '-', '*', '/']
  | blanks, c => c ∈ [' ', '\t', '\n', '\x0c']

def repeats : Pattern → Bool
  | digits => true
  | mark => false
  | blanks => true

/-- The pattern matches all of the piece. -/
structure Matches (pattern : Pattern) (piece : List Char) : Prop where
  nonempty : piece ≠ []
  accepted : ∀ c ∈ piece, pattern.accepts c = true
  single : pattern.repeats = false → piece.length = 1

def tokens : Pattern → List Char → List Token
  | digits, piece => [number piece]
  | mark, piece => [.terminal (String.ofList piece)]
  | blanks, _ => []

end Pattern

/-- A pattern matches the piece before the rest, and no pattern matches more of the text. -/
structure LongestMatch (pattern : Pattern) (piece rest : List Char) : Prop where
  matched : pattern.Matches piece
  longest : ∀ (other : Pattern) (longer : List Char), longer <+: piece ++ rest →
    other.Matches longer → longer.length ≤ piece.length

def byteSize : List Char → Nat
  | [] => 0
  | c :: rest => c.utf8Size + byteSize rest

/-- What is read of a text that starts at a byte offset. -/
inductive Lexes : Nat → List Char → Except Span (List Token) → Prop
  | done {offset : Nat} : Lexes offset [] (.ok [.endMarker])
  | piece {offset : Nat} {pattern : Pattern} {piece rest : List Char}
      {result : Except Span (List Token)} : LongestMatch pattern piece rest →
      Lexes (offset + byteSize piece) rest result →
      Lexes offset (piece ++ rest) (result.map (pattern.tokens piece ++ ·))
  | refused {offset : Nat} {c : Char} {rest : List Char} :
      (∀ (pattern : Pattern) (piece : List Char), piece <+: c :: rest → ¬ pattern.Matches piece) →
      Lexes offset (c :: rest) (.error { first := offset, last := offset + c.utf8Size })

namespace Pattern

variable {pattern other : Pattern} {c : Char} {piece rest : List Char}

theorem accepts_digits (c : Char) : digits.accepts c = c.isDigit := by
  simp [accepts, Char.isDigit, Char.le_def]

theorem accepts_mark (c : Char) : mark.accepts c = isOperator c := by
  simp [accepts, isOperator, Bool.or_assoc]

theorem accepts_blanks (c : Char) : blanks.accepts c = isBlank c := by
  simp [accepts, isBlank, Bool.or_assoc]

theorem of_accepts_mark (accepts : mark.accepts c = true) :
    digits.accepts c = false ∧ blanks.accepts c = false ∧ c.utf8Size = 1 := by
  simp only [Pattern.accepts, List.mem_cons, List.not_mem_nil, or_false,
    decide_eq_true_eq] at accepts
  rcases accepts with rfl | rfl | rfl | rfl | rfl | rfl <;> decide

theorem of_accepts_blanks (accepts : blanks.accepts c = true) :
    digits.accepts c = false ∧ c.utf8Size = 1 := by
  simp only [Pattern.accepts, List.mem_cons, List.not_mem_nil, or_false,
    decide_eq_true_eq] at accepts
  rcases accepts with rfl | rfl | rfl | rfl <;> decide

/-- No character starts matches of two patterns. -/
theorem eq_of_accepts (accepts : pattern.accepts c = true) (also : other.accepts c = true) :
    pattern = other := by
  have marks := @of_accepts_mark c
  have blank := @of_accepts_blanks c
  cases pattern <;> cases other <;> simp_all

theorem not_accepts (accepts : pattern.accepts c = true) (different : pattern ≠ other) :
    other.accepts c = false :=
  Bool.eq_false_iff.mpr fun also => different (eq_of_accepts accepts also)

theorem utf8Size_of_accepts (accepts : pattern.accepts c = true) : c.utf8Size = 1 := by
  cases pattern with
  | digits =>
      have below : c.val ≤ '9'.val := (of_decide_eq_true accepts).2
      exact if_pos (UInt32.le_trans below (by decide))
  | mark => exact (of_accepts_mark accepts).2.2
  | blanks => exact (of_accepts_blanks accepts).2

theorem Matches.of_accepts (accepts : pattern.accepts c = true) : pattern.Matches [c] :=
  ⟨List.cons_ne_nil _ _, by simpa using accepts, fun _ => rfl⟩

theorem Matches.not_accepts (matched : pattern.Matches piece) (different : pattern ≠ other) :
    ∀ c ∈ (piece ++ rest).head?, other.accepts c = false := by
  intro c head
  obtain ⟨first, others, rfl⟩ := List.exists_cons_of_ne_nil matched.nonempty
  obtain rfl : first = c := Option.some.inj head
  exact Pattern.not_accepts (matched.accepted first List.mem_cons_self) different

theorem byteSize_of_accepts (accepted : ∀ c ∈ piece, pattern.accepts c = true) :
    byteSize piece = piece.length := by
  induction piece with
  | nil => rfl
  | cons c rest ih =>
      obtain ⟨first, others⟩ := List.forall_mem_cons.mp accepted
      rw [byteSize, utf8Size_of_accepts first, ih others, List.length_cons, Nat.add_comm]

end Pattern

section LongestMatch

variable {pattern : Pattern} {c : Char} {piece rest : List Char}

theorem LongestMatch.stops (longest : LongestMatch pattern piece rest)
    (repeats : pattern.repeats = true) : ∀ c ∈ rest.head?, pattern.accepts c = false := by
  refine fun c head => Bool.eq_false_iff.mpr fun accepts => ?_
  obtain ⟨after, rfl⟩ := List.head?_eq_some_iff.mp head
  -- The piece with the next character would be a longer match.
  have more : pattern.Matches (piece ++ [c]) := by
    refine ⟨by simp, fun other member => ?_, fun single => ?_⟩
    · rcases List.mem_append.mp member with old | new
      · exact longest.matched.accepted other old
      · rw [List.mem_singleton.mp new]
        exact accepts
    · rw [repeats] at single
      cases single
  have short := longest.longest pattern _ ⟨after, by simp⟩ more
  exact absurd short (by simp)

theorem LongestMatch.of_stops (matched : pattern.Matches piece)
    (stops : pattern.repeats = true → ∀ c ∈ rest.head?, pattern.accepts c = false) :
    LongestMatch pattern piece rest := by
  refine ⟨matched, fun other longer inside also => Nat.le_of_not_lt fun more => ?_⟩
  obtain ⟨extra, rfl⟩ := List.prefix_of_prefix_length_le (List.prefix_append piece rest) inside
    (Nat.le_of_lt more)
  -- A longer match starts with the same character, so it is one of the same pattern.
  obtain ⟨first, others, rfl⟩ := List.exists_cons_of_ne_nil matched.nonempty
  obtain rfl := Pattern.eq_of_accepts (matched.accepted first (by simp))
    (also.accepted first (by simp))
  cases repeats : pattern.repeats with
  | false =>
      rw [also.single repeats] at more
      exact absurd more (by simp)
  | true =>
      cases extra with
      | nil => exact absurd more (by simp)
      | cons c extra =>
          obtain ⟨after, rfl⟩ := (List.prefix_append_right_inj _).mp inside
          have stopped := stops repeats c rfl
          rw [also.accepted c (by simp)] at stopped
          cases stopped

theorem exists_longestMatch (accepts : pattern.accepts c = true) (rest : List Char) :
    ∃ piece after, piece ++ after = c :: rest ∧ LongestMatch pattern piece after := by
  cases repeats : pattern.repeats with
  | false =>
      exact ⟨[c], rest, rfl, .of_stops (.of_accepts accepts) (by simp [repeats])⟩
  | true =>
      refine ⟨(c :: rest).takeWhile pattern.accepts, (c :: rest).dropWhile pattern.accepts,
        List.takeWhile_append_dropWhile, .of_stops ⟨?_, ?_, ?_⟩ ?_⟩
      · simp [accepts]
      · exact fun other member => List.mem_takeWhile_imp member
      · simp [repeats]
      · intro _ other head
        have stopped := List.head?_dropWhile_not pattern.accepts (c :: rest)
        rw [head] at stopped
        exact stopped

end LongestMatch

section Scanning

variable {text : List Char}

theorem scanFrom_cons (offset : Nat) (read : List Char) (c : Char) (rest : List Char) :
    scanFrom offset read (c :: rest) =
      if Pattern.digits.accepts c then scanFrom (offset + 1) (c :: read) rest
      else if Pattern.blanks.accepts c then
        (scanFrom (offset + 1) [] rest).map (finished read ++ ·)
      else if Pattern.mark.accepts c then
        (scanFrom (offset + 1) [] rest).map
          (finished read ++ Token.terminal (String.singleton c) :: ·)
      else .error { first := offset, last := offset + c.utf8Size } := by
  rw [scanFrom, Pattern.accepts_digits, Pattern.accepts_blanks, Pattern.accepts_mark]

theorem scanFrom_digits {digits : List Char}
    (decimal : ∀ c ∈ digits, Pattern.digits.accepts c = true) (offset : Nat)
    (read : List Char) :
    scanFrom offset read (digits ++ text) =
      scanFrom (offset + digits.length) (digits.reverse ++ read) text := by
  induction digits generalizing offset read with
  | nil => rfl
  | cons c rest ih =>
      obtain ⟨first, others⟩ := List.forall_mem_cons.mp decimal
      rw [List.cons_append, scanFrom_cons, if_pos first, ih others]
      rw [List.length_cons, List.reverse_cons, List.append_assoc, List.singleton_append,
        Nat.add_right_comm, Nat.add_assoc]

/-- The digits read are a number of their own where the text does not go on with one. -/
theorem scanFrom_finished (ended : ∀ c ∈ text.head?, Pattern.digits.accepts c = false)
    (offset : Nat) (read : List Char) :
    scanFrom offset read text = (scanFrom offset [] text).map (finished read ++ ·) := by
  cases text with
  | nil => rfl
  | cons c rest =>
      have digit : Pattern.digits.accepts c = false := ended c rfl
      simp only [scanFrom_cons, digit, Bool.false_eq_true, if_false]
      split
      · cases scanFrom (offset + 1) [] rest <;> simp [Except.map, finished]
      · split
        · cases scanFrom (offset + 1) [] rest <;> simp [Except.map, finished]
        · rfl

theorem map_nil_append (result : Except Span (List Token)) : result.map ([] ++ ·) = result := by
  cases result <;> rfl

theorem scanFrom_blanks {blanks : List Char}
    (blank : ∀ c ∈ blanks, Pattern.blanks.accepts c = true) (offset : Nat) :
    scanFrom offset [] (blanks ++ text) = scanFrom (offset + blanks.length) [] text := by
  induction blanks generalizing offset with
  | nil => rfl
  | cons c rest ih =>
      obtain ⟨first, others⟩ := List.forall_mem_cons.mp blank
      have digit : Pattern.digits.accepts c = false := Pattern.not_accepts first nofun
      rw [List.cons_append, scanFrom_cons, digit, if_neg Bool.false_ne_true, if_pos first,
        ih others]
      rw [List.length_cons, Nat.add_right_comm, Nat.add_assoc]
      exact map_nil_append _

theorem scanFrom_mark {c : Char} (mark : Pattern.mark.accepts c = true) (offset : Nat) :
    scanFrom offset [] (c :: text) =
      (scanFrom (offset + 1) [] text).map (Token.terminal (String.ofList [c]) :: ·) := by
  have digit : Pattern.digits.accepts c = false := Pattern.not_accepts mark nofun
  have blank : Pattern.blanks.accepts c = false := Pattern.not_accepts mark nofun
  rw [scanFrom_cons, digit, blank, if_neg Bool.false_ne_true, if_neg Bool.false_ne_true,
    if_pos mark, String.singleton_eq_ofList]
  rfl

/-- The longest match is taken off the text and scanned by itself. -/
theorem scanFrom_piece {pattern : Pattern} {piece rest : List Char}
    (longest : LongestMatch pattern piece rest) (offset : Nat) :
    scanFrom offset [] (piece ++ rest) =
      (scanFrom (offset + piece.length) [] rest).map (pattern.tokens piece ++ ·) := by
  have matched := longest.matched
  cases pattern with
  | digits =>
      rw [scanFrom_digits matched.accepted, scanFrom_finished (longest.stops rfl)]
      simp [finished, matched.nonempty, Pattern.tokens]
  | mark =>
      obtain ⟨c, rfl⟩ := List.length_eq_one_iff.mp (matched.single rfl)
      exact scanFrom_mark (matched.accepted c List.mem_cons_self) offset
  | blanks =>
      rw [scanFrom_blanks matched.accepted]
      exact (map_nil_append _).symm

end Scanning

theorem Lexes.scanFrom_eq {offset : Nat} {text : List Char} {result : Except Span (List Token)}
    (lexes : Lexes offset text result) : scanFrom offset [] text = result := by
  induction lexes with
  | done => rfl
  | piece longest _ ih =>
      rw [scanFrom_piece longest, ← Pattern.byteSize_of_accepts longest.matched.accepted, ih]
  | @refused offset c rest unmatched =>
      have unaccepted (pattern : Pattern) : ¬ pattern.accepts c = true :=
        fun accepts => unmatched pattern [c] ⟨rest, rfl⟩ (.of_accepts accepts)
      rw [scanFrom_cons, if_neg (unaccepted _), if_neg (unaccepted _), if_neg (unaccepted _)]

theorem exists_lexes (offset : Nat) (text : List Char) : ∃ result, Lexes offset text result := by
  generalize sizeEq : text.length = size
  induction size using Nat.strongRecOn generalizing offset text with
  | ind size ih =>
      cases text with
      | nil => exact ⟨_, .done⟩
      | cons c rest =>
          by_cases found : ∃ pattern : Pattern, pattern.accepts c = true
          · obtain ⟨pattern, accepts⟩ := found
            obtain ⟨piece, after, shape, longest⟩ := exists_longestMatch accepts rest
            have shorter : after.length < size := by
              have lengths := congrArg List.length shape
              have positive := List.length_pos_iff.mpr longest.matched.nonempty
              rw [List.length_append, sizeEq] at lengths
              omega
            obtain ⟨result, lexes⟩ := ih after.length shorter _ after rfl
            rw [← shape]
            exact ⟨_, .piece longest lexes⟩
          · refine ⟨_, .refused fun pattern piece inside matched => found ⟨pattern, ?_⟩⟩
            obtain ⟨first, others, rfl⟩ := List.exists_cons_of_ne_nil matched.nonempty
            obtain ⟨rfl, _⟩ := List.cons_prefix_cons.mp inside
            exact matched.accepted first List.mem_cons_self

/-- The scanner reads exactly what reading by longest match gives. -/
theorem lexes_iff {input : List Char} {result : Except Span (List Token)} :
    Lexes 0 input result ↔ scan input = result := by
  constructor
  · exact Lexes.scanFrom_eq
  · rintro rfl
    obtain ⟨result, lexes⟩ := exists_lexes 0 input
    rw [scan, lexes.scanFrom_eq]
    exact lexes

end ShiftReduce.Calculator
