import ShiftReduce.Grammar.Draft

/-! Small grammars to try the methods on. -/

namespace ShiftReduce.Samples

/-- The rules `S -> E $`, `E -> T + E`, `E -> T`, `T -> x`, numbered from 0, with
any token in the place of `+`. -/
def example? (plus : Token) : Except GrammarFault Grammar :=
  let s := Token.nonterminal "S"
  let e := Token.nonterminal "E"
  let t := Token.nonterminal "T"
  let x := Token.terminal "x"
  let start : Rule := { id := 0, left := s, right := [e, .endMarker] }
  Grammar.build start
    [ start,
      { id := 1, left := e, right := [t, plus, e] },
      { id := 2, left := e, right := [t] },
      { id := 3, left := t, right := [x] } ]
    [.endMarker, s, e, t, x, plus]

def sums : List Declaration :=
  let x := Token.terminal "x"
  let plus := Token.terminal "+"
  let e := Token.nonterminal "E"
  let t := Token.nonterminal "T"
  [ .terminal "x", .terminal "+", .nonterminal "E", .nonterminal "T",
    .rule e [t, plus, e], .rule e [t], .rule t [x] ]

def arithmetic : List Declaration :=
  let expr := Token.nonterminal "EXPR"
  let factor := Token.nonterminal "FACTOR"
  let term := Token.nonterminal "TERM"
  [ .terminal "(", .terminal ")", .terminal "+", .terminal "-", .terminal "*", .terminal "/",
    .terminal "NUM", .nonterminal "EXPR", .nonterminal "FACTOR", .nonterminal "TERM",
    .start expr,
    .rule expr [expr, .terminal "+", factor],
    .rule expr [expr, .terminal "-", factor],
    .rule expr [factor],
    .rule factor [factor, .terminal "*", term],
    .rule factor [factor, .terminal "/", term],
    .rule factor [term],
    .rule term [.terminal "NUM"],
    .rule term [.terminal "(", expr, .terminal ")"] ]

/-- An ambiguous expression grammar whose conflicts the associativity of the
operators settles. -/
def operators : List Declaration :=
  let plus := Token.operator "+" .left
  let caret := Token.operator "^" .right
  let minus := Token.operator "-" .pre
  let bang := Token.operator "!" .post
  let expr := Token.nonterminal "EXPR"
  [ .operator "+" .left, .operator "^" .right, .operator "-" .pre, .operator "!" .post,
    .terminal "NUM", .nonterminal "EXPR",
    .rule expr [expr, plus, expr], .rule expr [expr, caret, expr], .rule expr [minus, expr],
    .rule expr [expr, bang], .rule expr [.terminal "NUM"] ]

/-- Assignments through pointers: an LR(1) grammar that is not SLR. -/
def assignments : List Declaration :=
  let s := Token.nonterminal "S"
  let l := Token.nonterminal "L"
  let r := Token.nonterminal "R"
  [ .terminal "=", .terminal "*", .terminal "ID",
    .nonterminal "S", .nonterminal "L", .nonterminal "R",
    .rule s [l, .terminal "=", r], .rule s [r], .rule l [.terminal "*", r],
    .rule l [.terminal "ID"], .rule r [l] ]

def optional : List Declaration :=
  let s := Token.nonterminal "S"
  let a := Token.nonterminal "A"
  let b := Token.nonterminal "B"
  [ .terminal "a", .terminal "b", .terminal "c",
    .nonterminal "S", .nonterminal "A", .nonterminal "B",
    .rule s [a, b, .terminal "c"], .rule a [.terminal "a"], .rule a [],
    .rule b [.terminal "b"], .rule b [] ]

end ShiftReduce.Samples
