import ShiftReduce.Event
import ShiftReduce.Grammar.Declared
import ShiftReduce.Grammar.Sets

/-! Context-free grammars. A value of `Grammar` is well formed by its type:
every token of its rules is one of its declared tokens, payload included. -/

namespace ShiftReduce

structure Grammar where
  tokens : List Token
  rules : List Rule
  start : Rule
  sets : SymbolSets
  tokens_increasing : Sorted.Increasing Token.cmp tokens
  ids_nodup : (rules.map Rule.id).Nodup
  rules_declared : ∀ rule ∈ rules, rule.Declared tokens
  start_mem : start ∈ rules
  start_endsInput : start.endsInput = true
  sets_eq : sets = SymbolSets.of tokens rules start

namespace Grammar

/-- The grammar with the given start rule, rules (the start rule among them) and
tokens, or the first fault found. Tokens in the rules take the payload of the
declared ones; of several tokens with one symbol the last declares it. -/
def build (start : Rule) (rules : List Rule) (tokens : List Token) :
    Except GrammarFault Grammar :=
  match checked : declareRules (Token.sorted tokens) [] rules with
  | .error fault => .error fault
  | .ok declared =>
      match found : declared.find? (fun rule => rule.id = start.id ∧ rule.sameSides start) with
      | none => .error (.startNotAmongRules start)
      | some rule =>
          if ends : rule.endsInput = true then
            .ok {
              tokens := Token.sorted tokens
              rules := declared
              start := rule
              sets := SymbolSets.of (Token.sorted tokens) declared rule
              tokens_increasing := Sorted.ofList_increasing tokens
              ids_nodup := (declareRules_eq_ok checked).2.1
              rules_declared := (declareRules_eq_ok checked).1
              start_mem := List.mem_of_find?_eq_some found
              start_endsInput := ends
              sets_eq := rfl }
          else .error (.startWithoutEndMarker start)

variable (g : Grammar)

def rule? (id : RuleId) : Option Rule :=
  Keyed.find? Rule.id id g.rules

def terminals : List Token :=
  g.tokens.filter Token.isTerminal

def nonterminals : List Token :=
  g.tokens.filter (!·.isTerminal)

def productionsOf (symbol : Symbol) : List Rule :=
  g.rules.filter (·.left.symbol = symbol)

def isNullable (symbol : Symbol) : Bool :=
  g.sets.isNullable symbol

def first? (symbol : Symbol) : Option TokenSet :=
  g.sets.first? symbol

def follow? (nonterminal : Symbol) : Option TokenSet :=
  g.sets.follow? nonterminal

def firstOf (sequence : List Symbol) (next : Symbol) : TokenSet :=
  g.sets.firstOf sequence next

def events : List Event :=
  [.grammarBuilt g.rules.length g.tokens.length]

end Grammar

end ShiftReduce
