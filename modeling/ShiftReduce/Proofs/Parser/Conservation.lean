import ShiftReduce.Proofs.Parser.Consistency

/-! No token is lost, duplicated or reordered, whatever the table. The stack stands on
the initial state, and a forest over the rest of it has the tokens shifted for
leaves and the reductions made for inner nodes. A run cut off by its limit is in
one of the configurations on the way, so this holds all along a parse. -/

namespace ShiftReduce

def Move.shifted? : Move → Option Token
  | .shift token _ => some token
  | .reduce _ _ _ => none

def Run.shifted (run : Run) : List Token :=
  run.moves.filterMap Move.shifted?

/-- Every inner node has as many children as the production of its rule has tokens. -/
inductive Tree.Full : Tree → Prop
  | leaf (token : Token) : Full (leaf token)
  | node {rule : Rule} {children : List Tree} : children.length = rule.production.length →
      (∀ child ∈ children, Full child) → Full (node rule children)

/-- The forest, from left to right, that a run over a table has made of its input. -/
structure Run.Accounts (table : Table) (input : List Token) (run : Run) (forest : List Tree) :
    Prop where
  frames : ∃ upper, run.last.stack = upper ++ [{ state := table.initial }] ∧
    upper.map Frame.token = forest.reverse.map fun tree => some tree.root
  leaves : Tree.yields forest = run.shifted
  unread : input = run.shifted ++ run.last.input
  inner : Tree.forestReductions forest = run.reductions
  full : ∀ tree ∈ forest, tree.Full

namespace Table

variable {table : Table} {input : List Token} {moves : List Move} {stack : List Frame}
  {first configuration : Configuration}

theorem Stacked.exists_upper (stacked : table.Stacked stack) :
    ∃ upper, stack = upper ++ [{ state := table.initial }] := by
  induction stacked with
  | bottom => exact ⟨[], rfl⟩
  | push _ _ ih =>
      obtain ⟨upper, shape⟩ := ih
      exact ⟨_ :: upper, by rw [shape]; rfl⟩

theorem Steps.shifted (steps : table.Steps first moves configuration) :
    first.input = moves.filterMap Move.shifted? ++ configuration.input := by
  induction steps with
  | refl => rfl
  | move _ transition ih =>
      rw [List.filterMap_append, ih]
      cases transition with
      | shift _ => simp [Move.shifted?]
      | reduce _ _ => simp [Move.shifted?]

theorem Steps.full_grown (steps : table.Steps (table.start input) moves configuration) :
    ∀ tree ∈ Tree.grown moves, tree.Full := by
  induction steps with
  | refl => simp [Tree.grown]
  | @move moves before next move steps transition ih =>
      rw [Tree.grown_append]
      intro tree member
      cases transition with
      | shift _ =>
          rcases List.mem_cons.mp member with rfl | earlier
          · exact Tree.Full.leaf _
          · exact ih tree earlier
      | reduce _ reduced =>
          obtain ⟨_, long, _⟩ := reduction_eq_ok reduced
          rw [steps.tracks.length_stack] at long
          rcases List.mem_cons.mp member with rfl | earlier
          · refine Tree.Full.node ?_ fun child inside => ?_
            · rw [List.length_reverse, List.length_take]
              omega
            · exact ih child (List.mem_of_mem_take (List.mem_reverse.mp inside))
          · exact ih tree (List.mem_of_mem_drop earlier)

theorem Steps.accounts (steps : table.Steps (table.start input) moves configuration)
    (outcome : Outcome) :
    Run.Accounts table input { moves, outcome, last := configuration }
      (Tree.grown moves).reverse := by
  have unread := steps.shifted
  refine ⟨?_, ?_, unread, steps.tracks.inner.symm, ?_⟩
  · obtain ⟨upper, shape⟩ := steps.stacked.exists_upper
    have tokens := steps.tracks.stack
    rw [shape, List.map_append] at tokens
    refine ⟨upper, shape, ?_⟩
    rw [List.reverse_reverse]
    exact List.append_cancel_right tokens
  · exact List.append_cancel_right (steps.tracks.leaves.symm.trans unread)
  · exact fun tree member => steps.full_grown tree (List.mem_reverse.mp member)

/-- A reduction that the stack is too short for takes nothing from it, and any other one
leaves the frame at the bottom, also where it fails afterwards. -/
theorem Stacked.bottom_kept (stacked : table.Stacked stack) {id : RuleId} {rule : Rule}
    (known : table.rule? id = some rule) :
    table.reduction id stack = .error (.inconsistentTable (.stackTooShort rule)) ∨
      [{ state := table.initial }] <:+ stack.drop rule.production.length := by
  by_cases short : stack.length ≤ rule.production.length
  · left
    simp only [reduction, known, short, if_true]
  · right
    obtain ⟨upper, rfl⟩ := stacked.exists_upper
    simp only [List.length_append, List.length_singleton] at short
    rw [List.drop_append_of_le_length (by omega)]
    exact List.suffix_append _ _

theorem Stacked.step_ne_emptyStack (stacked : table.Stacked configuration.stack) :
    table.step configuration ≠ .fail (.inconsistentTable .emptyStack) := by
  intro failed
  rcases fail_cause failed with ⟨_, same⟩ | ⟨empty, _⟩ | ⟨_, different⟩
  · cases same
  · rw [empty] at stacked
    cases stacked
  · exact different rfl

end Table

namespace Parser

variable {σ : Type}

/-- Whatever the table, there is a forest over the stack of a parse that accounts for the
tokens taken, and handlers are called for its inner nodes with the tokens of their
children. The initial state stays at the bottom of the stack. -/
theorem parse_conserves (parser : Parser σ) (limit : Nat) (input : List Token) (initial : σ) :
    let parse := parser.parse limit input initial
    (∃ forest, parse.run.Accounts parser.table input forest ∧
      parse.state = (Tree.forestReductions forest).foldl
        (fun state made => parser.handlers.invoke made.1.id made.2 state) initial) ∧
    parse.run.outcome ≠ .failed (.inconsistentTable .emptyStack) ∧
    ∀ id rule, parser.table.rule? id = some rule →
      parser.table.reduction id parse.run.last.stack =
          .error (.inconsistentTable (.stackTooShort rule)) ∨
        [{ state := parser.table.initial }] <:+
          parse.run.last.stack.drop rule.production.length := by
  intro parse
  have same : parse.run = parser.table.run limit input := parser.parse_run limit input initial
  have steps : parser.table.Steps (parser.table.start input) parse.run.moves parse.run.last := by
    rw [same]
    exact Table.runFrom_steps parser.table limit (parser.table.start input)
  refine ⟨⟨_, steps.accounts parse.run.outcome, ?_⟩, ?_, fun id rule => steps.stacked.bottom_kept⟩
  · rw [← steps.tracks.inner, same]
    exact parser.parse_state limit input initial
  · intro failed
    apply steps.stacked.step_ne_emptyStack
    rw [same] at failed ⊢
    exact Table.step_of_failed failed

end Parser

end ShiftReduce
