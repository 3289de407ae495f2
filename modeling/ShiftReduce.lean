import ShiftReduce.Grammar.Samples
import ShiftReduce.Grammar.Printer
import ShiftReduce.Table.Printer
import ShiftReduce.Parser.Session
import ShiftReduce.Main
import ShiftReduce.Proofs.Collections
import ShiftReduce.Proofs.Grammar.Derivation
import ShiftReduce.Proofs.Grammar.Symbols
import ShiftReduce.Proofs.Grammar.Families
import ShiftReduce.Proofs.Grammar.First
import ShiftReduce.Proofs.Grammar.Follow
import ShiftReduce.Proofs.Grammar.Sentences
import ShiftReduce.Proofs.Grammar.Exactness
import ShiftReduce.Proofs.Grammar.FirstFollow
import ShiftReduce.Proofs.Grammar.Rightmost
import ShiftReduce.Proofs.Item.Closure
import ShiftReduce.Proofs.Item.Paths
import ShiftReduce.Proofs.Item.ClosureOperator
import ShiftReduce.Proofs.Automaton.Counting
import ShiftReduce.Proofs.Automaton.Construction
import ShiftReduce.Proofs.Automaton.Reachable
import ShiftReduce.Proofs.Automaton.GotoGraph
import ShiftReduce.Proofs.Table.Cells
import ShiftReduce.Proofs.Table.Generated
import ShiftReduce.Proofs.Lookahead.Awaits
import ShiftReduce.Proofs.Lookahead.Followed
import ShiftReduce.Proofs.Lookahead.ValidItems
import ShiftReduce.Proofs.Table.Acceptance
import ShiftReduce.Proofs.Table.Refinement
import ShiftReduce.Proofs.Automaton.Merging
import ShiftReduce.Proofs.Parser.Runs
import ShiftReduce.Proofs.Parser.Forest
import ShiftReduce.Proofs.Parser.Consistency
import ShiftReduce.Proofs.Parser.Soundness
import ShiftReduce.Proofs.Parser.Completeness
import ShiftReduce.Proofs.Parser.ErrorPosition
import ShiftReduce.Proofs.Parser.Termination
import ShiftReduce.Proofs.Parser.Expected
import ShiftReduce.Proofs.Parser.Agreement
import ShiftReduce.Proofs.Grammar.DeclarationOrder
import ShiftReduce.Proofs.Automaton.DeclarationOrder
import ShiftReduce.Proofs.Parser.DeclarationOrder
import ShiftReduce.Proofs.Calculator.LongestMatch
import ShiftReduce.Proofs.Calculator.Expressions
import ShiftReduce.Proofs.Calculator.Evaluation
import ShiftReduce.Proofs.Table.Justified
import ShiftReduce.Proofs.Table.Associativity
import ShiftReduce.Proofs.Grammar.WellFormed
import ShiftReduce.Proofs.Grammar.Definition
import ShiftReduce.Proofs.Grammar.Attempts
import ShiftReduce.Proofs.Grammar.ReservedSymbols
import ShiftReduce.Proofs.Parser.Payload
import ShiftReduce.Proofs.Grammar.Operators
import ShiftReduce.Proofs.Table.Operators
import ShiftReduce.Proofs.Parser.Grouping
import ShiftReduce.Proofs.Parser.Conservation
import ShiftReduce.Proofs.Parser.Locality
import ShiftReduce.Proofs.Parser.Sessions
import ShiftReduce.Proofs.Automaton.Numbering
import ShiftReduce.Proofs.Table.Resolution
import ShiftReduce.Proofs.Table.Entries
import ShiftReduce.Proofs.Grammar.Sequences
