import ShiftReduce.Parser.Basic

/-! Handlers that record their calls under a tag. Every registration has its own
count, which goes on over parses and after the handler was replaced. -/

namespace ShiftReduce

structure Call (τ : Type) where
  tag : τ
  count : Nat
  arguments : List Token
deriving DecidableEq

/-- The number of calls of each recording handler made so far, and the calls
recorded since they were last taken out. -/
structure Recorder (τ : Type) where
  counts : List Nat := []
  calls : List (Call τ) := []
deriving DecidableEq

namespace Recorder

variable {τ : Type} (recorder : Recorder τ)

def handler (place : Nat) (tag : τ) : Handler (Recorder τ) := fun arguments recorder =>
  let count := recorder.counts.getD place 0 + 1
  { counts := recorder.counts.set place count
    calls := recorder.calls ++ [{ tag, count, arguments }] }

def create (tag : τ) : Handler (Recorder τ) × Recorder τ :=
  (handler recorder.counts.length tag, { recorder with counts := recorder.counts ++ [0] })

def take : List (Call τ) × Recorder τ :=
  (recorder.calls, { recorder with calls := [] })

end Recorder

end ShiftReduce
