import ShiftReduce.Calculator.Basic

/-! The command line: the value of the expression given as first argument. -/

def main (arguments : List String) : IO UInt32 := do
  let report := ShiftReduce.Calculator.report arguments.head?
  IO.print report.output
  IO.eprint report.errors
  return report.code.toUInt32
