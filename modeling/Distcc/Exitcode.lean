import Mathlib.Logic.Basic

/-!
# Exit codes

Model of `src/exitcode.h`: the codes the functions of the program return instead
of 0, which are also what the program exits with.
-/

namespace Distcc

/-- `enum dcc_exitcode`. -/
inductive ExitCode where
  | distccFailed
  | badArguments
  | bindFailed
  | connectFailed
  | compilerCrashed
  | outOfMemory
  | badHostspec
  | ioError
  | truncated
  | protocolError
  | compilerMissing
  | recursion
  | setuidFailed
  | accessDenied
  | busy
  | noSuchFile
  | noHosts
  | gone
  | timeout
  deriving DecidableEq, Repr

/-- The value of a code. -/
def ExitCode.toInt : ExitCode → Int
  | .distccFailed => 100
  | .badArguments => 101
  | .bindFailed => 102
  | .connectFailed => 103
  | .compilerCrashed => 104
  | .outOfMemory => 105
  | .badHostspec => 106
  | .ioError => 107
  | .truncated => 108
  | .protocolError => 109
  | .compilerMissing => 110
  | .recursion => 111
  | .setuidFailed => 112
  | .accessDenied => 113
  | .busy => 114
  | .noSuchFile => 115
  | .noHosts => 116
  | .gone => 117
  | .timeout => 118

/-- No code is taken for success. -/
theorem ExitCode.toInt_ne_zero (e : ExitCode) : e.toInt ≠ 0 := by
  cases e <;> decide

end Distcc
