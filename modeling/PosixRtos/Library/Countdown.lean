import Mathlib.Logic.Function.Iterate
import Mathlib.Tactic.Common

/-! A counter that is counted down at each visit, and reloaded by the visit that
empties it. A period of 0 leaves it at rest. -/
namespace PosixRtos.Library.Countdown

def visit (period left : Nat) : Nat := if left = 1 then period else left - 1

variable {first period n : Nat}

end PosixRtos.Library.Countdown
