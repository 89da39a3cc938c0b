import Mathlib.Data.Int.ModEq
import Mathlib.Data.Nat.Digits.Defs
import ShieldReduce.Lib.Bytes

/-!
# Rolling polynomial hashes

The hash of a window under a base and a modulus, and what it becomes when the window takes a byte at
its end or loses the byte at its front.
-/

namespace ShieldReduce.Lib

section RollingHash
variable {base modulus : Nat}

end RollingHash

end ShieldReduce.Lib
