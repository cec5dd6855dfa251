import Jccl.Bigint.Canonical
import Jccl.Bigint.InBounds
import Jccl.Bigint.Refusal
import Jccl.Bigint.Bitwise
import Jccl.Bigint.Grammar
import Jccl.Bigint.Writer
import Jccl.Base.String
import Jccl.Sort.Bsort
import Jccl.Table.Memory
import Jccl.List.Run
import Jccl.List.Changed
import Jccl.List.Pool
import Jccl.Dbuf.Lifetime
import Jccl.Dbuf.Heap
import Jccl.Prime.Cached
import Jccl.Dict.Select
import Jccl.Jstring.Escaped
import Jccl.Jstring.Window
import Jccl.Jstring.Copy
import Jccl.Gcd.Coprime
import Jccl.Fibonacci
import Jccl.Power.Modular
import Jccl.Happy.Bases
import Jccl.Bigint.Carry
import Jccl.Gcd.Multiple
import Jccl.Gcd.Defined
import Jccl.Power.Perfect
import Jccl.Sort.Sorted
import Jccl.Istat.Range
import Jccl.Jlog.Run
import Jccl.Jlog.Threads
import Jccl.Table.Freed
import Jccl.Dict.Destroy
import Jccl.Dict.Recount
import Jccl.Bigint.Expression
import Jccl.Bigint.Client
import Jccl.Timer.Nested
