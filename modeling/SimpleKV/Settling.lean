/-
The background threads left to themselves.  Without new requests, spurious
wake-ups or a `ShutDown`, the flush thread and the compaction thread take
finitely many steps in any order; where neither can go on, both wait, nothing
is half done and the levels are within their limits.
-/
import SimpleKV.TreeShape
import SimpleKV.FlushOrder
import Mathlib.Order.OrderIsoNat

namespace SimpleKV

namespace EngineState

variable {state next : EngineState} {transit : Option File} {bound : Nat}

end EngineState

/-- Steps of the flush loop up to its wait, with no buffer to flush. -/
def FlushPc.left : FlushPc → Nat
  | .done | .parked => 0
  | .park => 1
  | .clear _ => 7
  | .write => 8
  | .newFile => 9
  | .check => 10
  | .test => 11
  | .setIdle => 12
  | .loop => 13
  | .addFile => 14
  | .cacheSet _ => 15

/-- Steps of the compaction loop up to its wait, apart from `Compact`. -/
def CompactPc.left : CompactPc → Nat
  | .done | .parked => 0
  | .park => 1
  | .loop => 2
  | .compacting => 3
  | .check => 4

namespace DataBase

/-- What is left of the flush: a `Notify` may start the loop again, and a buffer
takes it round once more. -/
def flushLeft (db : DataBase) : Nat :=
  (if db.notifying then 40 else 0) +
    (if db.buffer.flushBuffer.isSome then 20 else 0) + db.flushPc.left

/-- What is left for both threads: a flush may start a compaction, but not the
other way round.  No compaction starts below level 8. -/
def left (db : DataBase) : ℕ ×ₗ ℕ ×ₗ ℕ ×ₗ ℕ ×ₗ ℕ :=
  toLex (db.flushLeft, toLex (db.compactPc.left, db.store.rank 8))

variable {db db' : DataBase}

section Runs

variable {bufferSize : UInt32} {cache : LRUCache} {limit : Nat}
  {acts : List Act}

end Runs

end DataBase

end SimpleKV
