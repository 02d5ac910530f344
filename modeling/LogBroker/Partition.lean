import Std.Data.ExtTreeMap
import LogBroker.Error
import LogBroker.Limit
import LogBroker.Message

/-!
# Partitions

A partition is a log of messages by offset, and a watermark: the offset the next producer
receives. Offsets are handed out by moving the watermark, alone or in blocks, either together with
the messages that fill them (`append`, `appendBatch`) or ahead of them (`reserve`). A reserved
offset stays empty until somebody fills it (`fill`), which succeeds once.

Moving the watermark by a block wraps like any sum of offsets. A block of 2^63 offsets or more
therefore moves it backwards, and what is then appended replaces what the log held at that
offset.

Readers see the messages at consecutive offsets (`read`) and stop before the first empty one.
-/
namespace LogBroker

/-- The messages of a partition by their offset. -/
abbrev Log := Std.ExtTreeMap Offset Message

namespace Log

/-- Stores records at consecutive offsets from `offset` on. -/
def store (log : Log) : Offset → List Record → Log
  | _, [] => log
  | offset, r :: rest => store (log.insert offset (r.stamp offset)) (offset + 1) rest

/-- The messages stored at consecutive offsets from `offset` on, at most `count` of them. -/
def run (log : Log) : Nat → Offset → List Message
  | 0, _ => []
  | count + 1, offset =>
    match log[offset]? with
    | none => []
    | some m => m :: run log count (offset + 1)

end Log

/-- One partition of a topic. -/
structure Partition where
  topic : String
  index : Nat
  /-- The offset the next producer receives. -/
  watermark : Offset := 0
  log : Log := ∅
  deriving DecidableEq

namespace Partition

/-- The id of a topic's partition. -/
def idOf (topic : String) (index : Nat) : String := topic ++ "-part-" ++ toString index

/-- The partition's id. -/
def id (p : Partition) : String := idOf p.topic p.index

/-- A partition without messages. -/
def new (topic : String) (index : Nat) : Partition := { topic, index }

/-- How many messages are stored. -/
def size (p : Partition) : Nat := p.log.size

/-- The message at an offset, if one is stored there. -/
def get? (p : Partition) (offset : Offset) : Option Message := p.log[offset]?

/-- Stores a record at the watermark and gives its offset. -/
def append (p : Partition) (r : Record) : Offset × Partition :=
  (p.watermark,
    { p with
      watermark := Offset.wrap (p.watermark + 1)
      log := p.log.insert p.watermark (r.stamp p.watermark) })

/-- Hands out a block of `count` offsets without filling them. -/
def reserve (p : Partition) (count : Nat) : OffsetRange × Partition :=
  let stop := Offset.wrap (p.watermark + count)
  (⟨p.watermark, stop⟩, { p with watermark := stop })

/-- Hands out one offset without filling it. -/
def reserveOne (p : Partition) : Offset × Partition :=
  let (range, p) := p.reserve 1
  (range.first, p)

/-- Stores records in a block of offsets of their own, in order. -/
def appendBatch (p : Partition) (rs : List Record) : OffsetRange × Partition :=
  let (range, p) := p.reserve rs.length
  (range, { p with log := p.log.store range.first rs })

/-- Stores a record at an offset handed out before, unless the offset is taken. -/
def fill (p : Partition) (offset : Offset) (r : Record) : Except BrokerError Partition :=
  if offset < 0 ∨ p.watermark ≤ offset then .error (.offsetNotReserved p.id offset)
  else if offset ∈ p.log then .error (.offsetAlreadyWritten p.id offset)
  else .ok { p with log := p.log.insert offset (r.stamp offset) }

/-- The messages stored at consecutive offsets from `start` on, within the limit. -/
def read (p : Partition) (start : Offset) (limit : Limit) : List Message :=
  p.log.run (limit.clip p.size) start

end Partition
end LogBroker
