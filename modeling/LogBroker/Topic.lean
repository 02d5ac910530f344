import LogBroker.Partition
import LogBroker.Routing

/-!
# Topics

A topic is a named row of partitions with one routing. There is always a partition to route to,
so every message finds its place. A message is stored under its key; a batch is routed once and
fills one block of offsets.
-/
namespace LogBroker

/-- Where a message was stored. -/
structure Placement where
  partition : Nat
  offset : Offset
  deriving DecidableEq, Repr

/-- Where a batch was stored. -/
structure BatchPlacement where
  partition : Nat
  offsets : OffsetRange
  deriving DecidableEq, Repr

/-- A named row of partitions. -/
structure Topic where
  name : String
  partitions : List Partition
  routing : Routing
  partitions_pos : 0 < partitions.length
  deriving DecidableEq

namespace Topic

/-- A topic with `count` empty partitions; there must be at least one. -/
def create (name : String) (count : Nat) (routing : Routing) : Except BrokerError Topic :=
  if h : count = 0 then .error (.noPartitions name)
  else .ok
    { name, routing
      partitions := (List.range count).map (Partition.new name)
      partitions_pos := by simp; omega }

/-- How many partitions there are. -/
def count (t : Topic) : Nat := t.partitions.length

/-- The partition that a key is routed to next. -/
def route (t : Topic) (cs : Counters) (key : String) : Fin t.partitions.length :=
  ⟨t.routing.index cs key t.partitions.length, t.routing.index_lt cs key t.partitions_pos⟩

/-- The topic with another partition at an index. -/
def setPartition (t : Topic) (index : Nat) (p : Partition) : Topic :=
  { t with
    partitions := t.partitions.set index p
    partitions_pos := by simpa using t.partitions_pos }

/-- Routes and stores one message. -/
def add (t : Topic) (cs : Counters) (key : String) (payload : Payload) :
    Placement × Topic × Counters :=
  let index := t.route cs key
  let (offset, p) := (t.partitions.get index).append ⟨some key, payload⟩
  (⟨index, offset⟩, t.setPartition index p, t.routing.advance cs)

/-- Routes a batch under one key and stores it in one block. -/
def addBatch (t : Topic) (cs : Counters) (key : String) (payloads : List Payload) :
    BatchPlacement × Topic × Counters :=
  let index := t.route cs key
  let (offsets, p) := (t.partitions.get index).appendBatch (payloads.map (⟨some key, ·⟩))
  (⟨index, offsets⟩, t.setPartition index p, t.routing.advance cs)

/-! ## Description -/

/-- One partition as a topic's description shows it. -/
structure PartitionDescription where
  id : String
  index : Nat
  watermark : Offset
  messages : Nat
  deriving DecidableEq, Repr

/-- What a topic tells about itself. -/
structure Description where
  name : String
  routing : String
  partitions : List PartitionDescription
  deriving DecidableEq, Repr

/-- The topic's description. -/
def describe (t : Topic) : Description where
  name := t.name
  routing := t.routing.kind.name
  partitions := t.partitions.map fun p => ⟨p.id, p.index, p.watermark, p.size⟩

end Topic
end LogBroker
