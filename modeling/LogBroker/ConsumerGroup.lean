import LogBroker.Distribution
import LogBroker.Partition

/-!
# Consumer groups

A consumer group shares the reading of topics among its members. It lists its members and its
topics in the order in which they came, and the partitions of all its topics in the same order.
Whenever a member joins or a topic is added, the partitions are dealt out anew over all members
(`ConsumerGroup.rebalance`); each such deal starts a new generation.

For every partition the group keeps a cursor, the offset it consumed last. Cursors belong to the
group and not to its members, so a deal never moves one. They are kept by partition id.

A poll reads on behalf of one member: from each partition it owns, in order, the messages that
follow the cursor, up to a limit on all of them together (`ConsumerGroup.poll`). What it returns
says from which partition each run of messages came.

A group holds no partitions. It names them (`PartitionRef`) and is shown their state as a `Store`.
-/
namespace LogBroker

/-- Names one partition: the collection that holds it, and its topic and place there. Partitions of
two collections may have equal ids and are still different partitions. -/
structure PartitionRef where
  home : String
  topic : String
  index : Nat
  deriving DecidableEq, Repr

/-- The id of the partition that is named. -/
def PartitionRef.id (r : PartitionRef) : String := Partition.idOf r.topic r.index

/-- The state of every partition that can be named. -/
abbrev Store := PartitionRef → Partition

namespace Store

/-- All partitions without messages. -/
def fresh : Store := fun r => .new r.topic r.index

/-- The store with another state for one partition. -/
def set (s : Store) (r : PartitionRef) (p : Partition) : Store :=
  fun r' => if r' = r then p else s r'

@[simp] theorem set_self (s : Store) (r : PartitionRef) (p : Partition) : s.set r p r = p :=
  if_pos rfl

theorem set_of_ne (s : Store) {r r' : PartitionRef} (p : Partition) (h : r' ≠ r) :
    s.set r p r' = s r' :=
  if_neg h

end Store

/-- The group's partitions that hold a cursor, with the offset consumed last. -/
abbrev Cursors := Std.ExtTreeMap String Offset

/-- The cursor of a partition nothing was consumed from. -/
def nothingConsumed : Offset := -1

namespace Cursors

/-- The last offset consumed from a partition. -/
def consumed (cs : Cursors) (r : PartitionRef) : Offset := cs.getD r.id nothingConsumed

/-- Starts a cursor for each partition that has none. -/
def start (cs : Cursors) (rs : List PartitionRef) : Cursors :=
  rs.foldl (fun cs r => cs.insertIfNew r.id nothingConsumed) cs

end Cursors

/-- The messages that one poll took from one partition. -/
structure Delivery where
  source : PartitionRef
  messages : List Message
  deriving DecidableEq

/-- All messages of a poll in the order in which they are returned. -/
def Delivery.all (ds : List Delivery) : List Message := ds.flatMap (·.messages)

/-- Whether a group's partitions were ever dealt out. -/
inductive GroupState where
  | empty | assigned
  deriving DecidableEq, Repr

/-- A consumer group. -/
structure ConsumerGroup where
  id : String
  distribution : Distribution
  /-- The cap on what a plain poll returns. -/
  maxPoll : Limit := none
  members : List String := []
  topics : List String := []
  partitions : List PartitionRef := []
  assignment : Assignment PartitionRef := []
  cursors : Cursors := ∅
  generation : UInt32 := 0
  deriving DecidableEq

namespace ConsumerGroup

/-- Whether the group's partitions were ever dealt out. -/
def state (g : ConsumerGroup) : GroupState := if g.generation = 0 then .empty else .assigned

/-- The partitions a consumer owns. -/
def owned (g : ConsumerGroup) (consumer : String) : List PartitionRef := g.assignment.owned consumer

/-- Deals all partitions out to all members, once there is one of each. The number of the
generation is 32 bits wide. -/
def rebalance (g : ConsumerGroup) : ConsumerGroup :=
  if g.members = [] ∨ g.partitions = [] then g
  else
    { g with
      assignment := g.distribution.assign g.members g.partitions
      generation := g.generation + 1 }

/-- Takes in a consumer; `false` if it is a member already. -/
def addConsumer (g : ConsumerGroup) (consumer : String) : Bool × ConsumerGroup :=
  if consumer ∈ g.members then (false, g)
  else (true, { g with members := g.members ++ [consumer] }.rebalance)

/-- Takes on a topic with its partitions; `false` if the group has a topic of that name already. -/
def subscribe (g : ConsumerGroup) (topic : String) (rs : List PartitionRef) :
    Bool × ConsumerGroup :=
  if topic ∈ g.topics then (false, g)
  else
    (true,
      { g with
        topics := g.topics ++ [topic]
        partitions := g.partitions ++ rs
        cursors := g.cursors.start rs }.rebalance)

/-- Reads from partitions in order and moves their cursors, until the limit is spent. -/
def deliver (s : Store) : List PartitionRef → Cursors → Limit → List Delivery × Cursors
  | [], cs, _ => ([], cs)
  | r :: rest, cs, limit =>
    if limit.spent then ([], cs)
    else
      let consumed := cs.consumed r
      let batch := (s r).read (consumed + 1) limit
      let last := (batch.getLast?.map (·.offset)).getD consumed
      let (ds, cs') := deliver s rest (cs.insert r.id last) (limit.after batch.length)
      (⟨r, batch⟩ :: ds, cs')

/-- Reads what a consumer has not consumed yet from the partitions it owns, within a limit. -/
def pollWithin (g : ConsumerGroup) (s : Store) (consumer : String) (limit : Limit) :
    List Delivery × ConsumerGroup :=
  let (ds, cs) := deliver s (g.owned consumer) g.cursors limit
  (ds, { g with cursors := cs })

/-- Reads what a consumer has not consumed yet, within the group's own cap. -/
def poll (g : ConsumerGroup) (s : Store) (consumer : String) : List Delivery × ConsumerGroup :=
  g.pollWithin s consumer g.maxPoll

/-- How far a consumer is behind: over the partitions it owns, the offsets that lie between the
cursor and the watermark. -/
def lag (g : ConsumerGroup) (s : Store) (consumer : String) : Int :=
  (g.owned consumer).foldr (fun r behind => (s r).watermark - 1 - g.cursors.consumed r + behind) 0

/-- The last offset consumed from the partition with an id; `none` if the group has no such
partition. -/
def consumedOffset (g : ConsumerGroup) (id : String) : Option Offset := g.cursors[id]?

end ConsumerGroup
end LogBroker
