import LogBroker.ConsumerGroup
import LogBroker.Partition.Command

/-!
# Requests to a consumer group

The operations of a consumer group as a command language. A group reads partitions that it does
not hold, so a step is given their state; `Bench` puts a group and partitions together, for runs in
which both change.
-/
namespace LogBroker

namespace ConsumerGroup

/-- A request to one consumer group. -/
inductive Command where
  | addConsumer (consumer : String)
  | subscribe (topic : String) (rs : List PartitionRef)
  | rebalance
  | poll (consumer : String)
  /-- A poll with a cap of its own. -/
  | pollMax (consumer : String) (max : Nat)
  | assignment (consumer : String)
  | lag (consumer : String)
  | consumedOffset (partition : String)
  | isSubscribed (topic : String)
  deriving DecidableEq, Repr

/-- What a consumer group answers. -/
inductive Answer where
  /-- Whether the request was the first of its kind. -/
  | isNew (new : Bool)
  | rebalanced
  | polled (ds : List Delivery)
  /-- The ids of the partitions a consumer owns. -/
  | assigned (ids : List String)
  | lag (count : Int)
  | consumed (offset : Option Offset)
  | subscribed (yes : Bool)
  deriving DecidableEq

/-- The answer to a command and the group after it. -/
def step (g : ConsumerGroup) (s : Store) : Command → Answer × ConsumerGroup
  | .addConsumer consumer => let (new, h) := g.addConsumer consumer; (.isNew new, h)
  | .subscribe topic rs => let (new, h) := g.subscribe topic rs; (.isNew new, h)
  | .rebalance => (.rebalanced, g.rebalance)
  | .poll consumer => let (ds, h) := g.poll s consumer; (.polled ds, h)
  | .pollMax consumer max => let (ds, h) := g.pollWithin s consumer (some max); (.polled ds, h)
  | .assignment consumer => (.assigned ((g.owned consumer).map (·.id)), g)
  | .lag consumer => (.lag (g.lag s consumer), g)
  | .consumedOffset partition => (.consumed (g.consumedOffset partition), g)
  | .isSubscribed topic => (.subscribed (topic ∈ g.topics), g)

/-- What a deal reports, if there was something to deal; `g` is the group after it. -/
def rebalanceEvents (g : ConsumerGroup) : List Event :=
  if g.members = [] ∨ g.partitions = [] then []
  else [.rebalanced g.id g.generation.toNat g.members.length g.partitions.length g.distribution.name]

/-- What a poll reports: each partition that gave messages. -/
def deliveryEvents (g : ConsumerGroup) (consumer : String) (ds : List Delivery) : List Event :=
  ds.filterMap fun d => d.messages.getLast?.map fun last =>
    .delivered consumer g.id d.messages.length d.source.id last.offset

/-- What a command reports. -/
def events (g : ConsumerGroup) (s : Store) : Command → List Event
  | .addConsumer consumer =>
    let (new, h) := g.addConsumer consumer
    if new then .joined consumer g.id :: h.rebalanceEvents else []
  | .subscribe topic rs =>
    let (new, h) := g.subscribe topic rs
    if new then .subscribed g.id topic rs.length :: h.rebalanceEvents else []
  | .rebalance => g.rebalance.rebalanceEvents
  | .poll consumer => g.deliveryEvents consumer (g.poll s consumer).1
  | .pollMax consumer max => g.deliveryEvents consumer (g.pollWithin s consumer (some max)).1
  | _ => []

end ConsumerGroup

/-- One group together with the partitions it may read. -/
structure Bench where
  group : ConsumerGroup
  store : Store := .fresh

namespace Bench

/-- A request to the group or to one of the partitions. -/
inductive Command where
  | group (c : ConsumerGroup.Command)
  | partition (r : PartitionRef) (c : Partition.Command)
  deriving DecidableEq

/-- What a bench answers. -/
inductive Answer where
  | group (a : ConsumerGroup.Answer)
  | partition (a : Partition.Answer)
  deriving DecidableEq

/-- The answer to a command and the bench after it. -/
def step (b : Bench) : Command → Answer × Bench
  | .group c => let (a, g) := b.group.step b.store c; (.group a, { b with group := g })
  | .partition r c =>
    let (a, p) := (b.store r).step c
    (.partition a, { b with store := b.store.set r p })

/-- The answers to a list of commands and the bench after them. -/
def run (b : Bench) : List Command → List Answer × Bench
  | [] => ([], b)
  | c :: rest =>
    let (a, next) := b.step c
    let (as, last) := next.run rest
    (a :: as, last)

/-- What a command reports. -/
def events (b : Bench) : Command → List Event
  | .group c => b.group.events b.store c
  | .partition r c => (b.store r).events c

end Bench
end LogBroker
