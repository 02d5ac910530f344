import LogBroker.Config
import LogBroker.ConsumerGroup
import LogBroker.Topic

/-!
# The broker

A broker is a registry of topics and of consumer groups, each under its own name. It counts the
turns that topics take from their counters, and all messages published through it.

An operation that names an unknown topic or group, or creates a topic that cannot be, gives an
error and no next state: a failure leaves no trace. Where both a topic and a group are unknown the
topic counts. A group comes into being with its first consumer.

Groups read the partitions in the broker's topics; `Broker.store` shows them. A group can be handed
partitions of no topic as well. These show as empty, so what a stand-alone partition holds is not
seen through a broker.
-/
namespace LogBroker

/-- The names of a topic's partitions in the broker that registers it. -/
def Topic.refs (t : Topic) : List PartitionRef :=
  (List.range t.count).map fun index => ⟨t.name, t.name, index⟩

/-- Totals over a whole broker. -/
structure Stats where
  topics : Nat
  partitions : Nat
  groups : Nat
  messages : Nat
  deriving DecidableEq, Repr

/-- A registry of topics and consumer groups. -/
structure Broker where
  config : Config := {}
  topics : Std.ExtTreeMap String Topic := ∅
  groups : Std.ExtTreeMap String ConsumerGroup := ∅
  counters : Counters := {}
  /-- How many messages were published, a counter that wraps around. -/
  published : UInt64 := 0
  deriving DecidableEq

namespace Broker

/-- The state of the partitions of all topics. One that no topic has shows as empty. -/
def store (b : Broker) : Store := fun r =>
  ((b.topics[r.home]?.filter (·.name = r.topic)).bind fun t => t.partitions[r.index]?).getD
    (.new r.topic r.index)

/-- The topic of a name. -/
def findTopic (b : Broker) (name : String) : Except BrokerError Topic :=
  match b.topics[name]? with
  | some t => .ok t
  | none => .error (.topicNotFound name)

/-- The group of an id. -/
def findGroup (b : Broker) (id : String) : Except BrokerError ConsumerGroup :=
  match b.groups[id]? with
  | some g => .ok g
  | none => .error (.groupNotFound id)

/-- The broker with another state for one topic. -/
def setTopic (b : Broker) (name : String) (t : Topic) : Broker :=
  { b with topics := b.topics.insert name t }

/-- The broker with another state for one group. -/
def setGroup (b : Broker) (id : String) (g : ConsumerGroup) : Broker :=
  { b with groups := b.groups.insert id g }

/-- The broker after `count` more messages were published. -/
def countPublished (b : Broker) (count : Nat) : Broker :=
  { b with published := b.published + UInt64.ofNat count }

/-! ## Topics -/

/-- Registers a new topic. That the name is free comes first, then that there are partitions. -/
def createTopic (b : Broker) (name : String) (count : Nat) (strategy : Strategy) :
    Except BrokerError (Topic × Broker) :=
  if name ∈ b.topics then .error (.topicAlreadyExists name)
  else do
    let t ← Topic.create name count (strategy.routing name)
    return (t, b.setTopic name t)

/-- Registers a new topic as the configuration says. -/
def createDefault (b : Broker) (name : String) : Except BrokerError (Topic × Broker) :=
  b.createTopic name b.config.defaultPartitions.toNat (.ofKind b.config.routing)

/-- Publishes one message. -/
def publish (b : Broker) (topic key : String) (payload : Payload) :
    Except BrokerError (Placement × Broker) := do
  let t ← b.findTopic topic
  let (placed, t, counters) := t.add b.counters key payload
  return (placed, ({ b with counters }.setTopic topic t).countPublished 1)

/-- Publishes a batch under one key. -/
def publishBatch (b : Broker) (topic key : String) (payloads : List Payload) :
    Except BrokerError (BatchPlacement × Broker) := do
  let t ← b.findTopic topic
  let (placed, t, counters) := t.addBatch b.counters key payloads
  return (placed, ({ b with counters }.setTopic topic t).countPublished payloads.length)

/-- Publishes the same message several times. -/
def publishTimes (b : Broker) (topic key : String) (payload : Payload) :
    Nat → Except BrokerError (List Placement × Broker)
  | 0 => .ok ([], b)
  | n + 1 => do
    let (placed, b) ← b.publish topic key payload
    let (more, b) ← b.publishTimes topic key payload n
    return (placed :: more, b)

/-- Describes a topic. -/
def describe (b : Broker) (topic : String) : Except BrokerError Topic.Description :=
  (b.findTopic topic).map Topic.describe

/-! ## Groups -/

/-- A group as the broker opens it. -/
def newGroup (b : Broker) (id : String) : ConsumerGroup :=
  { id, distribution := b.config.distribution, maxPoll := b.config.maxPoll }

/-- Adds a consumer to a group, which is opened if it is new. -/
def addConsumer (b : Broker) (group consumer : String) : ConsumerGroup × Broker :=
  let (_, g) := (b.groups.getD group (b.newGroup group)).addConsumer consumer
  (g, b.setGroup group g)

/-- Subscribes a group to all partitions of a topic. -/
def subscribe (b : Broker) (group topic : String) : Except BrokerError Broker := do
  let t ← b.findTopic topic
  let g ← b.findGroup group
  return b.setGroup group (g.subscribe t.name t.refs).2

/-- Polls on behalf of a consumer. -/
def poll (b : Broker) (group consumer : String) : Except BrokerError (List Delivery × Broker) := do
  let g ← b.findGroup group
  let (ds, g) := g.poll b.store consumer
  return (ds, b.setGroup group g)

/-! ## The whole broker -/

/-- The names of all topics in order. -/
def listTopics (b : Broker) : List String := b.topics.keys

/-- The ids of all groups in order. -/
def listGroups (b : Broker) : List String := b.groups.keys

/-- The totals. -/
def stats (b : Broker) : Stats where
  topics := b.topics.size
  partitions := b.topics.values.foldr (fun t total => t.count + total) 0
  groups := b.groups.size
  messages := b.published.toNat

end Broker

/-! ## As JSON -/

/-- The totals as a JSON object. -/
def Stats.toJson (s : Stats) : Json :=
  .object
    [("total_topics", .ofNat s.topics),
     ("total_partitions", .ofNat s.partitions),
     ("total_consumer_groups", .ofNat s.groups),
     ("total_messages", .ofNat s.messages)]

/-- The description as a JSON object. -/
def Topic.Description.toJson (d : Topic.Description) : Json :=
  .object
    [("name", .ofString d.name),
     ("partition_strategy", .ofString d.routing),
     ("partitions", .arr (d.partitions.map fun p =>
       .object
         [("id", .ofString p.id),
          ("index", .ofNat p.index),
          ("high_watermark", .ofInt p.watermark),
          ("messages", .ofNat p.messages)]))]

end LogBroker
