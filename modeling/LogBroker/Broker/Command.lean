import LogBroker.Broker
import LogBroker.ConsumerGroup.Command
import LogBroker.Inspect
import LogBroker.Topic.Command

/-!
# Requests to a broker

The operations of a broker as a command language, requests to one of its topics or groups
included. `Broker.step` answers one command, `Broker.run` a whole list; `Broker.events` says what a
command reports. A command that fails leaves the broker as it was.
-/
namespace LogBroker.Broker

/-- A request to a broker. -/
inductive Command where
  | createTopic (name : String) (count : Nat) (strategy : Strategy)
  | createDefault (name : String)
  | addConsumer (group consumer : String)
  | subscribe (group topic : String)
  | publish (topic key : String) (payload : Payload)
  | publishBatch (topic key : String) (payloads : List Payload)
  /-- The same message several times, for producers whose order does not matter. -/
  | publishTimes (topic key : String) (payload : Payload) (times : Nat)
  | poll (group consumer : String)
  | onTopic (name : String) (c : Topic.Command)
  | onGroup (id : String) (c : ConsumerGroup.Command)
  | describe (topic : String)
  | list
  | stats
  deriving DecidableEq

/-- What a broker answers. -/
inductive Answer where
  /-- The topic that was created. -/
  | created (t : Topic)
  /-- The group after a consumer was added. -/
  | group (g : ConsumerGroup)
  | subscribed
  | placed (p : Placement)
  | placedBatch (p : BatchPlacement)
  /-- Where messages were stored, by partition and offset. -/
  | placements (ps : List Placement)
  | polled (ds : List Delivery)
  /-- The topic's answer, or that there is no such topic. -/
  | onTopic (a : Option Topic.Answer)
  /-- The group's answer, or that there is no such group. -/
  | onGroup (a : Option ConsumerGroup.Answer)
  | described (d : Topic.Description)
  /-- The names of all topics and the ids of all groups. -/
  | names (topics groups : List String)
  | stats (s : Stats)
  | failed (e : BrokerError)
  deriving DecidableEq

/-- Order of placements: by partition, then by offset. -/
def placementLe (p q : Placement) : Bool :=
  p.partition < q.partition || (p.partition = q.partition && p.offset ≤ q.offset)

/-- The answer to a result and the broker after it: `b` itself if the result is an error. -/
def settle {α : Type} (b : Broker) (answer : α → Answer) :
    Except BrokerError (α × Broker) → Answer × Broker
  | .ok (a, next) => (answer a, next)
  | .error e => (.failed e, b)

/-- The answer to a command and the broker after it. -/
def step (b : Broker) : Command → Answer × Broker
  | .createTopic name count strategy => b.settle .created (b.createTopic name count strategy)
  | .createDefault name => b.settle .created (b.createDefault name)
  | .addConsumer group consumer => let (g, next) := b.addConsumer group consumer; (.group g, next)
  | .subscribe group topic =>
    b.settle (fun _ => .subscribed) ((b.subscribe group topic).map fun next => ((), next))
  | .publish topic key payload => b.settle .placed (b.publish topic key payload)
  | .publishBatch topic key payloads => b.settle .placedBatch (b.publishBatch topic key payloads)
  | .publishTimes topic key payload times =>
    b.settle (fun ps => .placements (ps.mergeSort placementLe))
      (b.publishTimes topic key payload times)
  | .poll group consumer => b.settle .polled (b.poll group consumer)
  | .onTopic name c =>
    match b.topics[name]? with
    | none => (.onTopic none, b)
    | some t =>
      let (a, t, counters) := t.step b.counters c
      (.onTopic (some a), { b with counters }.setTopic name t)
  | .onGroup id c =>
    match b.groups[id]? with
    | none => (.onGroup none, b)
    | some g => let (a, g) := g.step b.store c; (.onGroup (some a), b.setGroup id g)
  | .describe topic => b.settle .described ((b.describe topic).map fun d => (d, b))
  | .list => (.names b.listTopics b.listGroups, b)
  | .stats => (.stats b.stats, b)

/-- The answers to a list of commands and the broker after them. -/
def run (b : Broker) : List Command → List Answer × Broker
  | [] => ([], b)
  | c :: rest =>
    let (a, next) := b.step c
    let (as, last) := next.run rest
    (a :: as, last)

/-! ## Events -/

/-- What a request to a topic reports, given what is reported if there is one. -/
def topicEvents (b : Broker) (topic : String) (known : Topic → List Event) : List Event :=
  match b.topics[topic]? with
  | some t => known t
  | none => [.unknownTopic topic]

/-- What a request to a group reports, given what is reported if there is one. -/
def groupEvents (b : Broker) (group : String) (known : ConsumerGroup → List Event) : List Event :=
  match b.groups[group]? with
  | some g => known g
  | none => [.unknownGroup group]

/-- What the creation of a topic reports. -/
def creationEvents : Except BrokerError (Topic × Broker) → List Event
  | .ok (t, _) => [t.creation]
  | .error (.topicAlreadyExists name) => [.duplicateTopic name]
  | .error _ => []

/-- What a poll reports. -/
def pollEvents (b : Broker) (group consumer : String) : List Event :=
  b.groupEvents group fun g =>
    g.events b.store (.poll consumer) ++
      [.polled consumer group (Delivery.all (g.poll b.store consumer).1).length]

/-- What the publishing of one message several times reports. -/
def publishTimesEvents (b : Broker) (topic key : String) (payload : Payload) :
    Nat → List Event
  | 0 => []
  | n + 1 =>
    b.topicEvents topic (·.events b.counters (.add key payload)) ++
      match b.publish topic key payload with
      | .ok (_, next) => next.publishTimesEvents topic key payload n
      | .error _ => []

/-- What a command reports. -/
def events (b : Broker) : Command → List Event
  | .createTopic name count strategy => creationEvents (b.createTopic name count strategy)
  | .createDefault name => creationEvents (b.createDefault name)
  | .addConsumer group consumer =>
    match b.groups[group]? with
    | some g => g.events b.store (.addConsumer consumer)
    | none =>
      .groupCreated group b.config.distribution.inspect ::
        (b.newGroup group).events b.store (.addConsumer consumer)
  | .subscribe group topic =>
    b.topicEvents topic fun t =>
      b.groupEvents group (·.events b.store (.subscribe t.name t.refs))
  | .publish topic key payload => b.topicEvents topic (·.events b.counters (.add key payload))
  | .publishBatch topic key payloads =>
    b.topicEvents topic (·.events b.counters (.addBatch key payloads))
  | .publishTimes topic key payload times => b.publishTimesEvents topic key payload times
  | .poll group consumer => b.pollEvents group consumer
  | .onTopic name c => ((b.topics[name]?).map (·.events b.counters c)).getD []
  | .onGroup id c => ((b.groups[id]?).map (·.events b.store c)).getD []
  | .describe topic => b.topicEvents topic fun _ => []
  | .list => []
  | .stats => []

end LogBroker.Broker
