import LogBroker.Partition.Command
import LogBroker.Topic

/-!
# Requests to a topic

The operations of a topic as a command language, requests to one of its partitions included. A
topic takes its turns from counters that live outside it, so a step maps both.
-/
namespace LogBroker.Topic

/-- A request to one topic. -/
inductive Command where
  | add (key : String) (payload : Payload)
  | addBatch (key : String) (payloads : List Payload)
  | onPartition (index : Nat) (c : Partition.Command)
  deriving DecidableEq

/-- What a topic answers. -/
inductive Answer where
  | placed (p : Placement)
  | placedBatch (p : BatchPlacement)
  /-- The partition's answer, or that there is no such partition. -/
  | partition (a : Option Partition.Answer)
  deriving DecidableEq

/-- The answer to a command, with the topic and the counters after it. -/
def step (t : Topic) (cs : Counters) : Command → Answer × Topic × Counters
  | .add key payload => let (placed, next) := t.add cs key payload; (.placed placed, next)
  | .addBatch key payloads =>
    let (placed, next) := t.addBatch cs key payloads
    (.placedBatch placed, next)
  | .onPartition index c =>
    match t.partitions[index]? with
    | none => (.partition none, t, cs)
    | some p => let (a, q) := p.step c; (.partition (some a), t.setPartition index q, cs)

/-- What the creation of the topic reports. -/
def creation (t : Topic) : Event := .topicCreated t.name t.count t.routing.kind.name

/-- What a command reports: what the partition reports, then where the topic put it. -/
def events (t : Topic) (cs : Counters) : Command → List Event
  | .add key payload =>
    let placed := (t.add cs key payload).1
    (t.partitions.get (t.route cs key)).events (.append ⟨some key, payload⟩) ++
      [.placed t.name key placed.partition placed.offset]
  | .addBatch key payloads =>
    let placed := (t.addBatch cs key payloads).1
    (t.partitions.get (t.route cs key)).events (.appendBatch (payloads.map (⟨some key, ·⟩))) ++
      [.placedBatch t.name key placed.partition placed.offsets]
  | .onPartition index c => (t.partitions[index]?.map (·.events c)).getD []

end LogBroker.Topic
