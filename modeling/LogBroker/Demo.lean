import LogBroker.Broker.Command

/-!
# A demonstration run

Four producers publish 250 messages each to one topic, under sixteen keys, and a group of three
consumers drains it. The consumers poll in rounds until every message was consumed or the rounds
are over, so a run ends also where a configuration keeps the consumers from receiving everything.

`Demo.run` gives what a run prints: the lines of its log and, where it fails, why.
-/
namespace LogBroker.Demo

/-- The topic's name. -/
def topic : String := "orders"

/-- The group's id. -/
def group : String := "order-processors"

/-- The consumers' names. -/
def consumers : List String := ["consumer-0", "consumer-1", "consumer-2"]

/-- How many producers there are. -/
def producers : Nat := 4

/-- How many messages each producer publishes. -/
def messagesPerProducer : Nat := 250

/-- How many messages are published. -/
def expected : Nat := producers * messagesPerProducer

/-- How many keys the messages are spread over. -/
def keys : Nat := 16

/-- How often a consumer polls at most: every 50 milliseconds in ten seconds, both ends
included. -/
def rounds : Nat := 201

/-- The key and the payload of the message of a number from a producer. -/
def message (producer number : Nat) : String × Payload :=
  (s!"customer-{number % keys}", Text.Utf8.encode s!"order {number} from producer {producer}")

/-- The commands of all producers. -/
def publishes : List Broker.Command :=
  (List.range producers).flatMap fun producer =>
    (List.range messagesPerProducer).map fun number =>
      let (key, payload) := message producer number
      .publish topic key payload

/-- The commands that set up the group. -/
def joins : List Broker.Command :=
  consumers.map (.addConsumer group ·) ++ [.subscribe group topic]

/-- How many messages an answer returns. -/
def received : Broker.Answer → Nat
  | .polled ds => (Delivery.all ds).length
  | _ => 0

/-- One poll of each consumer: how many messages they received, and the broker after it. -/
def round (b : Broker) : Nat × Broker :=
  let (answers, next) := b.run (consumers.map (.poll group ·))
  (answers.foldr (fun a total => received a + total) 0, next)

/-- Rounds of polls until `missing` messages were received: how many were, and the broker after
them. -/
def drain : Nat → Nat → Broker → Nat × Broker
  | 0, _, b => (0, b)
  | left + 1, missing, b =>
    if missing = 0 then (0, b)
    else
      let (count, next) := round b
      let (more, last) := drain left (missing - count) next
      (count + more, last)

/-- What a run prints, and the exit code it ends with. -/
structure Report where
  exit : Nat
  log : List String
  /-- Why the run failed, the outermost reason first. -/
  reasons : List String := []
  deriving DecidableEq, Repr

/-- The lines that tell why the run failed. -/
def Report.errors (r : Report) : List String :=
  match r.reasons with
  | [] => []
  | [reason] => ["Error: " ++ reason]
  | reason :: causes => ("Error: " ++ reason) :: "Caused by:" :: causes

/-- The events that a run of commands reports at the level of information or above. -/
def logOf (b : Broker) : List Broker.Command → List String
  | [] => []
  | c :: rest =>
    ((b.events c).filter (·.level ≠ .debug)).map Event.message ++ logOf (b.step c).2 rest

/-- The lines that sum up a run in which `total` messages were consumed. -/
def summary (b : Broker) (total : Nat) : List String :=
  let stats := b.stats
  [s!"Done: {stats.messages} published, {total} consumed across {stats.partitions} partitions",
   s!"Broker stats: {stats.toJson.compact}"] ++
    match b.describe topic with
    | .ok d => [s!"Topic layout: {d.toJson.compact}"]
    | .error _ => []

/-- A run with a configuration. -/
def runWith (config : Config) : Report :=
  let b : Broker := { config }
  let opening := s!"Starting broker with {config.inspect}"
  let creation := logOf b [.createDefault topic]
  match b.createDefault topic with
  | .error e =>
    { exit := 1
      log := opening :: creation
      reasons := ["Failed to create demo topic", e.message] }
  | .ok (_, b) =>
    let setup := opening :: creation ++ logOf b joins
    let ready := (b.run joins).2
    let full := (ready.run publishes).2
    let (total, last) := drain rounds expected full
    let log := setup ++ summary last total
    if total = expected then { exit := 0, log }
    else { exit := 1, log, reasons := [s!"consumed {total} of {expected} messages"] }

/-- A run with the configuration from a source. -/
def run (source : Config.Source) : Report :=
  let loading := source.events.map Event.message
  match Config.ofSource source with
  | .ok config => let r := runWith config; { r with log := loading ++ r.log }
  | .error e => { exit := 1, log := loading, reasons := [e.message] }

end LogBroker.Demo
