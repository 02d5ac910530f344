import LogBroker.Offset

/-!
# What is reported

The broker tells an observer what happened, as events. An event holds the facts; its level and
its text are functions of it.
-/
namespace LogBroker

/-- How much an event matters. -/
inductive Level where
  | debug | info | warn
  deriving DecidableEq, Repr

/-- The level's name. -/
def Level.name : Level → String
  | debug => "DEBUG"
  | info => "INFO"
  | warn => "WARN"

/-- Something that happened. -/
inductive Event where
  /-- A configuration file is about to be read. -/
  | loadingConfig (path : String)
  /-- A message was stored. -/
  | appended (partition : String) (offset : Offset)
  /-- A batch was stored. -/
  | appendedBatch (partition : String) (offsets : OffsetRange)
  /-- A topic came into being. -/
  | topicCreated (name : String) (partitions : Nat) (routing : String)
  /-- A topic routed a message. -/
  | placed (topic key : String) (partition : Nat) (offset : Offset)
  /-- A topic routed a batch. -/
  | placedBatch (topic key : String) (partition : Nat) (offsets : OffsetRange)
  /-- A consumer became a member. -/
  | joined (consumer group : String)
  /-- A group took on a topic. -/
  | subscribed (group topic : String) (partitions : Nat)
  /-- A group's partitions were dealt out anew. -/
  | rebalanced (group : String) (generation members partitions : Nat) (distribution : String)
  /-- A consumer read a run of messages of one partition. -/
  | delivered (consumer group : String) (count : Nat) (partition : String) (last : Offset)
  /-- The broker opened a group. -/
  | groupCreated (id distribution : String)
  /-- A topic name was already taken. -/
  | duplicateTopic (name : String)
  /-- A request named no registered topic. -/
  | unknownTopic (name : String)
  /-- A request named no registered group. -/
  | unknownGroup (id : String)
  /-- The broker answered a poll. -/
  | polled (consumer group : String) (count : Nat)
  deriving DecidableEq, Repr

namespace Event

/-- The event's level. -/
def level : Event → Level
  | loadingConfig .. | topicCreated .. | joined .. | subscribed .. | rebalanced ..
  | groupCreated .. => .info
  | appended .. | appendedBatch .. | placed .. | placedBatch .. | delivered .. | polled .. => .debug
  | duplicateTopic .. | unknownTopic .. | unknownGroup .. => .warn

/-- The event's text. -/
def message : Event → String
  | loadingConfig path => s!"Loading broker config from {path}"
  | appended partition offset => s!"Appended offset {offset} to {partition}"
  | appendedBatch partition offsets => s!"Appended offsets {offsets.text} to {partition}"
  | topicCreated name partitions routing =>
    s!"Created topic {name} with {partitions} partitions ({routing} routing)"
  | placed topic key partition offset =>
    s!"Topic {topic} key {key} -> partition {partition} offset {offset}"
  | placedBatch topic key partition offsets =>
    s!"Topic {topic} key {key} -> partition {partition} offsets {offsets.text}"
  | joined consumer group => s!"Consumer {consumer} joined group {group}"
  | subscribed group topic partitions =>
    s!"Group {group} subscribed to {topic} ({partitions} partitions)"
  | rebalanced group generation members partitions distribution =>
    s!"Rebalanced group {group} (generation {generation}): {members} members, " ++
      s!"{partitions} partitions, {distribution} strategy"
  | delivered consumer group count partition last =>
    s!"Consumer {consumer} in group {group} read {count} messages from {partition}, now at {last}"
  | groupCreated id distribution => s!"Created consumer group {id} ({distribution} distribution)"
  | duplicateTopic name => s!"Rejected duplicate topic {name}"
  | unknownTopic name => s!"Unknown topic {name}"
  | unknownGroup id => s!"Unknown consumer group {id}"
  | polled consumer group count =>
    s!"Poll by {consumer} in group {group} returned {count} messages"

/-- The event as a line of a log: its level and its text. -/
def line (e : Event) : String := e.level.name ++ " " ++ e.message

end Event
end LogBroker
