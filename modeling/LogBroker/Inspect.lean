import LogBroker.Config
import LogBroker.ConsumerGroup
import LogBroker.Text.Quoted
import LogBroker.Topic

/-!
# Inspection

How configurations, topics and groups are shown on one line for inspection: the name of the type,
then its fields by name. Texts are quoted, lists stand in brackets, sets and maps in braces.
-/
namespace LogBroker
open Text.Quoted (quote enclose)

namespace Inspect

/-- Items in brackets. -/
def list (items : List String) : String := enclose "[" "]" items

/-- Items in braces. -/
def set (items : List String) : String := enclose "\x7b" "\x7d" items

/-- A value that may be missing. -/
def optional : Option String → String
  | none => "None"
  | some s => "Some(" ++ s ++ ")"

/-- A type's name and its fields. -/
def named (name : String) (fields : List (String × String)) : String :=
  name ++ enclose " \x7b " " \x7d" (fields.map fun (field, value) => field ++ ": " ++ value)

/-- Keys with their values. -/
def map (entries : List (String × String)) : String :=
  set (entries.map fun (key, value) => key ++ ": " ++ value)

end Inspect
open Inspect

/-- The routing's name in inspection. -/
def RoutingKind.inspect : RoutingKind → String
  | hashed => "Hashed"
  | roundRobin => "RoundRobin"

/-- The distribution's name in inspection. -/
def Distribution.inspect : Distribution → String
  | roundRobin => "RoundRobin"
  | range => "Range"

/-- The configuration on one line. -/
def Config.inspect (c : Config) : String :=
  named "BrokerConfig"
    [("default_partitions", toString c.defaultPartitions.toNat),
     ("partition_strategy", c.routing.inspect),
     ("distribution_strategy", c.distribution.inspect),
     ("max_poll_records", optional (c.maxPollRecords.map fun n => toString n.toNat))]

/-- The topic on one line. -/
def Topic.inspect (t : Topic) : String :=
  named "Topic"
    [("name", quote t.name),
     ("partitions", toString t.count),
     ("strategy", quote t.routing.kind.name)]

/-- The message on one line. -/
def Message.inspect (m : Message) : String :=
  named "Message"
    [("offset", toString m.offset),
     ("key", optional (m.key.map quote)),
     ("payload", quote m.text)]

/-- The partition on one line. -/
def Partition.inspect (p : Partition) : String :=
  named "Partition"
    [("id", quote p.id),
     ("index", toString p.index),
     ("next_offset", toString p.watermark),
     ("log", named "RwLock"
       [("data", map (p.log.toList.map fun (offset, m) => (toString offset, m.inspect)))])]

/-- The group on one line, its partitions as the store shows them. -/
def ConsumerGroup.inspect (g : ConsumerGroup) (s : Store) : String :=
  let partitions (rs : List PartitionRef) := list (rs.map fun r => (s r).inspect)
  named "ConsumerGroup"
    [("group_id", quote g.id),
     ("distribution", quote g.distribution.name),
     ("max_poll_records", optional (g.maxPoll.map toString)),
     ("inner", named "GroupInner"
       [("members", set (g.members.map quote)),
        ("subscribed_topics", set (g.topics.map quote)),
        ("partitions", partitions g.partitions),
        ("assignment", map (g.assignment.map fun (member, rs) => (quote member, partitions rs))),
        ("consumed_offsets",
          map (g.cursors.toList.map fun (id, offset) => (quote id, toString offset))),
        ("generation", toString g.generation)])]

end LogBroker
