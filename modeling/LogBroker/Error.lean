import LogBroker.Offset

/-!
# Why a request is refused

Each cause names what it is about. `BrokerError.message` is the one place with the wording.
-/
namespace LogBroker

/-- The causes for which the broker, a topic or a partition refuses a request. -/
inductive BrokerError where
  /-- No topic has this name. -/
  | topicNotFound (name : String)
  /-- No consumer group has this id. -/
  | groupNotFound (id : String)
  /-- The name is taken. -/
  | topicAlreadyExists (name : String)
  /-- A topic was asked for without any partition. -/
  | noPartitions (name : String)
  /-- The offset was never handed out by the partition. -/
  | offsetNotReserved (partition : String) (offset : Offset)
  /-- The offset holds a message. -/
  | offsetAlreadyWritten (partition : String) (offset : Offset)
  deriving DecidableEq, Repr

namespace BrokerError

/-- The error's text. -/
def message : BrokerError → String
  | topicNotFound name => s!"topic '{name}' not found"
  | groupNotFound id => s!"consumer group '{id}' not found"
  | topicAlreadyExists name => s!"topic '{name}' already exists"
  | noPartitions name => s!"topic '{name}' must have at least one partition"
  | offsetNotReserved partition offset =>
    s!"offset {offset} was not reserved on partition '{partition}'"
  | offsetAlreadyWritten partition offset =>
    s!"offset {offset} on partition '{partition}' is already written"

end BrokerError
end LogBroker
