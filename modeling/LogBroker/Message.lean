import LogBroker.Offset
import LogBroker.Text.Utf8

/-!
# Records and messages

A producer hands over a record. Stored under an offset it becomes a message, which never changes
again.
-/
namespace LogBroker

/-- The bytes of a message. -/
abbrev Payload := List UInt8

/-- What a producer hands over: a payload of bytes, with or without a key. -/
structure Record where
  key : Option String
  payload : Payload
  deriving DecidableEq

/-- A record as it is stored: stamped with its offset. -/
structure Message where
  offset : Offset
  key : Option String
  payload : Payload
  deriving DecidableEq

/-- The message that stores the record under an offset. -/
def Record.stamp (r : Record) (offset : Offset) : Message := ⟨offset, r.key, r.payload⟩

namespace Message

/-- The record that the message stores. -/
def record (m : Message) : Record := ⟨m.key, m.payload⟩

/-- The payload as text, with replacement characters where it is not UTF-8. -/
def text (m : Message) : String := Text.Utf8.lossy m.payload

/-- Whether the payload is UTF-8 throughout. -/
def isText (m : Message) : Bool := (Text.Utf8.text? m.payload).isSome

end Message
end LogBroker
