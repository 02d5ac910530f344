import LogBroker.Distribution
import LogBroker.Event
import LogBroker.Json
import LogBroker.Limit
import LogBroker.Routing
import LogBroker.Text.Quoted
import LogBroker.Text.Utf8

/-!
# Configuration

What a broker is set up with. A configuration is written as a JSON object with one member for each
field (`Config.toJson`) and read back from JSON text (`Config.parse`).

Reading accepts an object whose members come in any order. A field that is missing has its default,
a field that is given twice is an error, and a member of any other name is skipped whatever its
value. It also accepts an array of at most four values, which are the fields in their order. A
number is a plain natural number of 64 bits. A choice is given by its name, or as an object whose
only member has that name and the value `null`.
-/
namespace LogBroker

/-- How a broker is set up. -/
structure Config where
  /-- How many partitions a topic gets when it is created without a number. -/
  defaultPartitions : UInt64 := 4
  /-- How such a topic routes. -/
  routing : RoutingKind := .hashed
  /-- How every group of the broker deals out its partitions. -/
  distribution : Distribution := .roundRobin
  /-- The cap on what one poll returns. -/
  maxPollRecords : Option UInt64 := none
  deriving DecidableEq, Repr

/-- Why there is no configuration. -/
inductive ConfigError where
  /-- The text is not a configuration. -/
  | malformed
  /-- The file cannot be read as text. -/
  | unreadable (path : String)
  deriving DecidableEq, Repr

/-- The error's text. -/
def ConfigError.message : ConfigError → String
  | malformed => "Failed to parse broker config"
  | unreadable path => s!"Failed to read broker config {path}"

namespace Config

/-- The cap on polls as a limit. -/
def maxPoll (c : Config) : Limit := c.maxPollRecords.map UInt64.toNat

/-! ## Writing -/

/-- The configuration as a JSON object. -/
def toJson (c : Config) : Json :=
  .object
    [("default_partitions", .ofNat c.defaultPartitions.toNat),
     ("partition_strategy", .ofString c.routing.name),
     ("distribution_strategy", .ofString c.distribution.name),
     ("max_poll_records", (c.maxPollRecords.map fun n => Json.ofNat n.toNat).getD .null)]

/-- The configuration as JSON text without blanks. -/
def text (c : Config) : String := c.toJson.compact

/-! ## Reading -/

/-- A natural number of 64 bits. -/
def word? (v : Json) : Option UInt64 :=
  v.natural?.bind fun n => if h : n < UInt64.size then some (UInt64.ofNatLT n h) else none

/-- A natural number of 64 bits, or `null` for none. -/
def optionalWord? : Json → Option (Option UInt64)
  | .null => some none
  | v => (word? v).map some

/-- A choice by its name, alone or as the name of a single member that is `null`. -/
def choice? {α : Type} (ofName? : String → Option α) : Json → Option α
  | .str (some name) => ofName? name
  | .obj [(some name, .null)] => ofName? name
  | _ => none

/-- The field of a name: its default if it is missing, nothing if it is repeated. -/
def field? {α : Type} (members : List (Option String × Json)) (name : String) (default : α)
    (read : Json → Option α) : Option α :=
  match members.filter (·.1 = some name) with
  | [] => some default
  | [(_, v)] => read v
  | _ => none

/-- The field at a position: its default if the array is shorter. -/
def slot? {α : Type} (items : List Json) (position : Nat) (default : α)
    (read : Json → Option α) : Option α :=
  match items[position]? with
  | none => some default
  | some v => read v

/-- The configuration with the given members. Every name must denote a text. -/
def ofMembers? (members : List (Option String × Json)) : Option Config := do
  guard (members.all (·.1.isSome))
  let defaultPartitions ← field? members "default_partitions" 4 word?
  let routing ← field? members "partition_strategy" .hashed (choice? RoutingKind.ofName?)
  let distribution ←
    field? members "distribution_strategy" .roundRobin (choice? Distribution.ofName?)
  let maxPollRecords ← field? members "max_poll_records" none optionalWord?
  return { defaultPartitions, routing, distribution, maxPollRecords }

/-- The configuration with the given fields in their order. -/
def ofItems? (items : List Json) : Option Config := do
  guard (items.length ≤ 4)
  let defaultPartitions ← slot? items 0 4 word?
  let routing ← slot? items 1 .hashed (choice? RoutingKind.ofName?)
  let distribution ← slot? items 2 .roundRobin (choice? Distribution.ofName?)
  let maxPollRecords ← slot? items 3 none optionalWord?
  return { defaultPartitions, routing, distribution, maxPollRecords }

/-- The configuration that a JSON value denotes. -/
def ofJson? : Json → Option Config
  | .obj members => ofMembers? members
  | .arr items => ofItems? items
  | _ => none

/-- The configuration that a text denotes. -/
def parse (text : String) : Except ConfigError Config :=
  match (Json.parse? text).bind ofJson? with
  | some c => .ok c
  | none => .error .malformed

/-! ## Files -/

/-- The configuration in a file, given the file's bytes if it has any to read. -/
def load (path : String) (bytes : Option (List UInt8)) : Except ConfigError Config :=
  match bytes.bind Text.Utf8.text? with
  | none => .error (.unreadable path)
  | some text => parse text

/-- Where a configuration comes from. -/
inductive Source where
  /-- No file is named. -/
  | default
  /-- A file, with its bytes if it can be read. -/
  | file (path : String) (bytes : Option (List UInt8))
  deriving DecidableEq

/-- The configuration from a source: without a file it has its defaults. -/
def ofSource : Source → Except ConfigError Config
  | .default => .ok {}
  | .file path bytes => load path bytes

/-- What is reported about a source before it is read. -/
def Source.events : Source → List Event
  | .default => []
  | .file path _ => [.loadingConfig path]

end Config
end LogBroker
