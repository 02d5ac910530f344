import LogBroker.Event
import LogBroker.Partition

/-!
# Requests to a partition

The operations of a partition as a command language. `Partition.step` answers one command,
`Partition.run` a whole list; `Partition.events` says what a command reports.
-/
namespace LogBroker.Partition

/-- A request to one partition. -/
inductive Command where
  | append (r : Record)
  | appendBatch (rs : List Record)
  | get (offset : Offset)
  | reserveOne
  | reserve (count : Nat)
  | fill (offset : Offset) (r : Record)
  | read (start : Offset) (limit : Limit)
  deriving DecidableEq

/-- What a partition answers. -/
inductive Answer where
  /-- The offset handed out. -/
  | offset (offset : Offset)
  /-- The offsets handed out. -/
  | range (range : OffsetRange)
  /-- The message at an offset, or that there is none. -/
  | message (m : Option Message)
  /-- The messages read. -/
  | messages (ms : List Message)
  /-- The reserved offset now holds the record. -/
  | filled
  | refused (e : BrokerError)
  deriving DecidableEq

/-- The answer to a command and the partition after it. A refused command changes nothing. -/
def step (p : Partition) : Command → Answer × Partition
  | .append r => let (offset, q) := p.append r; (.offset offset, q)
  | .appendBatch rs => let (range, q) := p.appendBatch rs; (.range range, q)
  | .get offset => (.message (p.get? offset), p)
  | .reserveOne => let (offset, q) := p.reserveOne; (.offset offset, q)
  | .reserve count => let (range, q) := p.reserve count; (.range range, q)
  | .fill offset r =>
    match p.fill offset r with
    | .ok q => (.filled, q)
    | .error e => (.refused e, p)
  | .read start limit => (.messages (p.read start limit), p)

/-- The answers to a list of commands and the partition after them. -/
def run (p : Partition) : List Command → List Answer × Partition
  | [] => ([], p)
  | c :: rest =>
    let (a, q) := p.step c
    let (as, last) := q.run rest
    (a :: as, last)

/-- What a command reports: only stored appends and batches are. -/
def events (p : Partition) : Command → List Event
  | .append r => [.appended p.id (p.append r).1]
  | .appendBatch rs => [.appendedBatch p.id (p.appendBatch rs).1]
  | _ => []

end LogBroker.Partition
