import Std.Data.ExtTreeMap
import LogBroker.SipHash
import LogBroker.Text.Utf8

/-!
# Routing

A topic decides by its routing which of its partitions receives a message.

* Hashed routing takes the partition from a hash of the key, so one key always lands on one
  partition.
* Round-robin routing ignores the key and takes turns. Turns are counted by a counter. A topic may
  have a counter of its own or share a numbered one with other topics; sharing topics then take
  their turns from one sequence.

Counters are 64 bits wide, wrap around and start at zero.
-/
namespace LogBroker

/-- The two ways to route. -/
inductive RoutingKind where
  | hashed | roundRobin
  deriving DecidableEq, Repr

/-- The kind's name. -/
def RoutingKind.name : RoutingKind → String
  | hashed => "hashed"
  | roundRobin => "round_robin"

/-- The kind with a given name. -/
def RoutingKind.ofName? : String → Option RoutingKind
  | "hashed" => some hashed
  | "round_robin" => some roundRobin
  | _ => none

/-- Names a counter of turns. -/
inductive CounterId where
  /-- The counter of one topic. -/
  | ofTopic (name : String)
  /-- A counter that topics may share. -/
  | shared (number : Nat)
  deriving DecidableEq, Repr

/-- How often each counter was used. A counter that never was stands at zero. -/
structure Counters where
  ofTopics : Std.ExtTreeMap String UInt64 := ∅
  shared : Std.ExtTreeMap Nat UInt64 := ∅
  deriving DecidableEq

namespace Counters

/-- Where a counter stands. -/
def get (cs : Counters) : CounterId → UInt64
  | .ofTopic name => cs.ofTopics.getD name 0
  | .shared number => cs.shared.getD number 0

/-- Sets a counter. -/
def set (cs : Counters) (id : CounterId) (turn : UInt64) : Counters :=
  match id with
  | .ofTopic name => { cs with ofTopics := cs.ofTopics.insert name turn }
  | .shared number => { cs with shared := cs.shared.insert number turn }

/-- Takes one turn from a counter. -/
def advance (cs : Counters) (id : CounterId) : Counters :=
  cs.set id (cs.get id + 1)

@[simp] theorem get_set_self (cs : Counters) (id : CounterId) (turn : UInt64) :
    (cs.set id turn).get id = turn := by
  cases id <;> simp [set, get]

theorem get_set_of_ne (cs : Counters) {id id' : CounterId} (turn : UInt64) (h : id' ≠ id) :
    (cs.set id turn).get id' = cs.get id' := by
  cases id with
  | ofTopic name =>
    cases id' with
    | ofTopic name' =>
      have hne : name ≠ name' := fun e => h (e ▸ rfl)
      simp [set, get, Std.ExtTreeMap.getD_insert, hne]
    | shared _ => rfl
  | shared number =>
    cases id' with
    | ofTopic _ => rfl
    | shared number' =>
      have hne : number ≠ number' := fun e => h (e ▸ rfl)
      simp [set, get, Std.ExtTreeMap.getD_insert, hne]

end Counters

/-- How a topic routes. -/
inductive Routing where
  | hashed
  | roundRobin (counter : CounterId)
  deriving DecidableEq, Repr

namespace Routing

/-- The kind of a routing. -/
def kind : Routing → RoutingKind
  | hashed => .hashed
  | roundRobin _ => .roundRobin

/-- The hash of a key: SipHash-1-3 under the zero key of the key's UTF-8 bytes and a closing
`0xff`, which no UTF-8 text contains. -/
def keyHash (key : String) : Nat :=
  (SipHash.hash 0 0 (Text.Utf8.encode key ++ [0xff])).toNat

/-- The partition for a key among `count` partitions. -/
def index (r : Routing) (cs : Counters) (key : String) (count : Nat) : Nat :=
  match r with
  | hashed => keyHash key % count
  | roundRobin counter => (cs.get counter).toNat % count

/-- The counters after a message was routed. -/
def advance (r : Routing) (cs : Counters) : Counters :=
  match r with
  | hashed => cs
  | roundRobin counter => cs.advance counter

theorem index_lt (r : Routing) (cs : Counters) (key : String) {count : Nat} (h : 0 < count) :
    r.index cs key count < count := by
  cases r <;> exact Nat.mod_lt _ h

/-- The partitions that the keys of a list of messages are routed to, one after the other, given
for each message how many partitions there are to choose from. -/
def indices (r : Routing) (cs : Counters) : List (String × Nat) → List Nat
  | [] => []
  | (key, count) :: rest => r.index cs key count :: r.indices (r.advance cs) rest

end Routing

/-- What routing a new topic is given. -/
inductive Strategy where
  | hashed
  /-- Turns from a counter of the topic's own. -/
  | roundRobin
  /-- Turns from a shared counter. -/
  | sharedTurns (counter : Nat)
  deriving DecidableEq, Repr

namespace Strategy

/-- The routing of a topic of the given name that was asked for with this strategy. -/
def routing (s : Strategy) (topic : String) : Routing :=
  match s with
  | hashed => .hashed
  | roundRobin => .roundRobin (.ofTopic topic)
  | sharedTurns counter => .roundRobin (.shared counter)

/-- A strategy of the given kind that shares nothing. -/
def ofKind : RoutingKind → Strategy
  | .hashed => hashed
  | .roundRobin => roundRobin

end Strategy
end LogBroker
