import Std.Data.ExtTreeSet

/-!
# Distribution

A consumer group deals its partitions out to its members. Both ways to do it are functions of the
members and the partitions alone, so what was dealt before has no influence. Members are ranked in
the order of their names, each counted once; the order of names is that of their characters,
which is also the order of their UTF-8 bytes.

* Round robin: everybody starts with an empty row, and the partition at position `i` is added to the
  row of the member of rank `i` modulo the number of members.
* Range: each member owns one contiguous block, which starts where the block of the rank below
  stops; when the blocks cannot be equal, the members of lowest rank own one partition more.

What is dealt may be of any type, for neither way looks at it.
-/
namespace LogBroker

/-- Who owns what: one row for each member, in the order of their names. -/
abbrev Assignment (α : Type) := List (String × List α)

namespace Assignment

/-- What a consumer owns; nothing if it has no row. -/
def owned {α : Type} (a : Assignment α) (consumer : String) : List α :=
  (a.lookup consumer).getD []

/-- Adds an item to the row of a consumer. If there is no such row, nothing is added. -/
def give {α : Type} (a : Assignment α) (consumer : String) (item : α) : Assignment α :=
  match a with
  | [] => []
  | (c, xs) :: rest =>
    if c = consumer then (c, xs ++ [item]) :: rest else (c, xs) :: give rest consumer item

end Assignment

/-- The two ways to deal out partitions. -/
inductive Distribution where
  | roundRobin | range
  deriving DecidableEq, Repr

namespace Distribution

/-- The distribution's name. -/
def name : Distribution → String
  | roundRobin => "round_robin"
  | range => "range"

/-- The distribution with a given name. -/
def ofName? : String → Option Distribution
  | "round_robin" => some roundRobin
  | "range" => some range
  | _ => none

/-- The members by rank: in the order of their names and without repetition. -/
def ranked (members : List String) : List String :=
  (Std.ExtTreeSet.ofList members).toList

/-- Rows by turns: one item after the other is added to the row of the member whose turn it is. -/
def deal {α : Type} (members : List String) (items : List α) : Assignment α :=
  items.zipIdx.foldl (fun rows (item, i) =>
    match members[i % members.length]? with
    | some member => rows.give member item
    | none => rows) (members.map (·, []))

/-- A block of items: those at the positions from `start` on and below `stop`. -/
structure Block where
  start : Nat
  stop : Nat
  deriving DecidableEq, Repr

/-- The items in a block. -/
def Block.of {α : Type} (block : Block) (items : List α) : List α :=
  items.extract block.start block.stop

/-- The blocks of the members from a rank on, one after the other from `start` on. Each has `size`
positions, and one more below the rank `extra`. -/
def blocks (size extra : Nat) : Nat → Nat → List String → List (String × Block)
  | _, _, [] => []
  | rank, start, member :: rest =>
    let stop := start + (size + if rank < extra then 1 else 0)
    (member, ⟨start, stop⟩) :: blocks size extra (rank + 1) stop rest

/-- The blocks into which `total` items are cut. -/
def cut (members : List String) (total : Nat) : List (String × Block) :=
  blocks (total / members.length) (total % members.length) 0 0 members

/-- Deals the items out to the members. -/
def assign {α : Type} (d : Distribution) (members : List String) (items : List α) : Assignment α :=
  let ms := ranked members
  match d with
  | roundRobin => deal ms items
  | range => (cut ms items.length).map fun (member, block) => (member, block.of items)

end Distribution
end LogBroker
