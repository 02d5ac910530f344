import Mathlib
import LogBroker.Proofs.Bench.Generation
import LogBroker.Proofs.Partition.Read
import LogBroker.Topic.Command

/-!
# Nothing goes out of bounds

Some operations are partial: a remainder or quotient by zero, a position that a list does not have,
a slice that is not inside its list, a row that is not there, a difference below zero, a number of a
generation that 32 bits do not hold. The definitions of this library are total and give a value to
each of these. Here they are written once more in a way that stops instead: a `Checked` definition
goes the same way as the one it is named after and is `none` as soon as something is out of bounds.

Each of them is shown to be `some` of what it checks, in the states in which it is used.

* A topic has a partition, so the modulus of its routing is not zero and the index is that of a
  partition (`Topic.stepChecked_eq`).
* A deal goes to at least one member. By turns, there is a member for each turn and it has a row
  (`Distribution.dealChecked_eq`); by blocks, each slice is inside the list, because the running
  start is `Distribution.below` (`Distribution.sliceBlocks_eq`).
* A poll never returns more than its limit lets through, so what is left can be computed
  (`ConsumerGroup.deliverChecked_eq`).
* The number of the next generation fits as long as there were fewer than `2 ^ 32` deals
  (`ConsumerGroup.stepChecked_eq`).

Sums of offsets are not checked: they wrap, which is part of what a partition does.
-/
namespace LogBroker

namespace Checked

/-- The remainder; `none` for a division by zero. -/
def mod (n m : Nat) : Option Nat := if m = 0 then none else some (n % m)

/-- The quotient; `none` for a division by zero. -/
def div (n m : Nat) : Option Nat := if m = 0 then none else some (n / m)

/-- The difference; `none` below zero. -/
def sub (n m : Nat) : Option Nat := if m ≤ n then some (n - m) else none

/-- The next number of 32 bits; `none` after the last one. -/
def next (n : UInt32) : Option UInt32 := if n.toNat + 1 < 2 ^ 32 then some (n + 1) else none

/-- The items at the positions from `start` on and below `stop`; `none` if the list has no such
positions. -/
def slice {α : Type} (xs : List α) (start stop : Nat) : Option (List α) :=
  if start ≤ stop ∧ stop ≤ xs.length then some (xs.extract start stop) else none

theorem mod_of_pos {m : Nat} (h : 0 < m) (n : Nat) : mod n m = some (n % m) :=
  if_neg (Nat.ne_of_gt h)

theorem div_of_pos {m : Nat} (h : 0 < m) (n : Nat) : div n m = some (n / m) :=
  if_neg (Nat.ne_of_gt h)

end Checked

/-! ## Routing -/

/-- As `Routing.index`. -/
def Routing.indexChecked (r : Routing) (cs : Counters) (key : String) (count : Nat) : Option Nat :=
  match r with
  | hashed => Checked.mod (keyHash key) count
  | roundRobin counter => Checked.mod (cs.get counter).toNat count

theorem Routing.indexChecked_eq (r : Routing) (cs : Counters) (key : String) {count : Nat}
    (h : 0 < count) : r.indexChecked cs key count = some (r.index cs key count) := by
  cases r <;> exact Checked.mod_of_pos h _

namespace Topic

/-- As `Topic.add`. -/
def addChecked (t : Topic) (cs : Counters) (key : String) (payload : Payload) :
    Option (Placement × Topic × Counters) := do
  let index ← t.routing.indexChecked cs key t.partitions.length
  let p ← t.partitions[index]?
  let (offset, p) := p.append ⟨some key, payload⟩
  return (⟨index, offset⟩, t.setPartition index p, t.routing.advance cs)

/-- As `Topic.addBatch`. -/
def addBatchChecked (t : Topic) (cs : Counters) (key : String) (payloads : List Payload) :
    Option (BatchPlacement × Topic × Counters) := do
  let index ← t.routing.indexChecked cs key t.partitions.length
  let p ← t.partitions[index]?
  let (offsets, p) := p.appendBatch (payloads.map (⟨some key, ·⟩))
  return (⟨index, offsets⟩, t.setPartition index p, t.routing.advance cs)

/-- As `Topic.step`. -/
def stepChecked (t : Topic) (cs : Counters) : Command → Option (Answer × Topic × Counters)
  | .add key payload =>
    (t.addChecked cs key payload).map fun (placed, next) => (.placed placed, next)
  | .addBatch key payloads =>
    (t.addBatchChecked cs key payloads).map fun (placed, next) => (.placedBatch placed, next)
  | .onPartition index c => some (t.step cs (.onPartition index c))

/-- The partition that a key is routed to is there. -/
theorem getElem?_route (t : Topic) (cs : Counters) (key : String) :
    t.partitions[t.routing.index cs key t.partitions.length]? =
      some (t.partitions.get (t.route cs key)) :=
  List.getElem?_eq_getElem (t.route cs key).isLt

theorem addChecked_eq (t : Topic) (cs : Counters) (key : String) (payload : Payload) :
    t.addChecked cs key payload = some (t.add cs key payload) := by
  rw [addChecked, Routing.indexChecked_eq _ _ _ t.partitions_pos]
  simp only [Option.bind_eq_bind, Option.bind_some, getElem?_route]
  rfl

theorem addBatchChecked_eq (t : Topic) (cs : Counters) (key : String) (payloads : List Payload) :
    t.addBatchChecked cs key payloads = some (t.addBatch cs key payloads) := by
  rw [addBatchChecked, Routing.indexChecked_eq _ _ _ t.partitions_pos]
  simp only [Option.bind_eq_bind, Option.bind_some, getElem?_route]
  rfl

theorem stepChecked_eq (t : Topic) (cs : Counters) (c : Command) :
    t.stepChecked cs c = some (t.step cs c) := by
  cases c with
  | add key payload => rw [stepChecked, addChecked_eq]; rfl
  | addBatch key payloads => rw [stepChecked, addBatchChecked_eq]; rfl
  | onPartition index c => rfl

end Topic

/-! ## Dealing -/

section
variable {α : Type}

/-- As `Assignment.give`, to a consumer that has a row. -/
def Assignment.giveChecked (a : Assignment α) (consumer : String) (item : α) :
    Option (Assignment α) :=
  if consumer ∈ a.keys then some (a.give consumer item) else none

namespace Distribution

/-- As `Distribution.deal`. -/
def dealChecked (members : List String) (items : List α) : Option (Assignment α) :=
  items.zipIdx.foldlM (fun rows (item, i) => do
    let turn ← Checked.mod i members.length
    let member ← members[turn]?
    rows.giveChecked member item) (members.map (·, []))

/-- As `Distribution.blocks`, each block with its items. -/
def sliceBlocks (items : List α) (size extra : Nat) :
    Nat → Nat → List String → Option (Assignment α)
  | _, _, [] => some []
  | rank, start, member :: rest => do
    let stop := start + (size + if rank < extra then 1 else 0)
    let owned ← Checked.slice items start stop
    let rows ← sliceBlocks items size extra (rank + 1) stop rest
    return (member, owned) :: rows

/-- As `Distribution.assign`. -/
def assignChecked (d : Distribution) (members : List String) (items : List α) :
    Option (Assignment α) :=
  let ms := ranked members
  match d with
  | roundRobin => dealChecked ms items
  | range => do
    let size ← Checked.div items.length ms.length
    let extra ← Checked.mod items.length ms.length
    sliceBlocks items size extra 0 0 ms

theorem dealChecked_eq {members : List String} (h : 0 < members.length) (items : List α) :
    dealChecked members items = some (deal members items) := by
  induction items using List.reverseRecOn with
  | nil => rfl
  | append_singleton items x ih =>
    obtain ⟨m, hm, hturn⟩ := exists_turn h items.length
    have hrow : m ∈ (deal members items).keys := by rwa [keys_deal]
    rw [dealChecked] at ih
    rw [deal_concat hturn, dealChecked, List.zipIdx_append, List.foldlM_append, ih]
    simp [Checked.mod_of_pos h, hturn, Assignment.giveChecked, hrow]

/-- To nobody nothing can be dealt. -/
example : dealChecked [] ["p"] = none := by decide

/-- The running start is what the ranks below get, so each slice stops inside the list. -/
theorem sliceBlocks_eq (items : List α) {count : Nat} (h : 0 < count) (rank : Nat)
    (members : List String) (hrank : rank + members.length ≤ count) :
    sliceBlocks items (items.length / count) (items.length % count) rank
        (below items.length count rank) members =
      some ((blocks (items.length / count) (items.length % count) rank
        (below items.length count rank) members).map fun (m, b) => (m, b.of items)) := by
  induction members generalizing rank with
  | nil => rfl
  | cons m members ih =>
    rw [List.length_cons] at hrank
    have hstop : below items.length count rank +
        (items.length / count + if rank < items.length % count then 1 else 0) =
        below items.length count (rank + 1) := (below_succ items.length count rank).symm
    have hinside : below items.length count rank ≤ below items.length count (rank + 1) ∧
        below items.length count (rank + 1) ≤ items.length :=
      ⟨below_mono _ _ (Nat.le_succ rank), below_le _ h (by omega)⟩
    rw [sliceBlocks, blocks]
    simp only [hstop, Checked.slice, if_pos hinside, ih (rank + 1) (by omega)]
    rfl

theorem assignChecked_eq (d : Distribution) {members : List String} (h : members ≠ [])
    (items : List α) : d.assignChecked members items = some (d.assign members items) := by
  have hpos := length_ranked_pos h
  cases d with
  | roundRobin => exact dealChecked_eq hpos items
  | range =>
    have hstart : below items.length (ranked members).length 0 = 0 := by simp [below]
    have hslices := sliceBlocks_eq items hpos 0 (ranked members) (by omega)
    rw [hstart] at hslices
    rw [assignChecked]
    simp only [Checked.div_of_pos hpos, Checked.mod_of_pos hpos, Option.bind_eq_bind,
      Option.bind_some, hslices]
    rfl

end Distribution
end

/-! ## Polling -/

/-- As `Limit.after`. -/
def Limit.afterChecked : Limit → Nat → Option Limit
  | none, _ => some none
  | some cap, used => (Checked.sub cap used).map some

theorem Limit.after_after (limit : Limit) (m n : Nat) :
    (limit.after m).after n = limit.after (m + n) := by
  cases limit with
  | none => rfl
  | some cap => simp only [after, Nat.sub_sub]

theorem Limit.afterChecked_eq {limit : Limit} {used : Nat} (h : limit.Allows used) :
    limit.afterChecked used = some (limit.after used) := by
  cases limit with
  | none => rfl
  | some cap =>
    have hle : used ≤ cap := h
    rw [afterChecked, Checked.sub, if_pos hle]
    rfl

namespace ConsumerGroup

/-- As `ConsumerGroup.deliver`. The limit stays the same, and what is left of it is computed at each
partition from the number of messages that were taken so far. -/
def deliverChecked (s : Store) (max : Limit) :
    List PartitionRef → Cursors → Nat → Option (List Delivery × Cursors)
  | [], cs, _ => some ([], cs)
  | r :: rest, cs, taken => do
    let limit ← max.afterChecked taken
    if limit.spent then return ([], cs)
    else
      let consumed := cs.consumed r
      let batch := (s r).read (consumed + 1) limit
      let last := (batch.getLast?.map (·.offset)).getD consumed
      let (ds, cs') ← deliverChecked s max rest (cs.insert r.id last) (taken + batch.length)
      return (⟨r, batch⟩ :: ds, cs')

/-- As `ConsumerGroup.pollWithin`. -/
def pollWithinChecked (g : ConsumerGroup) (s : Store) (consumer : String) (limit : Limit) :
    Option (List Delivery × ConsumerGroup) := do
  let (ds, cs) ← deliverChecked s limit (g.owned consumer) g.cursors 0
  return (ds, { g with cursors := cs })

/-- As `ConsumerGroup.rebalance`. -/
def rebalanceChecked (g : ConsumerGroup) : Option ConsumerGroup :=
  if g.members = [] ∨ g.partitions = [] then some g
  else do
    let assignment ← g.distribution.assignChecked g.members g.partitions
    let generation ← Checked.next g.generation
    return { g with assignment, generation }

/-- As `ConsumerGroup.addConsumer`. -/
def addConsumerChecked (g : ConsumerGroup) (consumer : String) : Option (Bool × ConsumerGroup) :=
  if consumer ∈ g.members then some (false, g)
  else do
    let g ← { g with members := g.members ++ [consumer] }.rebalanceChecked
    return (true, g)

/-- As `ConsumerGroup.subscribe`. -/
def subscribeChecked (g : ConsumerGroup) (topic : String) (rs : List PartitionRef) :
    Option (Bool × ConsumerGroup) :=
  if topic ∈ g.topics then some (false, g)
  else do
    let g ← { g with
      topics := g.topics ++ [topic]
      partitions := g.partitions ++ rs
      cursors := g.cursors.start rs }.rebalanceChecked
    return (true, g)

/-- As `ConsumerGroup.step`. -/
def stepChecked (g : ConsumerGroup) (s : Store) : Command → Option (Answer × ConsumerGroup)
  | .addConsumer consumer => (g.addConsumerChecked consumer).map fun (new, h) => (.isNew new, h)
  | .subscribe topic rs => (g.subscribeChecked topic rs).map fun (new, h) => (.isNew new, h)
  | .rebalance => g.rebalanceChecked.map fun h => (.rebalanced, h)
  | .poll consumer => (g.pollWithinChecked s consumer g.maxPoll).map fun (ds, h) => (.polled ds, h)
  | .pollMax consumer max =>
    (g.pollWithinChecked s consumer (some max)).map fun (ds, h) => (.polled ds, h)
  | c => some (g.step s c)

/-- A batch stays within what is left of the limit, so all messages together stay within the
limit. -/
theorem allows_add_read {max : Limit} {taken : Nat} (h : max.Allows taken) (p : Partition)
    (start : Offset) : max.Allows (taken + (p.read start (max.after taken)).length) := by
  cases max with
  | none => trivial
  | some cap =>
    have hle : taken ≤ cap := h
    have hread := p.length_read_le start (cap - taken)
    show taken + (p.read start (some (cap - taken))).length ≤ cap
    omega

theorem deliverChecked_eq (s : Store) {max : Limit} {taken : Nat} (h : max.Allows taken)
    (rs : List PartitionRef) (cs : Cursors) :
    deliverChecked s max rs cs taken = some (deliver s rs cs (max.after taken)) := by
  induction rs generalizing cs taken with
  | nil => rfl
  | cons r rest ih =>
    rw [deliverChecked, deliver, Limit.afterChecked_eq h]
    simp only [Option.bind_eq_bind, Option.bind_some]
    split
    · rfl
    · rw [ih (allows_add_read h _ _), ← Limit.after_after]
      rfl

theorem pollWithinChecked_eq (g : ConsumerGroup) (s : Store) (consumer : String) (limit : Limit) :
    g.pollWithinChecked s consumer limit = some (g.pollWithin s consumer limit) := by
  have hnone : limit.Allows 0 := by cases limit <;> simp [Limit.Allows]
  have hstart : limit.after 0 = limit := by cases limit <;> rfl
  rw [pollWithinChecked, deliverChecked_eq s hnone, hstart]
  rfl

/-- There is a number for one generation more. -/
def Numbered (g : ConsumerGroup) : Prop := g.generation.toNat + 1 < 2 ^ 32

theorem rebalanceChecked_eq {g : ConsumerGroup} (h : g.Ready → g.Numbered) :
    g.rebalanceChecked = some g.rebalance := by
  unfold rebalanceChecked rebalance
  split
  · rfl
  · rename_i hready
    obtain ⟨hmembers, hpartitions⟩ := not_or.1 hready
    have hnext : g.generation.toNat + 1 < 2 ^ 32 := h ⟨hmembers, hpartitions⟩
    rw [Distribution.assignChecked_eq _ hmembers, Checked.next, if_pos hnext]
    rfl

section
variable {g : ConsumerGroup} {s : Store}

theorem addConsumerChecked_eq {consumer : String}
    (h : g.deals s (.addConsumer consumer) = true → g.Numbered) :
    g.addConsumerChecked consumer = some (g.addConsumer consumer) := by
  unfold addConsumerChecked addConsumer
  by_cases hmem : consumer ∈ g.members
  · rw [if_pos hmem, if_pos hmem]
  · have hdeal := rebalanceChecked_eq (g := { g with members := g.members ++ [consumer] })
      fun hready => h (by
        simp [deals, step, addConsumer, hmem, callsForDeal, ready_rebalance, hready])
    rw [if_neg hmem, if_neg hmem, hdeal]
    rfl

theorem subscribeChecked_eq {topic : String} {rs : List PartitionRef}
    (h : g.deals s (.subscribe topic rs) = true → g.Numbered) :
    g.subscribeChecked topic rs = some (g.subscribe topic rs) := by
  unfold subscribeChecked subscribe
  by_cases hmem : topic ∈ g.topics
  · rw [if_pos hmem, if_pos hmem]
  · have hdeal := rebalanceChecked_eq
      (g := { g with
        topics := g.topics ++ [topic]
        partitions := g.partitions ++ rs
        cursors := g.cursors.start rs })
      fun hready => h (by
        simp [deals, step, subscribe, hmem, callsForDeal, ready_rebalance, hready])
    rw [if_neg hmem, if_neg hmem, hdeal]
    rfl

theorem stepChecked_eq {c : Command} (h : g.deals s c = true → g.Numbered) :
    g.stepChecked s c = some (g.step s c) := by
  cases c with
  | addConsumer consumer => rw [stepChecked, addConsumerChecked_eq h]; rfl
  | subscribe topic rs => rw [stepChecked, subscribeChecked_eq h]; rfl
  | rebalance =>
    have hdeal := rebalanceChecked_eq (g := g) fun hready => h (by
      simp [deals, step, callsForDeal, ready_rebalance, hready])
    rw [stepChecked, hdeal]
    rfl
  | poll consumer => rw [stepChecked, pollWithinChecked_eq]; rfl
  | pollMax consumer max => rw [stepChecked, pollWithinChecked_eq]; rfl
  | _ => rfl

end

end ConsumerGroup
end LogBroker
