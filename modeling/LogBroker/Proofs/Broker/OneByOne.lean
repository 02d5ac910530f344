import Mathlib
import LogBroker.Proofs.Broker.Step
import LogBroker.Proofs.Partition.Appends

/-!
# A batch, and its messages one by one

A batch fills one block of one partition and is counted at once. Its messages may as well be
published one after the other, each with an offset of its own and counted on its own, provided that
they all go where the batch goes. Hashed routing sees to that: it does not look at the turn, and all
of them have the key of the batch.

The equality goes through the layers one at a time: records in a partition
(`Partition.appendBatch_eq_appends`), messages of one key in a topic and in a broker
(`run_publishes`), which is an induction over the messages with the broker changing underneath.
-/
namespace LogBroker

namespace Topic

theorem setPartition_self {t : Topic} {index : Nat} {p : Partition}
    (h : t.partitions[index]? = some p) : t.setPartition index p = t := by
  obtain ⟨hlt, rfl⟩ := List.getElem?_eq_some_iff.1 h
  simp [setPartition]

theorem setPartition_setPartition (t : Topic) (index : Nat) (p q : Partition) :
    (t.setPartition index p).setPartition index q = t.setPartition index q := by
  simp [setPartition]

end Topic

namespace Broker

theorem countPublished_add (b : Broker) (m n : Nat) :
    (b.countPublished m).countPublished n = b.countPublished (m + n) := by
  simp [countPublished, UInt64.ofNat_add, UInt64.add_assoc]

/-! ## Messages of one key -/

section
variable {b : Broker} {topic : String} {t : Topic} (ht : b.topics[topic]? = some t)
  (hr : t.routing = .hashed) {key : String} {p : Partition}
  (hp : t.partitions[Routing.keyHash key % t.count]? = some p)
include ht hr hp

/-- Where a message goes under hashed routing. -/
theorem publish_hashed (payload : Payload) :
    b.publish topic key payload = .ok (⟨Routing.keyHash key % t.count, p.watermark⟩,
      (b.setTopic topic (t.setPartition (Routing.keyHash key % t.count)
        (p.append ⟨some key, payload⟩).2)).countPublished 1) := by
  obtain ⟨-, rfl⟩ := List.getElem?_eq_some_iff.1 hp
  obtain ⟨name, partitions, routing, hpos⟩ := t
  subst hr
  exact publish_ok ht key payload

theorem publishBatch_hashed (payloads : List Payload) :
    b.publishBatch topic key payloads =
      .ok (⟨Routing.keyHash key % t.count, (p.appendBatch (payloads.map (⟨some key, ·⟩))).1⟩,
        (b.setTopic topic (t.setPartition (Routing.keyHash key % t.count)
          (p.appendBatch (payloads.map (⟨some key, ·⟩))).2)).countPublished payloads.length) := by
  obtain ⟨-, rfl⟩ := List.getElem?_eq_some_iff.1 hp
  obtain ⟨name, partitions, routing, hpos⟩ := t
  subst hr
  exact publishBatch_ok ht key payloads

/-- Messages of one key, published one after the other, are appended to one partition. -/
theorem run_publishes (payloads : List Payload) :
    b.run (payloads.map (.publish topic key)) =
      ((Run.transcript Partition.append p (payloads.map (⟨some key, ·⟩))).map fun q =>
        .placed ⟨Routing.keyHash key % t.count, q.2⟩,
      (b.setTopic topic (t.setPartition (Routing.keyHash key % t.count)
        (Run.last Partition.append p (payloads.map (⟨some key, ·⟩))))).countPublished
          payloads.length) := by
  induction payloads generalizing b t p with
  | nil =>
    simp [run, Run.transcript, Run.last, Topic.setPartition_self hp, setTopic,
      TreeMap.insert_of_getElem? ht, countPublished]
  | cons payload payloads ih =>
    let index := Routing.keyHash key % t.count
    let p' := (p.append ⟨some key, payload⟩).2
    let t' := t.setPartition index p'
    let b' := (b.setTopic topic t').countPublished 1
    have ht' : b'.topics[topic]? = some t' := Std.ExtTreeMap.getElem?_insert_self
    have hcount : t'.count = t.count := List.length_set
    have hp' : t'.partitions[Routing.keyHash key % t'.count]? = some p' := by
      obtain ⟨hlt, -⟩ := List.getElem?_eq_some_iff.1 hp
      rw [hcount]
      exact List.getElem?_set_self hlt
    have hstep : b.step (.publish topic key payload) = (.placed ⟨index, p.watermark⟩, b') := by
      simp only [step, publish_hashed ht hr hp]
      rfl
    have hset (q : Partition) : (b'.setTopic topic (t'.setPartition index q)).countPublished
        payloads.length =
          (b.setTopic topic (t.setPartition index q)).countPublished (payloads.length + 1) := by
      rw [Topic.setPartition_setPartition, Nat.add_comm, ← countPublished_add]
      simp only [b', setTopic, countPublished, TreeMap.insert_insert]
    simp only [List.map_cons, run, hstep, ih ht' hr hp', hcount, List.length_cons]
    exact congrArg (Prod.mk _) (hset _)

end

end Broker

/-- **One by one.** A batch leaves a partition as its records do when they are appended one after
the other, and its range has the offsets that they get, in their order. Under hashed routing the
same is so of a broker: published one by one under the key of the batch, the messages leave it as
the batch does, each in the batch's partition at its own offset of the batch's range. -/
theorem batch_is_its_messages :
    (∀ (p : Partition) (rs : List Record), p.watermark + rs.length < 0x8000000000000000 →
      -0x8000000000000000 ≤ p.watermark →
      p.run (rs.map .append) =
        ((p.appendBatch rs).1.offsets.map .offset, (p.appendBatch rs).2)) ∧
    ∀ (b : Broker) (topic key : String) (payloads : List Payload) (t : Topic),
      b.topics[topic]? = some t → t.routing = .hashed →
      let p := t.partitions.get (t.route b.counters key)
      p.watermark + payloads.length < 0x8000000000000000 →
      -0x8000000000000000 ≤ p.watermark →
      ∃ (placed : BatchPlacement) (next : Broker),
        b.publishBatch topic key payloads = .ok (placed, next) ∧
        b.run (payloads.map (.publish topic key)) =
          (placed.offsets.offsets.map fun o => .placed ⟨placed.partition, o⟩, next) := by
  constructor
  · intro p rs h h0
    obtain ⟨hlast, hoffsets⟩ := Partition.appendBatch_eq_appends h0 h
    rw [Partition.run_appends, hoffsets, List.map_map, hlast]
    rfl
  · intro b topic key payloads t ht hr p h h0
    have hp : t.partitions[Routing.keyHash key % t.count]? = some p := by
      rw [← Topic.route_hashed hr b.counters]
      exact List.getElem?_eq_getElem (t.route b.counters key).isLt
    have hrecords : p.watermark + (payloads.map (Record.mk (some key))).length <
        0x8000000000000000 := by
      rwa [List.length_map]
    obtain ⟨hlast, hoffsets⟩ := Partition.appendBatch_eq_appends h0 hrecords
    refine ⟨_, _, Broker.publishBatch_hashed ht hr hp payloads, ?_⟩
    rw [Broker.run_publishes ht hr hp, hlast, hoffsets, List.map_map]
    rfl

/-- A topic in which one message of the key is stored. -/
def oneStored : Broker := (({} : Broker).run [.createTopic "t" 2 .hashed, .publish "t" "k" [1]]).2

theorem batch_is_its_messages_two_more :
    (let p := Partition.new "t" 0;
      let rs : List Record := [⟨none, [1]⟩, ⟨some "k", [2]⟩];
      p.watermark + rs.length < 0x8000000000000000 ∧ -0x8000000000000000 ≤ p.watermark ∧
        p.run (rs.map .append) = ([.offset 0, .offset 1], (p.appendBatch rs).2)) ∧
    ∃ t, oneStored.topics["t"]? = some t ∧ t.routing = .hashed ∧
      (t.partitions.get (t.route oneStored.counters "k")).watermark = 1 ∧
      ∃ placed next, oneStored.publishBatch "t" "k" [[2], [3]] = .ok (placed, next) ∧
        placed.offsets = ⟨1, 3⟩ ∧
        oneStored.run [.publish "t" "k" [2], .publish "t" "k" [3]] =
          ([.placed ⟨placed.partition, 1⟩, .placed ⟨placed.partition, 2⟩], next) := by
  have ht : oneStored.topics["t"]?.isSome = true := by decide
  have hr : (Option.get _ ht).routing = .hashed := by decide +revert
  have hw : ((Option.get _ ht).partitions.get
      ((Option.get _ ht).route oneStored.counters "k")).watermark = 1 := by decide +revert
  refine ⟨⟨by decide, by decide, batch_is_its_messages.1 _ _ (by decide) (by decide)⟩,
    _, (Option.some_get ht).symm, hr, hw, ?_⟩
  obtain ⟨placed, next, hbatch, hrun⟩ := batch_is_its_messages.2 oneStored "t" "k" [[2], [3]] _
    (Option.some_get ht).symm hr (by rw [hw]; decide) (by rw [hw]; decide)
  have hplaced : placed.offsets = ⟨1, 3⟩ := by
    have : (oneStored.publishBatch "t" "k" [[2], [3]]).toOption.map (·.1.offsets) =
        some ⟨1, 3⟩ := by decide
    rw [hbatch] at this
    exact Option.some.inj this
  refine ⟨placed, next, hbatch, hplaced, hrun.trans ?_⟩
  rw [hplaced]
  rfl

end LogBroker
