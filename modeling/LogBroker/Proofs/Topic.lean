import Mathlib
import LogBroker.Proofs.Partition
import LogBroker.Topic.Command

/-!
# One request to a topic

Whatever a topic is asked, it asks at most one of its partitions, once (`Topic.request`). The other
partitions stay as they are, and so do the topic's name, routing and number of partitions
(`Topic.shape`). What the topic reports to have stored is what the partition stored (`step_cases`).
-/
namespace LogBroker.Topic

/-- What the topic asks, and of which partition. -/
def request (t : Topic) (cs : Counters) : Command → Option (Nat × Partition.Command)
  | .add key payload => some (t.route cs key, .append ⟨some key, payload⟩)
  | .addBatch key payloads => some (t.route cs key, .appendBatch (payloads.map (⟨some key, ·⟩)))
  | .onPartition index c => if index < t.count then some (index, c) else none

/-- The messages that a request stored, given its answer, each with its partition. -/
def written : Command → Answer → List (Nat × Message)
  | .add key payload, .placed p => [(p.partition, ⟨p.offset, some key, payload⟩)]
  | .addBatch key payloads, .placedBatch p =>
    (stamps p.offsets.first (payloads.map (⟨some key, ·⟩))).map (p.partition, ·)
  | .onPartition index c, .partition (some a) => (Partition.written c a).map (index, ·)
  | _, _ => []

/-- Hashed routing looks at the key alone. -/
theorem route_hashed {t : Topic} (h : t.routing = .hashed) (cs : Counters) (key : String) :
    (t.route cs key : Nat) = Routing.keyHash key % t.count := by
  show t.routing.index cs key t.partitions.length = _
  rw [h]
  rfl

/-- What no request changes of a topic. -/
def shape (t : Topic) : String × Nat × Routing := (t.name, t.count, t.routing)

@[simp] theorem shape_setPartition (t : Topic) (index : Nat) (p : Partition) :
    (t.setPartition index p).shape = t.shape := by
  simp [shape, setPartition, count]

/-- A request either asks nothing of the partitions and changes none of them, or it asks one. -/
theorem step_cases (t : Topic) (cs : Counters) (c : Command) :
    (t.request cs c = none ∧ (t.step cs c).2.1 = t ∧ written c (t.step cs c).1 = []) ∨
    ∃ index q p, t.request cs c = some (index, q) ∧ t.partitions[index]? = some p ∧
      (t.step cs c).2.1 = t.setPartition index (p.step q).2 ∧
      written c (t.step cs c).1 = (Partition.written q (p.step q).1).map (index, ·) := by
  cases c with
  | add key payload =>
    exact Or.inr ⟨_, _, _, rfl, List.getElem?_eq_getElem (t.route cs key).isLt, rfl, rfl⟩
  | addBatch key payloads =>
    exact Or.inr ⟨_, _, _, rfl, List.getElem?_eq_getElem (t.route cs key).isLt, rfl, rfl⟩
  | onPartition index c =>
    by_cases h : index < t.count
    · have hp : t.partitions[index]? = some t.partitions[index] := List.getElem?_eq_getElem h
      refine Or.inr ⟨index, c, t.partitions[index], by rw [request, if_pos h], hp, ?_, ?_⟩
      · simp only [step, hp]
      · simp only [step, hp, written]
    · have hp : t.partitions[index]? = none := List.getElem?_eq_none (Nat.le_of_not_lt h)
      refine Or.inl ⟨by rw [request, if_neg h], ?_, ?_⟩
      · simp only [step, hp]
      · simp only [step, hp, written]

theorem shape_step (t : Topic) (cs : Counters) (c : Command) :
    (t.step cs c).2.1.shape = t.shape := by
  rcases step_cases t cs c with ⟨-, h, -⟩ | ⟨index, q, p, -, -, h, -⟩
  · rw [h]
  · rw [h, shape_setPartition]

theorem shape_create {name : String} {count : Nat} {routing : Routing} {t : Topic}
    (h : create name count routing = .ok t) : t.shape = (name, count, routing) := by
  unfold create at h
  split at h
  · cases h
  · cases h
    simp [shape, Topic.count]

/-- The partitions of a new topic are empty. -/
theorem partitions_create {name : String} {count : Nat} {routing : Routing} {t : Topic}
    (h : create name count routing = .ok t) :
    t.partitions = (List.range count).map (Partition.new name) := by
  unfold create at h
  split at h
  · cases h
  · cases h; rfl

end LogBroker.Topic
