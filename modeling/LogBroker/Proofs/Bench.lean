import Mathlib
import LogBroker.Proofs.ConsumerGroup
import LogBroker.Proofs.Partition
import LogBroker.Proofs.Run

/-!
# A group beside its partitions

What a consumer group was given, and what its partitions were asked to store, is read off the
transcript of a run of a `Bench`: `Bench.deliveries` and `Bench.writes`.

* `Store.step` answers a request to one of the partitions. `Store.get?_step` says what it stored,
  provided that offsets fit (`Store.Fits`).
* `Ordered` needs no assumption. The messages delivered under an id carry the offsets from zero up
  to the cursor of that id, whoever polled, however often the partitions changed hands and whatever
  the partitions went through (`ordered_run`).
* `consumedOffset_run`: a cursor never moves back, and nothing but a poll moves it.
-/
namespace LogBroker

namespace Store

/-- The answer of one partition and the store after it. -/
def step (s : Store) (q : PartitionRef × Partition.Command) : Partition.Answer × Store :=
  let (a, p) := (s q.1).step q.2
  (a, s.set q.1 p)

/-- The offsets that the request hands out fit. -/
def Fits (s : Store) (q : PartitionRef × Partition.Command) : Prop := (s q.1).Fits q.2

instance (s : Store) (q : PartitionRef × Partition.Command) : Decidable (s.Fits q) :=
  inferInstanceAs (Decidable ((s q.1).Fits q.2))

/-- The messages that a request stored, with the partition that stored them. -/
def written (q : (PartitionRef × Partition.Command) × Partition.Answer) :
    List (PartitionRef × Message) :=
  (Partition.written q.1.2 q.2).map (q.1.1, ·)

theorem mem_written {q : (PartitionRef × Partition.Command) × Partition.Answer} {r : PartitionRef}
    {m : Message} : (r, m) ∈ written q ↔ r = q.1.1 ∧ m ∈ Partition.written q.1.2 q.2 := by
  simp only [written, List.mem_map, Prod.mk.injEq]
  exact ⟨fun ⟨m', hm', hr, he⟩ => ⟨hr.symm, he ▸ hm'⟩, fun ⟨hr, hm⟩ => ⟨m, hm, hr.symm, rfl⟩⟩

/-- Every partition holds its messages between zero and its watermark. -/
def Bounded (s : Store) : Prop := ∀ r, (s r).Bounded

theorem stamped_fresh : Stamped fresh := fun r => Partition.stamped_new r.topic r.index

theorem bounded_fresh : Bounded fresh := fun r => Partition.bounded_new r.topic r.index

theorem step_self (s : Store) (q : PartitionRef × Partition.Command) :
    (s.step q).2 q.1 = ((s q.1).step q.2).2 := set_self s q.1 _

theorem step_of_ne (s : Store) {q : PartitionRef × Partition.Command} {r : PartitionRef}
    (h : r ≠ q.1) : (s.step q).2 r = s r := set_of_ne s _ h

/-- What holds of all partitions holds after a request, if the one that is asked preserves it. -/
theorem forall_step (P : PartitionRef → Partition → Prop) {s : Store} (h : ∀ r, P r (s r))
    {q : PartitionRef × Partition.Command} (hq : P q.1 ((s q.1).step q.2).2) :
    ∀ r, P r ((s.step q).2 r) := by
  intro r
  by_cases hr : r = q.1
  · rw [hr, step_self]
    exact hq
  · rw [step_of_ne s hr]
    exact h r

theorem stamped_step {s : Store} (h : s.Stamped) (q : PartitionRef × Partition.Command) :
    (s.step q).2.Stamped :=
  forall_step (fun _ p => p.log.Stamped) h (Partition.stamped_step (h q.1) q.2)

theorem bounded_step {s : Store} (h : s.Bounded) {q : PartitionRef × Partition.Command}
    (hf : s.Fits q) : (s.step q).2.Bounded :=
  forall_step (fun _ p => p.Bounded) h (Partition.bounded_step (h q.1) hf)

/-- A request that fits adds to the store what it wrote, and takes nothing away. -/
theorem get?_step {s : Store} (h : s.Bounded) {q : PartitionRef × Partition.Command}
    (hf : s.Fits q) (r : PartitionRef) (o : Offset) (m : Message) :
    ((s.step q).2 r).get? o = some m ↔
      (s r).get? o = some m ∨ ((r, m) ∈ written (q, (s.step q).1) ∧ m.offset = o) := by
  rw [mem_written]
  by_cases hr : r = q.1
  · subst hr
    rw [step_self, Partition.get?_step (h q.1) hf]
    exact or_congr_right (and_congr_left fun _ => ⟨fun hm => ⟨rfl, hm⟩, fun hm => hm.2⟩)
  · rw [step_of_ne s hr]
    exact ⟨Or.inl, fun hm => hm.elim id fun hm => absurd hm.1.1 hr⟩

/-- A request that fits moves watermarks upwards only. -/
theorem watermark_le_step {s : Store} (h : s.Bounded) {q : PartitionRef × Partition.Command}
    (hf : s.Fits q) (r : PartitionRef) : (s r).watermark ≤ ((s.step q).2 r).watermark := by
  by_cases hr : r = q.1
  · subst hr
    rw [step_self, Partition.watermark_step (h q.1).nonneg hf]
    lia
  · rw [step_of_ne s hr]

theorem bounded_run {s : Store} (h : s.Bounded) {qs : List (PartitionRef × Partition.Command)}
    (hf : Run.Along step Fits s qs) : (Run.last step s qs).Bounded :=
  Run.invariant (fun (s : Store) _ => s.Bounded) (fun _ _ _ hf h => bounded_step h hf) h hf

theorem watermark_le_run {s : Store} (h : s.Bounded) {qs : List (PartitionRef × Partition.Command)}
    (hf : Run.Along step Fits s qs) (r : PartitionRef) :
    (s r).watermark ≤ (Run.last step s qs r).watermark := by
  induction qs generalizing s with
  | nil => exact Int.le_refl _
  | cons q qs ih =>
    exact Int.le_trans (watermark_le_step h hf.1 r) (ih (bounded_step h hf.1) hf.2)

end Store

namespace Bench
open Delivery

/-- A group and partitions of which nothing was asked yet. -/
def fresh (id : String) (d : Distribution) (cap : Limit) : Bench :=
  { group := { id, distribution := d, maxPoll := cap } }

/-- The commands of a run, each with its answer. -/
def transcript (b : Bench) (cs : List Command) : List (Command × Answer) :=
  Run.transcript step b cs

theorem run_eq (b : Bench) (cs : List Command) :
    b.run cs = ((b.transcript cs).map Prod.snd, Run.last step b cs) := by
  induction cs generalizing b with
  | nil => rfl
  | cons c cs ih => simp only [run, ih]; rfl

/-- Whether a command is a poll. -/
def Command.isPoll : Command → Bool
  | .group c => c.isPoll
  | .partition _ _ => false

/-- The deliveries in an answer. -/
def Answer.deliveries : Answer → List Delivery
  | .group a => a.deliveries
  | .partition _ => []

/-- What all polls of a run delivered. -/
def deliveries (t : List (Command × Answer)) : List Delivery := t.flatMap (·.2.deliveries)

/-- The messages that a command stored, with the partition that stored them. -/
def written : Command × Answer → List (PartitionRef × Message)
  | (.partition r c, .partition a) => Store.written ((r, c), a)
  | _ => []

/-- All messages that were stored during a run. -/
def writes (t : List (Command × Answer)) : List (PartitionRef × Message) := t.flatMap written

/-- The offsets that the command hands out fit. -/
def Fits (b : Bench) : Command → Prop
  | .group _ => True
  | .partition r c => b.store.Fits (r, c)

instance (b : Bench) : ∀ c : Command, Decidable (b.Fits c)
  | .group _ => isTrue trivial
  | .partition r c => inferInstanceAs (Decidable (b.store.Fits (r, c)))

@[simp] theorem deliveries_append (t u : List (Command × Answer)) :
    deliveries (t ++ u) = deliveries t ++ deliveries u := List.flatMap_append

@[simp] theorem writes_append (t u : List (Command × Answer)) :
    writes (t ++ u) = writes t ++ writes u := List.flatMap_append

theorem step_group (b : Bench) (c : ConsumerGroup.Command) :
    b.step (.group c) = (.group (b.group.step b.store c).1,
      { b with group := (b.group.step b.store c).2 }) := rfl

theorem step_partition (b : Bench) (r : PartitionRef) (c : Partition.Command) :
    b.step (.partition r c) = (.partition (b.store.step (r, c)).1,
      { b with store := (b.store.step (r, c)).2 }) := rfl

/-- What is asked of the group only hands out no offsets. -/
theorem along_group (b : Bench) (cs : List ConsumerGroup.Command) :
    Run.Along step Fits b (cs.map .group) := by
  apply Run.along_of_forall
  intro c hc b'
  obtain ⟨c', -, rfl⟩ := List.mem_map.1 hc
  trivial

/-! ## Requests to partitions only -/

/-- The requests to partitions as commands of a bench. -/
def ofTraffic (qs : List (PartitionRef × Partition.Command)) : List Command :=
  qs.map fun q => .partition q.1 q.2

theorem last_ofTraffic (b : Bench) (qs : List (PartitionRef × Partition.Command)) :
    Run.last step b (ofTraffic qs) = { b with store := Run.last Store.step b.store qs } := by
  induction qs generalizing b with
  | nil => rfl
  | cons q qs ih => exact ih (b.step (.partition q.1 q.2)).2

theorem deliveries_ofTraffic (b : Bench) (qs : List (PartitionRef × Partition.Command)) :
    deliveries (Run.transcript step b (ofTraffic qs)) = [] := by
  induction qs generalizing b with
  | nil => rfl
  | cons q qs ih => exact ih (b.step (.partition q.1 q.2)).2

theorem writes_ofTraffic (b : Bench) (qs : List (PartitionRef × Partition.Command)) :
    writes (Run.transcript step b (ofTraffic qs)) =
      (Run.transcript Store.step b.store qs).flatMap Store.written := by
  induction qs generalizing b with
  | nil => rfl
  | cons q qs ih => exact congrArg (_ ++ ·) (ih (b.step (.partition q.1 q.2)).2)

theorem along_ofTraffic (b : Bench) (qs : List (PartitionRef × Partition.Command)) :
    Run.Along step Fits b (ofTraffic qs) ↔ Run.Along Store.step Store.Fits b.store qs := by
  induction qs generalizing b with
  | nil => exact Iff.rfl
  | cons q qs ih => exact and_congr_right fun _ => ih (b.step (.partition q.1 q.2)).2

/-! ## In order -/

/-- Under each id the offsets from zero up to the cursor were delivered, in this order. -/
structure Ordered (b : Bench) (ds : List Delivery) : Prop where
  stamped : b.store.Stamped
  offsets : ∀ x, (ofId x ds).map (·.offset) = Offset.upFrom 0 (ofId x ds).length
  cursor : ∀ x, b.group.cursors.getD x nothingConsumed = (ofId x ds).length - 1

theorem ordered_fresh (id : String) (d : Distribution) (cap : Limit) :
    Ordered (fresh id d cap) [] :=
  ⟨Store.stamped_fresh, fun _ => rfl, fun _ => rfl⟩

theorem ordered_step {b : Bench} {ds : List Delivery} (h : Ordered b ds) (c : Command) :
    Ordered (b.step c).2 (ds ++ (b.step c).1.deliveries) := by
  cases c with
  | partition r c =>
    rw [step_partition]
    simp only [Answer.deliveries, List.append_nil]
    exact ⟨Store.stamped_step h.stamped (r, c), h.offsets, h.cursor⟩
  | group c =>
    rw [step_group]
    rcases b.group.poll_or_not c with hnot | ⟨consumer, limit, hp⟩
    · simp only [Answer.deliveries, ConsumerGroup.deliveries_step_of_not_poll hnot, List.append_nil]
      exact ⟨h.stamped, h.offsets, fun x => by
        rw [ConsumerGroup.cursor_step_of_not_poll hnot]; exact h.cursor x⟩
    · simp only [ConsumerGroup.step_poll hp, Answer.deliveries, ConsumerGroup.Answer.deliveries]
      have hpoll := ConsumerGroup.deliver_consumes h.stamped (b.group.owned consumer)
        b.group.cursors limit
      refine ⟨h.stamped, ?_, ?_⟩
      · intro x
        -- the new offsets follow the cursor, which is where the old ones end
        rw [ofId_append, List.map_append, List.length_append, Offset.upFrom_append, h.offsets x,
          (hpoll x).1, h.cursor x]
        congr 2; lia
      · intro x
        simp only [ofId_append, List.length_append]
        rw [(hpoll x).2, h.cursor x]
        push_cast; lia

theorem ordered_run (id : String) (d : Distribution) (cap : Limit) (cs : List Command) :
    Ordered ((fresh id d cap).run cs).2 (deliveries ((fresh id d cap).transcript cs)) := by
  rw [run_eq]
  refine Run.invariant_always (fun b t => Ordered b (deliveries t)) (fun b t c h => ?_)
    (ordered_fresh id d cap) cs
  rw [deliveries_append]
  simpa [deliveries] using ordered_step h c

theorem getElem?_of_getD {cs : Cursors} {x : String} (h : x ∈ cs) :
    cs[x]? = some (cs.getD x nothingConsumed) :=
  Std.ExtTreeMap.getElem?_eq_some_getD h

/-- One command moves no cursor backwards, and only a poll moves one at all. -/
theorem consumedOffset_step {b : Bench} (hs : b.store.Stamped) (c : Command) {x : String}
    {o : Offset} (h : b.group.consumedOffset x = some o) :
    ∃ o', (b.step c).2.group.consumedOffset x = some o' ∧ o ≤ o' ∧ (c.isPoll = false → o' = o) := by
  have hmem : x ∈ b.group.cursors := by
    rw [Std.ExtTreeMap.mem_iff_isSome_getElem?]; exact Option.isSome_of_eq_some h
  have ho : b.group.cursors.getD x nothingConsumed = o :=
    Option.some.inj ((getElem?_of_getD hmem).symm.trans h)
  cases c with
  | partition r c => exact ⟨o, h, Int.le_refl o, fun _ => rfl⟩
  | group c =>
    rw [step_group]
    refine ⟨_, getElem?_of_getD (ConsumerGroup.mem_cursors_step b.store c hmem), ?_⟩
    rcases b.group.poll_or_not c with hnot | ⟨consumer, limit, hp⟩
    · rw [ConsumerGroup.cursor_step_of_not_poll hnot, ho]
      exact ⟨Int.le_refl o, fun _ => rfl⟩
    · have hpoll := (ConsumerGroup.deliver_consumes hs (b.group.owned consumer) b.group.cursors
        limit x).2
      constructor
      · rw [ConsumerGroup.step_poll hp, hpoll, ho]; lia
      · intro hnot
        rw [Command.isPoll, ← ConsumerGroup.poll?_isSome b.group, hp] at hnot; cases hnot

theorem consumedOffset_run {b : Bench} (hs : b.store.Stamped) (cs : List Command) {x : String}
    {o : Offset} (h : b.group.consumedOffset x = some o) :
    ∃ o', (Run.last step b cs).group.consumedOffset x = some o' ∧ o ≤ o' ∧
      ((∀ c ∈ cs, c.isPoll = false) → o' = o) := by
  induction cs generalizing b o with
  | nil => exact ⟨o, h, Int.le_refl o, fun _ => rfl⟩
  | cons c cs ih =>
    obtain ⟨o₁, h₁, hle₁, heq₁⟩ := consumedOffset_step hs c h
    have hs₁ : (b.step c).2.store.Stamped := by
      cases c with
      | group c => exact hs
      | partition r c => exact Store.stamped_step hs (r, c)
    obtain ⟨o₂, h₂, hle₂, heq₂⟩ := ih hs₁ h₁
    refine ⟨o₂, h₂, Int.le_trans hle₁ hle₂, ?_⟩
    intro hnot
    rw [heq₂ fun c' hc' => hnot c' (List.mem_cons_of_mem _ hc'), heq₁ (hnot c List.mem_cons_self)]

/-- **Offsets in order.** Over any run of a group beside any partitions, what all polls delivered
from the partitions of one id carries the offsets from zero up to the cursor, each once and in
order. From there on the cursor never moves back, and nothing but a poll moves it. -/
theorem offsets_of_id_in_order (id : String) (d : Distribution) (cap : Limit) (cs : List Command)
    (x : String) :
    ∃ n : Nat,
      (ofId x (deliveries ((fresh id d cap).transcript cs))).map (·.offset) = Offset.upFrom 0 n ∧
      (((fresh id d cap).run cs).2.group.consumedOffset x).getD nothingConsumed = n - 1 ∧
      ∀ (o : Offset) (more : List Command),
        ((fresh id d cap).run cs).2.group.consumedOffset x = some o →
        ∃ o', ((fresh id d cap).run (cs ++ more)).2.group.consumedOffset x = some o' ∧ o ≤ o' ∧
          ((∀ c ∈ more, c.isPoll = false) → o' = o) := by
  have h := ordered_run id d cap cs
  refine ⟨_, h.offsets x, ?_, ?_⟩
  · rw [← h.cursor x, ConsumerGroup.consumedOffset, Std.ExtTreeMap.getD_eq_getD_getElem?]
  · intro o more ho
    rw [run_eq] at h ho ⊢
    rw [Run.last_append]
    exact consumedOffset_run h.stamped more ho

/-- Two partitions share an id and an owner, and a block of offsets moves a watermark backwards. -/
def sharedId : List Command :=
  [.partition ⟨"x", "t", 0⟩ (.append ⟨none, [1]⟩), .partition ⟨"y", "t", 0⟩ (.append ⟨none, [2]⟩),
    .partition ⟨"y", "t", 0⟩ (.append ⟨none, [3]⟩), .group (.subscribe "t" [⟨"x", "t", 0⟩]),
    .group (.subscribe "u" [⟨"y", "t", 0⟩]), .group (.addConsumer "a"),
    .partition ⟨"y", "t", 0⟩ (.reserve (2 ^ 63)), .group (.poll "a")]

theorem offsets_of_id_in_order_sharedId :
    (∃ n : Nat, (ofId "t-part-0" (deliveries ((fresh "g" .range none).transcript sharedId))).map
      (·.offset) = Offset.upFrom 0 n) ∧
    ((fresh "g" .range none).run sharedId).2.group.consumedOffset "t-part-0" = some 1 ∧
    ((fresh "g" .range none).run (sharedId ++
      [.group (.addConsumer "b"), .group .rebalance])).2.group.consumedOffset "t-part-0" = some 1 := by
  have hone : ((fresh "g" .range none).run sharedId).2.group.consumedOffset "t-part-0" = some 1 := by
    decide
  obtain ⟨n, hoff, -, hmore⟩ := offsets_of_id_in_order "g" .range none sharedId "t-part-0"
  obtain ⟨o, ho, -, hsame⟩ := hmore 1 [.group (.addConsumer "b"), .group .rebalance] hone
  obtain rfl := hsame (by decide)
  exact ⟨⟨n, hoff⟩, hone, ho⟩

end Bench
end LogBroker
