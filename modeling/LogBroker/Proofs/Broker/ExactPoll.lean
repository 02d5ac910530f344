import Mathlib
import LogBroker.Proofs.Broker.PollOrder

/-!
# What an uncapped poll returns

From an offset on, a partition holds messages up to the first offset that holds none; these are its
stretch (`Partition.Stretch`). There is just one (`Stretch.unique`), and a read that no cap cuts
short returns it (`read_eq_stretch`).

A poll that no cap cuts short returns from each partition in turn the stretch that follows the
cursor, and moves the cursor to the last offset of the stretch (`deliver_stretches`). No two of the
partitions may have one id, since the cursor that one moves would be read for the other. In a group
that the broker subscribed none do (`uncapped_poll_exact`).
-/
namespace LogBroker

namespace Partition

/-- The messages are those that are stored from an offset on, up to the first gap. -/
structure Stretch (p : Partition) (start : Offset) (ms : List Message) : Prop where
  stored : ms.map some = (Offset.upFrom start ms.length).map p.get?
  stops : p.get? (start + ms.length) = none

instance (p : Partition) (start : Offset) (ms : List Message) : Decidable (p.Stretch start ms) :=
  decidable_of_iff (ms.map some = (Offset.upFrom start ms.length).map p.get? ∧
    p.get? (start + ms.length) = none) ⟨fun h => ⟨h.1, h.2⟩, fun h => ⟨h.1, h.2⟩⟩

variable {p : Partition}

theorem stretch_nil {start : Offset} : p.Stretch start [] ↔ p.get? start = none :=
  ⟨fun h => by simpa using h.stops, fun h => ⟨rfl, by simpa using h⟩⟩

theorem stretch_cons {start : Offset} {m : Message} {ms : List Message} :
    p.Stretch start (m :: ms) ↔ p.get? start = some m ∧ p.Stretch (start + 1) ms := by
  have hnext : start + ((ms.length + 1 : Nat) : Int) = start + 1 + ms.length := by
    push_cast
    lia
  constructor
  · rintro ⟨hstored, hstops⟩
    rw [List.length_cons, hnext] at hstops
    simp only [List.map_cons, List.length_cons, Offset.upFrom, List.cons.injEq] at hstored
    exact ⟨hstored.1.symm, hstored.2, hstops⟩
  · rintro ⟨hm, hstored, hstops⟩
    refine ⟨?_, by rw [List.length_cons, hnext]; exact hstops⟩
    simp only [List.map_cons, List.length_cons, Offset.upFrom, hm, hstored]

/-- There is one stretch from each offset on. -/
theorem Stretch.unique {start : Offset} {ms ms' : List Message} (h : p.Stretch start ms)
    (h' : p.Stretch start ms') : ms = ms' := by
  induction ms generalizing start ms' with
  | nil =>
    cases ms' with
    | nil => rfl
    | cons m' ms' =>
      rw [stretch_nil, (stretch_cons.1 h').1] at h
      cases h
  | cons m ms ih =>
    obtain ⟨hm, h⟩ := stretch_cons.1 h
    cases ms' with
    | nil =>
      rw [stretch_nil, hm] at h'
      cases h'
    | cons m' ms' =>
      obtain ⟨hm', h'⟩ := stretch_cons.1 h'
      rw [Option.some_inj.1 (hm.symm.trans hm'), ih h h']

/-- A read that no cap cuts short returns a stretch. -/
theorem stretch_read {limit : Limit} (hl : limit.Allows p.size) (start : Offset) :
    p.Stretch start (p.read start limit) :=
  ⟨Log.run_map_some p.log _ start, read_stops hl start⟩

theorem read_eq_stretch {limit : Limit} (hl : limit.Allows p.size) {start : Offset}
    {ms : List Message} (h : p.Stretch start ms) : p.read start limit = ms :=
  (stretch_read hl start).unique h

end Partition

namespace ConsumerGroup
open Delivery

/-- The messages are the stretch that follows the cursor of a partition. -/
def Follows (s : Store) (cs : Cursors) (r : PartitionRef) (ms : List Message) : Prop :=
  ∃ o, cs[r.id]? = some o ∧ (s r).Stretch (o + 1) ms

/-- The cursor of a partition moved to the last of the messages; it stayed if there are none. -/
def MovesOver (cs cs' : Cursors) (r : PartitionRef) (ms : List Message) : Prop :=
  cs'[r.id]? = (ms.getLast?.map (·.offset)).or cs[r.id]?

variable {s : Store} {cs : Cursors} {rs : List PartitionRef}

/-- Something follows every cursor, be it nothing. -/
theorem exists_follows (h : ∀ r ∈ rs, r.id ∈ cs) :
    ∃ stretches, List.Forall₂ (Follows s cs) rs stretches := by
  induction rs with
  | nil => exact ⟨[], .nil⟩
  | cons r rest ih =>
    obtain ⟨hr, hrest⟩ := List.forall_mem_cons.1 h
    obtain ⟨stretches, hs⟩ := ih hrest
    have hl : Limit.Allows none (s r).size := trivial
    exact ⟨_, .cons ⟨_, Bench.getElem?_of_getD hr, Partition.stretch_read hl _⟩ hs⟩

/-- A poll that no cap cuts short returns what follows the cursors, partition by partition, and
moves the cursors over it. -/
theorem deliver_stretches (hd : (rs.map (·.id)).Nodup) {stretches : List (List Message)}
    (h : List.Forall₂ (Follows s cs) rs stretches) {limit : Limit}
    (hl : limit.Allows (stored s rs)) :
    all (deliver s rs cs limit).1 = stretches.flatten ∧
      List.Forall₂ (MovesOver cs (deliver s rs cs limit).2) rs stretches := by
  induction rs generalizing cs stretches limit with
  | nil =>
    cases h
    exact ⟨rfl, .nil⟩
  | cons r rest ih =>
    obtain ⟨hr, hd⟩ := List.nodup_cons.1 hd
    obtain ⟨ms, mss, ⟨o, ho, hms⟩, hmss, rfl⟩ := List.forall₂_cons_left_iff.1 h
    have hcur : cs.consumed r = o := by
      rw [Cursors.consumed, Std.ExtTreeMap.getD_eq_getD_getElem?, ho, Option.getD_some]
    have hread : (s r).read (cs.consumed r + 1) limit = ms := by
      rw [hcur]
      exact Partition.read_eq_stretch (hl.mono (Nat.le_add_right _ _)) hms
    by_cases hsp : limit.spent
    · -- the limit lets nothing through, so there is nothing to deliver either
      have hnone : ms = [] := by
        rw [← hread, hsp]
        rfl
      obtain ⟨hall, hmoves⟩ := ih hd hmss (hl.mono (Nat.le_add_left _ _))
      rw [deliver_spent _ _ hsp] at hall hmoves ⊢
      exact ⟨by rw [hnone]; exact hall, .cons (by rw [hnone]; rfl) hmoves⟩
    · have hlen : ms.length ≤ (s r).size := by
        rw [← hread]
        exact Partition.length_read_le_size _ _ _
      simp only [deliver, if_neg hsp, hread]
      rw [hcur]
      generalize hlast : (ms.getLast?.map (·.offset)).getD o = last
      -- the rest is read as before, since the cursor that moved is none of theirs
      have hother (r' : PartitionRef) (hr' : r' ∈ rest) :
          (cs.insert r.id last)[r'.id]? = cs[r'.id]? := by
        have hne : r.id ≠ r'.id := fun he => hr (List.mem_map.2 ⟨r', hr', he.symm⟩)
        simp [Std.ExtTreeMap.getElem?_insert, hne]
      have hnext : List.Forall₂ (Follows s (cs.insert r.id last)) rest mss :=
        ((List.forall₂_and_left _ _).2 ⟨hother, hmss⟩).imp fun r' ms' h => by
          unfold Follows
          rw [h.1]
          exact h.2
      obtain ⟨hall, hmoves⟩ := ih hd hnext (hl.after hlen)
      refine ⟨congrArg (ms ++ ·) hall, .cons ?_ ?_⟩
      · unfold MovesOver
        rw [getElem?_deliver_of_not_mem hr, ho, ← hlast]
        cases ms.getLast? <;> simp
      · refine ((List.forall₂_and_left _ _).2 ⟨hother, hmoves⟩).imp fun r' ms' h => ?_
        unfold MovesOver
        rw [← h.1]
        exact h.2

end ConsumerGroup

namespace Broker
open Delivery ConsumerGroup

/-- **Uncapped polls, exactly.** After any run in which the broker subscribed the groups, what
follows the cursor of each partition that a consumer owns is one stretch of messages, maybe of none.
A poll for the consumer that is not capped, or capped at no less than is stored, returns these
stretches one after the other, in the order in which the partitions are dealt to it. Each of the
cursors moves to the last offset of its stretch or stays if the stretch is empty. All other cursors
stay, and of the group nothing else changes, and of the broker nothing but the group. To a consumer
that owns nothing the poll returns nothing, and nothing changes. -/
theorem uncapped_poll_exact {config : Config} {cs : List Command}
    (hcs : ∀ c ∈ cs, c.handsPartitions = false) {id : String} {g : ConsumerGroup}
    (hg : (({ config } : Broker).run cs).2.groups[id]? = some g) {c : Command} {consumer : String}
    (hc : c.pollsFor id = some consumer)
    (hl : (c.limit g.maxPoll).Allows
      (stored (({ config } : Broker).run cs).2.store (g.owned consumer))) :
    let b := (({ config } : Broker).run cs).2
    (∃ stretches, List.Forall₂ (Follows b.store g.cursors) (g.owned consumer) stretches) ∧
    ∀ stretches, List.Forall₂ (Follows b.store g.cursors) (g.owned consumer) stretches →
      ∃ ds g', b.step c = (c.reply ds, b.setGroup id g') ∧
        all ds = stretches.flatten ∧
        List.Forall₂ (MovesOver g.cursors g'.cursors) (g.owned consumer) stretches ∧
        (∀ x ∉ (g.owned consumer).map (·.id), g'.consumedOffset x = g.consumedOffset x) ∧
        g' = { g with cursors := g'.cursors } ∧
        (g.owned consumer = [] → all ds = [] ∧ (b.step c).2 = b) := by
  rw [run_eq] at hg hl ⊢
  intro b
  obtain ⟨hd, hkeys⟩ := owned_run hcs hg consumer
  refine ⟨exists_follows hkeys, fun stretches hfollow => ?_⟩
  obtain ⟨hall, hmoves⟩ := deliver_stretches hd hfollow hl
  have hstep := step_of_pollsFor hc hg
  refine ⟨_, _, hstep, hall, hmoves, fun x hx => getElem?_deliver_of_not_mem hx _ _, rfl, ?_⟩
  intro hnone
  have hsame : g.pollWithin b.store consumer (c.limit g.maxPoll) = ([], g) := by
    unfold pollWithin
    rw [hnone]
    rfl
  refine ⟨?_, ?_⟩
  · rw [hsame]
    rfl
  · rw [hstep, hsame]
    exact setGroup_self hg

/-- Behind the cursors, one partition holds two messages, and the other one holds one after a
gap. -/
def gapAhead : List Command :=
  [.createTopic "t" 2 .roundRobin, .addConsumer "g" "a", .subscribe "g" "t",
    .publish "t" "k" [1], .publish "t" "k" [2], .poll "g" "a", .publish "t" "k" [3],
    .onTopic "t" (.onPartition 1 (.reserve 1)), .publish "t" "k" [4], .publish "t" "k" [5]]

theorem uncapped_poll_exact_gapAhead :
    let b := (({} : Broker).run gapAhead).2
    (∀ c ∈ gapAhead, c.handsPartitions = false) ∧
    (Command.poll "g" "a").pollsFor "g" = some "a" ∧
    ∃ g : ConsumerGroup, b.groups["g"]? = some g ∧
      ((Command.poll "g" "a").limit g.maxPoll).Allows (stored b.store (g.owned "a")) ∧
      ∃ ds g', b.step (.poll "g" "a") = (.polled ds, b.setGroup "g" g') ∧
        all ds = [⟨1, some "k", [3]⟩, ⟨2, some "k", [5]⟩] ∧
        g'.consumedOffset "t-part-0" = some 2 ∧ g'.consumedOffset "t-part-1" = some 0 ∧
        g' = { g with cursors := g'.cursors } := by
  intro b
  have hcs : ∀ c ∈ gapAhead, c.handsPartitions = false := by decide
  have hg : b.groups["g"]?.isSome = true := by decide
  have howned : (Option.get _ hg).owned "a" = [⟨"t", "t", 0⟩, ⟨"t", "t", 1⟩] := by decide +revert
  have hl : ((Command.poll "g" "a").limit (Option.get _ hg).maxPoll).Allows
      (stored b.store ((Option.get _ hg).owned "a")) := by decide +revert
  have hzero : (Option.get _ hg).cursors["t-part-0"]? = some 0 := by decide +revert
  have hone : (Option.get _ hg).cursors["t-part-1"]? = some 0 := by decide +revert
  have hfollow : List.Forall₂ (Follows b.store (Option.get _ hg).cursors)
      ((Option.get _ hg).owned "a") [[⟨1, some "k", [3]⟩, ⟨2, some "k", [5]⟩], []] := by
    rw [howned]
    exact .cons ⟨0, hzero, by decide⟩ (.cons ⟨0, hone, by decide⟩ .nil)
  obtain ⟨-, hpoll⟩ := uncapped_poll_exact hcs (Option.some_get hg).symm (c := .poll "g" "a") rfl hl
  obtain ⟨ds, g', hstep, hall, hmoves, -, hframe, -⟩ := hpoll _ hfollow
  rw [howned] at hmoves
  refine ⟨hcs, rfl, _, (Option.some_get hg).symm, hl, ds, g', hstep, hall, ?_, ?_, hframe⟩
  · cases hmoves with
    | cons h _ => exact h
  · cases hmoves with
    | cons _ h =>
      cases h with
      | cons h _ => exact Eq.trans h hone

end Broker
end LogBroker
