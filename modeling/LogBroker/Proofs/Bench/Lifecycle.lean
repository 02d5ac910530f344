import Mathlib
import LogBroker.Proofs.Bench.Convergence
import LogBroker.Proofs.Bench.Generation
import LogBroker.Proofs.Broker.Identity

/-!
# The life of a group

Three things tell how far a group has come: the number of its generation, whether it has an
assignment, and whether it has members and partitions. They never fall apart. A group has an
assignment just when it is `Ready` (`Dealt.ready_iff`), it is ready from its first deal on
(`Bench.ready_run`), and its generation counts the deals (`Bench.generation_run`).

Members and topics are those that were asked for, in the order in which they came first
(`ConsumerGroup.Enlisted`), whatever else happened: topics without partitions, deals that were
asked for when there was nothing to deal, requests that were made again. So the answer to a request
can be told from the requests before it.
-/
namespace LogBroker

namespace ConsumerGroup

/-- A group is ready just when its partitions are dealt out. -/
theorem Dealt.ready_iff {g : ConsumerGroup} (h : g.Dealt) : g.Ready ↔ g.assignment ≠ [] := by
  constructor
  · intro hready hnone
    have hkeys := (h.keys_perm hready.1 hready.2).2
    rw [hnone] at hkeys
    exact hready.1 hkeys.nil_eq.symm
  · intro hsome
    rw [← not_not (a := g.Ready), not_ready_iff]
    exact fun hnone => hsome (h.none hnone)

/-! ## Members and topics -/

/-- The members and the topics are those that were asked for, each where it came first. -/
structure Enlisted (g : ConsumerGroup) (applied topics : List String) : Prop where
  members : g.members = applied.eraseDups
  topics : g.topics = topics.eraseDups

theorem Enlisted.mem_members {g : ConsumerGroup} {applied topics : List String}
    (h : Enlisted g applied topics) (consumer : String) :
    consumer ∈ g.members ↔ consumer ∈ applied := by
  rw [h.members, List.mem_eraseDups]

theorem Enlisted.mem_topics {g : ConsumerGroup} {applied topics : List String}
    (h : Enlisted g applied topics) (topic : String) : topic ∈ g.topics ↔ topic ∈ topics := by
  rw [h.topics, List.mem_eraseDups]

theorem length_applicant_le (c : Command) : (applicant c).length ≤ 1 := by
  cases c <;> simp [applicant]

theorem enlisted_step {g : ConsumerGroup} {applied topics : List String}
    (h : Enlisted g applied topics) (s : Store) (c : Command) :
    Enlisted (g.step s c).2 (applied ++ applicant c) (topics ++ requested c) := by
  constructor
  · rw [members_step, joined_eq_filter, h.members,
      eraseDups_append_of_length_le (length_applicant_le c)]
  · rw [topics_step, subscription_topics, h.topics,
      eraseDups_append_of_length_le (length_requested_le c)]

/-- A consumer is new if it did not apply before. -/
theorem Enlisted.isNew_addConsumer {g : ConsumerGroup} {applied topics : List String}
    (h : Enlisted g applied topics) (s : Store) (consumer : String) :
    (g.step s (.addConsumer consumer)).1 = .isNew (decide (consumer ∉ applied)) := by
  by_cases hc : consumer ∈ applied <;> simp [step, addConsumer, h.mem_members, hc]

/-- A topic is new if it was not asked for before. -/
theorem Enlisted.isNew_subscribe {g : ConsumerGroup} {applied topics : List String}
    (h : Enlisted g applied topics) (s : Store) (topic : String) (rs : List PartitionRef) :
    (g.step s (.subscribe topic rs)).1 = .isNew (decide (topic ∉ topics)) := by
  by_cases ht : topic ∈ topics <;> simp [step, subscribe, h.mem_topics, ht]

theorem nodup_eraseDups (xs : List String) : xs.eraseDups.Nodup := by
  induction xs using List.reverseRecOn with
  | nil => exact List.nodup_nil
  | append_singleton xs x ih =>
    rw [eraseDups_append_of_length_le (Nat.le_refl _)]
    refine List.nodup_append'.2 ⟨ih, (List.nodup_singleton x).filter _, ?_⟩
    intro y hy hnew
    exact of_decide_eq_true (List.mem_filter.1 hnew).2 hy

end ConsumerGroup

namespace Bench
open ConsumerGroup (Enlisted)

theorem enlisted_run (id : String) (d : Distribution) (cap : Limit) (cs : List Command) :
    Enlisted (Run.last step (fresh id d cap) cs).group (joins cs) ((offers cs).map Prod.fst) := by
  refine Run.invariant_commands
    (fun (b : Bench) cs => Enlisted b.group (joins cs) ((offers cs).map Prod.fst))
    (fun b cs c h => ?_) ⟨rfl, rfl⟩ cs
  rw [joins_append, offers_append, List.map_append]
  cases c with
  | partition r c =>
    show Enlisted b.group (joins cs ++ []) ((offers cs).map Prod.fst ++ [])
    rwa [List.append_nil, List.append_nil]
  | group c =>
    rw [joins_group, offers_group, ← ConsumerGroup.requested_eq]
    exact ConsumerGroup.enlisted_step h b.store c

/-- A run that goes on leaves a group ready that was. -/
theorem ready_append {b : Bench} {cs : List Command} (h : (Run.last step b cs).group.Ready)
    (more : List Command) : (Run.last step b (cs ++ more)).group.Ready := by
  rw [Run.last_append, ready_run]
  exact Or.inl h

/-- **The life of a group.** Over any run of fewer than `2 ^ 32` deals, the generation is the number
of deals. A consumer or a topic is new just when it is asked for first, and members and topics are
listed in the order of these requests. The group is assigned just when it has a member and a
partition, which is just when it has an assignment, and it stays so. -/
theorem group_lifecycle (id : String) (d : Distribution) (cap : Limit) (cs : List Command)
    (h : Run.countP step deals (fresh id d cap) cs < 2 ^ 32) :
    let t := (fresh id d cap).transcript cs
    let g := ((fresh id d cap).run cs).2.group
    g.generation.toNat = Run.countP step deals (fresh id d cap) cs ∧
    (∀ (i : Nat) (consumer : String) (a : Answer),
      t[i]? = some (.group (.addConsumer consumer), a) →
      a = .group (.isNew (decide (consumer ∉ joins (cs.take i))))) ∧
    (∀ (i : Nat) (topic : String) (rs : List PartitionRef) (a : Answer),
      t[i]? = some (.group (.subscribe topic rs), a) →
      a = .group (.isNew (decide (topic ∉ (offers (cs.take i)).map Prod.fst)))) ∧
    g.members = (joins cs).eraseDups ∧ g.members.Nodup ∧
    g.topics = ((offers cs).map Prod.fst).eraseDups ∧ g.topics.Nodup ∧
    (g.state = .assigned ↔ g.members ≠ [] ∧ g.partitions ≠ []) ∧
    (g.members ≠ [] ∧ g.partitions ≠ [] ↔ g.assignment ≠ []) ∧
    ∀ before, before <+: cs → ((fresh id d cap).run before).2.group.state = .assigned →
      g.state = .assigned := by
  simp only [run_eq]
  have hlisted := enlisted_run id d cap cs
  have hdealt := (current_run id d cap cs).dealt
  have hstate := state_run h
  refine ⟨?_, ?_, ?_, hlisted.members, hlisted.members ▸ ConsumerGroup.nodup_eraseDups _,
    hlisted.topics, hlisted.topics ▸ ConsumerGroup.nodup_eraseDups _, ?_, hdealt.ready_iff, ?_⟩
  · have hzero : (fresh id d cap).group.generation = 0 := rfl
    rw [generation_run, hzero, UInt32.zero_add, UInt32.toNat_ofNat']
    omega
  · intro i consumer a hi
    rw [transcript, Run.getElem?_transcript] at hi
    obtain ⟨c, -, hc⟩ := Option.map_eq_some_iff.1 hi
    obtain ⟨rfl, rfl⟩ := Prod.mk.inj hc
    rw [step_group, (enlisted_run id d cap (cs.take i)).isNew_addConsumer]
  · intro i topic rs a hi
    rw [transcript, Run.getElem?_transcript] at hi
    obtain ⟨c, -, hc⟩ := Option.map_eq_some_iff.1 hi
    obtain ⟨rfl, rfl⟩ := Prod.mk.inj hc
    rw [step_group, (enlisted_run id d cap (cs.take i)).isNew_subscribe]
  · rw [hstate]
    show _ ↔ (Run.last step (fresh id d cap) cs).group.Ready
    split <;> simp_all
  · rintro before ⟨after, rfl⟩ hbefore
    rw [Run.countP_append] at h
    have hready : (Run.last step (fresh id d cap) before).group.Ready := by
      rw [state_run (by omega)] at hbefore
      by_contra hnot
      rw [if_neg hnot] at hbefore
      cases hbefore
    rw [hstate, if_pos (ready_append hready after)]

/-- A topic without partitions, deals that are asked for too early, and requests made again. -/
def awkward : List Command :=
  [.group (.subscribe "e" []), .group .rebalance, .group (.addConsumer "b"), .group .rebalance,
    .group (.subscribe "t" [⟨"x", "t", 0⟩]), .group (.addConsumer "b"), .group (.subscribe "t" []),
    .group .rebalance, .group (.addConsumer "a"), .group (.poll "a")]

theorem group_lifecycle_awkward :
    let t := (fresh "g" .range none).transcript awkward
    let g := ((fresh "g" .range none).run awkward).2.group
    Run.countP step deals (fresh "g" .range none) awkward < 2 ^ 32 ∧
    g.generation.toNat = Run.countP step deals (fresh "g" .range none) awkward ∧
    g.generation = 3 ∧
    t[5]? = some (.group (.addConsumer "b"), .group (.isNew false)) ∧
    Answer.group (.isNew false) = .group (.isNew (decide ("b" ∉ joins (awkward.take 5)))) ∧
    t[4]? = some (.group (.subscribe "t" [⟨"x", "t", 0⟩]), .group (.isNew true)) ∧
    Answer.group (.isNew true) =
      .group (.isNew (decide ("t" ∉ (offers (awkward.take 4)).map Prod.fst))) ∧
    g.members = (joins awkward).eraseDups ∧ g.members = ["b", "a"] ∧
    g.topics = ((offers awkward).map Prod.fst).eraseDups ∧ g.topics = ["e", "t"] ∧
    awkward.take 6 <+: awkward ∧
    ((fresh "g" .range none).run (awkward.take 6)).2.group.state = .assigned ∧
    g.state = .assigned := by
  have hcount : Run.countP step deals (fresh "g" .range none) awkward < 2 ^ 32 := by decide
  obtain ⟨hgen, hjoin, hsub, hmembers, -, htopics, -, -, -, hstays⟩ :=
    group_lifecycle "g" .range none awkward hcount
  have hfive : ((fresh "g" .range none).transcript awkward)[5]? =
      some (.group (.addConsumer "b"), .group (.isNew false)) := by decide
  have hfour : ((fresh "g" .range none).transcript awkward)[4]? =
      some (.group (.subscribe "t" [⟨"x", "t", 0⟩]), .group (.isNew true)) := by decide
  have hprefix : awkward.take 6 <+: awkward := List.take_prefix 6 awkward
  have hbefore : ((fresh "g" .range none).run (awkward.take 6)).2.group.state = .assigned := by
    decide
  refine ⟨hcount, hgen, by decide, hfive, ?_, hfour, ?_, hmembers, by decide, htopics, by decide,
    hprefix, hbefore, ?_⟩
  · exact hjoin 5 "b" _ hfive
  · exact hsub 4 "t" _ _ hfour
  · exact hstays _ hprefix hbefore

end Bench
end LogBroker
