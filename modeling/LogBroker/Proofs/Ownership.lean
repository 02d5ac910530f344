import Mathlib
import LogBroker.Proofs.Broker.Registry

/-!
# Who owns which partition

The assignment of a group is never stale. After any run of the group it is what its distribution
makes of the members who joined and of the partitions subscribed to, in the order in which they came
(`Bench.Current`): one row for each member, and the rows together are the partitions. A group that
lacks one or the other has no assignment.

A group of a broker that is subscribed by the broker has each partition once, so each has a single
owner (`Broker.exists_owner`).
-/
namespace LogBroker

namespace Bench

/-- The consumers that became members during a run. -/
def joined (t : List (Command × Answer)) : List String :=
  t.flatMap fun
    | (.group c, .group a) => ConsumerGroup.joined c a
    | _ => []

/-- The topics that were subscribed to during a run, with their partitions. -/
def subscriptions (t : List (Command × Answer)) : List (String × List PartitionRef) :=
  t.flatMap fun
    | (.group c, .group a) => ConsumerGroup.subscription c a
    | _ => []

/-- The group has the members and partitions that a run gave it, and has dealt them out. -/
structure Current (d : Distribution) (g : ConsumerGroup) (t : List (Command × Answer)) : Prop where
  distribution : g.distribution = d
  members : g.members = joined t
  partitions : g.partitions = (subscriptions t).flatMap Prod.snd
  dealt : g.Dealt

theorem current_step {d : Distribution} {b : Bench} {t : List (Command × Answer)}
    (h : Current d b.group t) (c : Command) :
    Current d (b.step c).2.group (t ++ [(c, (b.step c).1)]) := by
  cases c with
  | partition r c =>
    refine ⟨h.distribution, ?_, ?_, h.dealt⟩
    · rw [joined, List.flatMap_append, ← joined, ← h.members]
      exact (List.append_nil _).symm
    · rw [subscriptions, List.flatMap_append, ← subscriptions, List.flatMap_append, ← h.partitions]
      exact (List.append_nil _).symm
  | group c =>
    rw [step_group]
    refine ⟨?_, ?_, ?_, ConsumerGroup.dealt_step h.dealt b.store c⟩
    · rw [(ConsumerGroup.settings_step b.group b.store c).2.1, h.distribution]
    · rw [ConsumerGroup.members_step, joined, List.flatMap_append, ← joined, ← h.members]
      simp
    · rw [ConsumerGroup.partitions_step, subscriptions, List.flatMap_append, ← subscriptions,
        List.flatMap_append, ← h.partitions]
      simp

theorem current_run (id : String) (d : Distribution) (cap : Limit) (cs : List Command) :
    Current d (Run.last step (fresh id d cap) cs).group (Run.transcript step (fresh id d cap) cs) :=
  Run.invariant_always (fun (b : Bench) t => Current d b.group t) (fun _ _ c h => current_step h c)
    ⟨rfl, rfl, rfl, ConsumerGroup.dealt_new id d cap⟩ cs

end Bench

namespace Broker

theorem dealt_run (config : Config) (cs : List Command) (id : String) :
    ((Run.last step ({ config } : Broker) cs).group id).Dealt := by
  have h := (Bench.current_run id config.distribution config.maxPoll (history config cs id)).dealt
  rw [view_run] at h
  exact h

/-- In a group that the broker subscribed to a topic, each partition has one owner. -/
theorem exists_owner {config : Config} {cs : List Command}
    (hcs : ∀ c ∈ cs, c.handsPartitions = false) {id : String} {g : ConsumerGroup}
    (hg : (Run.last step ({ config } : Broker) cs).groups[id]? = some g) {topic : String}
    (htopic : topic ∈ g.topics) {t : Topic}
    (ht : (Run.last step ({ config } : Broker) cs).topics[topic]? = some t) {index : Nat}
    (hi : index < t.count) :
    ∃ c ∈ g.members, (g.owned c).count (ref topic index) = 1 ∧
      ∀ c', c' ≠ c → ref topic index ∉ g.owned c' := by
  have hn := named_run config cs
  have hsub := subscribed_run config hcs id
  have hdealt := dealt_run config cs id
  have hstaff := staffed_run config cs id (mem_groups hg)
  rw [group_of_some hg] at hsub hdealt hstaff
  apply hdealt.exists_owner hstaff
  exact List.count_eq_one_of_mem (hsub.nodup_partitions hn) (hsub.mem_partitions hn htopic ht hi)

end Broker

/-- **Never stale.** After any run of a group its assignment is the deal of its members and
partitions. In a broker each partition of a subscribed topic is owned once, by one member. -/
theorem assignment_is_deal :
    (∀ (id : String) (d : Distribution) (cap : Limit) (cs : List Bench.Command),
      let g := ((Bench.fresh id d cap).run cs).2.group
      let t := (Bench.fresh id d cap).transcript cs
      g.members = Bench.joined t ∧
      g.partitions = (Bench.subscriptions t).flatMap Prod.snd ∧
      (g.members ≠ [] → g.partitions ≠ [] →
        g.assignment = d.assign g.members g.partitions ∧
        g.assignment.keys.Nodup ∧ g.assignment.keys.Perm g.members ∧
        g.assignment.items.Perm g.partitions) ∧
      (g.members = [] ∨ g.partitions = [] → g.assignment = [])) ∧
    ∀ (config : Config) (cs : List Broker.Command), (∀ c ∈ cs, c.handsPartitions = false) →
      ∀ (id topic : String) (g : ConsumerGroup) (t : Topic) (index : Nat),
        (({ config } : Broker).run cs).2.groups[id]? = some g → topic ∈ g.topics →
        (({ config } : Broker).run cs).2.topics[topic]? = some t → index < t.count →
        ∃ c ∈ g.members, (g.owned c).count (Broker.ref topic index) = 1 ∧
          ∀ c', c' ≠ c → Broker.ref topic index ∉ g.owned c' := by
  constructor
  · intro id d cap cs
    have h := Bench.current_run id d cap cs
    rw [Bench.run_eq]
    refine ⟨h.members, h.partitions, ?_, h.dealt.none⟩
    intro hm hp
    obtain ⟨hnodup, hperm⟩ := h.dealt.keys_perm hm hp
    have hdeal := h.dealt.deal hm hp
    rw [h.distribution] at hdeal
    exact ⟨hdeal, hnodup, hperm, h.dealt.items_perm hm⟩
  · intro config cs hcs id topic g t index hg htopic ht hi
    rw [Broker.run_eq] at hg ht
    exact Broker.exists_owner hcs hg htopic ht hi

/-- Two consumers join, one before and one after the subscription. -/
def sharing : List Broker.Command :=
  [.createTopic "t" 2 .roundRobin, .addConsumer "g" "b", .subscribe "g" "t", .addConsumer "g" "a"]

theorem assignment_is_deal_sharing :
    (let g := ((Bench.fresh "g" .range none).run (Broker.history {} sharing "g")).2.group;
      g.members ≠ [] ∧ g.partitions ≠ [] ∧
        g.assignment = Distribution.range.assign g.members g.partitions) ∧
    (∀ c ∈ sharing, c.handsPartitions = false) ∧
    (let g := (({} : Broker).run sharing).2.group "g";
      "t" ∈ g.topics ∧
        ∃ c ∈ g.members, (g.owned c).count (Broker.ref "t" 1) = 1 ∧
          ∀ c', c' ≠ c → Broker.ref "t" 1 ∉ g.owned c') := by
  refine ⟨⟨by decide, by decide, ?_⟩, by decide, by decide, ?_⟩
  · exact ((assignment_is_deal.1 "g" .range none _).2.2.1 (by decide) (by decide)).1
  · exact assignment_is_deal.2 {} sharing (by decide) "g" "t" _ _ 1 rfl (by decide) rfl (by decide)

end LogBroker
