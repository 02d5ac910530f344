import Mathlib
import LogBroker.Proofs.Bench.ExactlyOnce
import LogBroker.Proofs.Broker.Registry

/-!
# Exactly once, for the groups of a broker

`exact_run` takes `Bench.Exact` over to every group of a broker after a run in which offsets fit.
What a partition gave to the polls of a group is what it holds up to the group's cursor
(`delivered_eq`), and what it holds is what was written (`get?_iff_written`).

`drained_after_polls` takes over what is known of a group at rest: after uncapped polls of all of
its members, its partitions have nothing left behind the cursors.
-/
namespace LogBroker.Broker
open Delivery

theorem exact_run {config : Config} {cs : List Command} (hf : Run.Along step Fits { config } cs)
    (id : String) :
    ∃ t, Bench.Exact ((Run.last step ({ config } : Broker) cs).view id) t ∧
      Bench.deliveries t = delivered id (transcript { config } cs) ∧
      (Bench.writes t).Perm (writes (transcript { config } cs)) := by
  have h := Bench.exact_run id config.distribution config.maxPoll (along_run hf id)
  rw [view_run] at h
  exact ⟨_, h, deliveries_run config cs id, writes_run config cs id⟩

/-! ## A group at rest -/

/-- The command polls for a consumer of the group, and no cap cuts its answer short. -/
def Uncapped (b : Broker) (id consumer : String) (c : Command) : Prop :=
  ∃ q, (c = .poll id consumer ∧ q = .poll consumer ∨ c = .onGroup id q) ∧
    (b.view id).Uncapped consumer q

theorem Uncapped.requests_eq {b : Broker} {id consumer : String} {c : Command}
    (h : b.Uncapped id consumer c) {b' : Broker} (hid : id ∈ b'.groups) :
    ∃ q, b'.requests id c = [.group q] ∧ (b.view id).Uncapped consumer q := by
  obtain ⟨q, hc, hun⟩ := h
  refine ⟨q, ?_, hun⟩
  have ha : b'.asked id c = some q := by
    rcases hc with ⟨rfl, rfl⟩ | rfl <;> exact if_pos ⟨rfl, hid⟩
  rw [requests, ha, traffic_of_not_toTopic b' (toTopic_of_asked ha)]
  rfl

theorem Uncapped.fits {b : Broker} {id consumer : String} {c : Command}
    (h : b.Uncapped id consumer c) (b' : Broker) : b'.Fits c := by
  obtain ⟨q, ⟨rfl, -⟩ | rfl, -⟩ := h <;> trivial

/-- Uncapped polls of a broker's group are uncapped polls of its bench. -/
theorem expand_polls {b : Broker} {id : String} {polls : List Command}
    (hpolls : ∀ c ∈ polls, ∃ consumer, b.Uncapped id consumer c) {b' : Broker} (hn : b'.Named)
    (hid : id ∈ b'.groups) :
    ∃ qs : List ConsumerGroup.Command,
      Run.expand step (requests id) b' polls = qs.map .group ∧
      (∀ q ∈ qs, ∃ consumer, (b.view id).Uncapped consumer q) ∧
      ∀ consumer, (∃ c ∈ polls, b.Uncapped id consumer c) →
        ∃ q ∈ qs, (b.view id).Uncapped consumer q := by
  induction polls generalizing b' with
  | nil => exact ⟨[], rfl, by simp, by simp⟩
  | cons c polls ih =>
    obtain ⟨consumer, hc⟩ := hpolls c List.mem_cons_self
    obtain ⟨q, hq, hun⟩ := hc.requests_eq hid
    obtain ⟨qs, hqs, hpoll, hall⟩ := ih (fun c' hc' => hpolls c' (List.mem_cons_of_mem _ hc'))
      (named_step hn c) (mem_groups_keep hn c hid)
    refine ⟨q :: qs, by rw [Run.expand, hq, hqs]; rfl, ?_, ?_⟩
    · intro q' hq'
      rcases List.mem_cons.1 hq' with rfl | hq'
      · exact ⟨consumer, hun⟩
      · exact hpoll q' hq'
    · intro consumer' hex
      obtain ⟨c', hc', hun'⟩ := hex
      rcases List.mem_cons.1 hc' with rfl | hc'
      · obtain ⟨q', hq', hun'⟩ := hun'.requests_eq hid
        rw [hq] at hq'
        cases hq'
        exact ⟨q, List.mem_cons_self, hun'⟩
      · obtain ⟨q', hq', hun'⟩ := hall consumer' ⟨c', hc', hun'⟩
        exact ⟨q', List.mem_cons_of_mem _ hq', hun'⟩

/-- When every member polled, a partition of the group has nothing left to deliver. -/
theorem drained_after_polls {config : Config} {cs : List Command}
    (hf : Run.Along step Fits { config } cs) {id : String} {g : ConsumerGroup}
    (hg : (Run.last step ({ config } : Broker) cs).groups[id]? = some g) {r : PartitionRef}
    (hr : (Run.last step ({ config } : Broker) cs).store.Sole r) (hmem : r ∈ g.partitions)
    {polls : List Command}
    (hpolls : ∀ c ∈ polls, ∃ consumer, (Run.last step { config } cs).Uncapped id consumer c)
    (hall : ∀ consumer ∈ g.members,
      ∃ c ∈ polls, (Run.last step { config } cs).Uncapped id consumer c) :
    ∃ cursors, (Run.last step ({ config } : Broker) (cs ++ polls)).view id =
        ((Run.last step ({ config } : Broker) cs).view id).withCursors cursors ∧
      ((Run.last step ({ config } : Broker) cs).view id).Drained r cursors := by
  obtain ⟨t, h, -, -⟩ := exact_run hf id
  have hn := named_run config cs
  have hstaff := staffed_run config cs id (mem_groups hg)
  obtain ⟨qs, hqs, hpoll, hevery⟩ := expand_polls hpolls hn (mem_groups hg)
  have hview : Run.last Bench.step ((Run.last step ({ config } : Broker) cs).view id)
      (qs.map .group) = (Run.last step ({ config } : Broker) (cs ++ polls)).view id := by
    rw [← hqs, Run.last_append]
    exact Run.last_expand (view id) (fun (b : Broker) c hn => named_step hn c)
      (fun (b : Broker) c hn => view_step hn id c) hn polls
  rw [← hview]
  have hgroup := group_of_some hg
  refine Bench.drained_of_all h.ordered.stamped h.dealt hstaff hr ?_ hpoll fun consumer hc => ?_
  · rw [view, hgroup]
    exact hmem
  · rw [view, hgroup] at hc
    exact hevery consumer (hall consumer hc)

theorem along_polls {config : Config} {cs polls : List Command}
    (hf : Run.Along step Fits { config } cs) {b : Broker} {id : String}
    (hpolls : ∀ c ∈ polls, ∃ consumer, b.Uncapped id consumer c) :
    Run.Along step Fits { config } (cs ++ polls) := by
  rw [Run.along_append]
  refine ⟨hf, Run.along_of_forall ?_ _⟩
  intro c hc b'
  obtain ⟨consumer, hun⟩ := hpolls c hc
  exact hun.fits b'

/-! ## Delivery -/

section
variable {config : Config} {cs : List Command} (hf : Run.Along step Fits { config } cs)
include hf

/-- A partition holds what was written to it, each message under its own offset. -/
theorem get?_iff_written (r : PartitionRef) (o : Offset) (m : Message) :
    ((Run.last step ({ config } : Broker) cs).store r).get? o = some m ↔
      m.offset = o ∧ (r, m) ∈ writes (transcript { config } cs) := by
  obtain ⟨u, h, -, hws⟩ := exact_run hf ""
  rw [← hws.mem_iff, h.faithful.stored]
  refine ⟨?_, fun ⟨he, ho⟩ => he ▸ ho⟩
  intro ho
  obtain rfl := h.ordered.stamped r o m ho
  exact ⟨rfl, ho⟩

/-- What a partition gave to a group is what it holds from zero up to the group's cursor. -/
theorem delivered_eq (id topic : String) (index : Nat) :
    (ofSource (ref topic index) (delivered id (transcript { config } cs))).map some =
        (Offset.upFrom 0
          (ofSource (ref topic index) (delivered id (transcript { config } cs))).length).map
          ((Run.last step ({ config } : Broker) cs).store (ref topic index)).get? ∧
      ((Run.last step ({ config } : Broker) cs).group id).cursors.getD (ref topic index).id
        nothingConsumed =
        (ofSource (ref topic index) (delivered id (transcript { config } cs))).length - 1 := by
  obtain ⟨u, h, hds, -⟩ := exact_run hf id
  rw [← hds]
  exact Bench.delivered_eq h (sole_ref (named_run config cs) topic index)

/-- After uncapped polls of all members of a group each of its partitions gave what it holds from
zero up to the first empty offset. -/
theorem delivered_after_polls {id : String} {g : ConsumerGroup}
    (hg : (Run.last step ({ config } : Broker) cs).groups[id]? = some g) {topic : String}
    {index : Nat} (hmem : ref topic index ∈ g.partitions) {polls : List Command}
    (hpolls : ∀ c ∈ polls, ∃ consumer, (Run.last step { config } cs).Uncapped id consumer c)
    (hall : ∀ consumer ∈ g.members,
      ∃ c ∈ polls, (Run.last step { config } cs).Uncapped id consumer c) :
    ∃ n : Nat, ((Run.last step ({ config } : Broker) cs).store (ref topic index)).get? n = none ∧
      (ofSource (ref topic index) (delivered id (transcript { config } (cs ++ polls)))).map some =
        (Offset.upFrom 0 n).map
          ((Run.last step ({ config } : Broker) cs).store (ref topic index)).get? := by
  have hsole := sole_ref (named_run config cs) topic index
  obtain ⟨cursors, hview, hdr⟩ := drained_after_polls hf hg hsole hmem hpolls hall
  obtain ⟨u, h, hds, -⟩ := exact_run (along_polls hf hpolls) id
  rw [hview] at h
  rw [← hds]
  exact ⟨_, Bench.delivered_of_drained h hsole hdr, (Bench.delivered_eq h hsole).1⟩

theorem stamped_run : (Run.last step ({ config } : Broker) cs).store.Stamped := by
  obtain ⟨u, hu, -, -⟩ := exact_run hf ""
  exact hu.ordered.stamped

theorem bounded_run : (Run.last step ({ config } : Broker) cs).store.Bounded := by
  obtain ⟨u, hu, -, -⟩ := exact_run hf ""
  exact hu.faithful.bounded

end

/-- **Exactly once, and completely.** After any run in which offsets fit, a group that the broker
subscribed to a topic got from each of its partitions what the partition holds from offset zero up
to the offset consumed last, in order, and the partition holds what was written and nothing else.
After uncapped polls of all members the group got all that comes before the first empty offset. -/
theorem delivered_exactly_once {config : Config} {cs : List Command}
    (hcs : ∀ c ∈ cs, c.handsPartitions = false) (hfit : Run.Along step Fits { config } cs)
    {id topic : String} {g : ConsumerGroup} {t : Topic} {index : Nat} {p : Partition}
    (hg : (({ config } : Broker).run cs).2.groups[id]? = some g) (htopic : topic ∈ g.topics)
    (ht : (({ config } : Broker).run cs).2.topics[topic]? = some t)
    (hp : t.partitions[index]? = some p) :
    (∃ n : Nat,
      (ofSource (ref topic index) (delivered id (transcript { config } cs))).map some =
        (Offset.upFrom 0 n).map p.get? ∧
      g.consumedOffset (Partition.idOf topic index) = some (n - 1 : Offset)) ∧
    (∀ (o : Offset) (m : Message), p.get? o = some m ↔
      m.offset = o ∧ (ref topic index, m) ∈ writes (transcript { config } cs)) ∧
    ∀ polls : List Command,
      (∀ c ∈ polls, ∃ consumer, (({ config } : Broker).run cs).2.Uncapped id consumer c) →
      (∀ consumer ∈ g.members, ∃ c ∈ polls,
        (({ config } : Broker).run cs).2.Uncapped id consumer c) →
      (∃ n : Nat, p.get? n = none ∧
        (ofSource (ref topic index) (delivered id (transcript { config } (cs ++ polls)))).map some =
          (Offset.upFrom 0 n).map p.get?) ∧
      ∀ m : Message, p.get? m.offset = some m →
        (∀ o : Offset, 0 ≤ o → o < m.offset → p.get? o ≠ none) →
        m ∈ ofSource (ref topic index) (delivered id (transcript { config } (cs ++ polls))) := by
  rw [run_eq] at hg ht ⊢
  have hn := named_run config cs
  have hstore : (Run.last step ({ config } : Broker) cs).store (ref topic index) = p := by
    have h := store_of_topic ht hp
    rwa [hn topic t ht] at h
  have hmem : ref topic index ∈ g.partitions := by
    have hsub := subscribed_run config hcs id
    rw [group_of_some hg] at hsub
    exact hsub.mem_partitions hn htopic ht (List.getElem?_eq_some_iff.1 hp).1
  obtain ⟨heq, hcur⟩ := delivered_eq hfit id topic index
  rw [hstore] at heq
  generalize (ofSource (ref topic index) (delivered id (transcript { config } cs))).length = n
    at heq hcur
  refine ⟨⟨n, heq, ?_⟩, ?_, ?_⟩
  · obtain ⟨u, h, -, -⟩ := exact_run hfit id
    have htracked := h.tracked
    rw [view, group_of_some hg] at htracked
    rw [← hcur, group_of_some hg]
    exact Bench.getElem?_of_getD (htracked _ hmem)
  · intro o m
    rw [← get?_iff_written hfit, hstore]
  · intro polls hpolls hall
    obtain ⟨k, hk, hread⟩ := delivered_after_polls hfit hg hmem hpolls hall
    rw [hstore] at hk hread
    refine ⟨⟨k, hk, hread⟩, ?_⟩
    intro m hm hfull
    have hs := stamped_run hfit (ref topic index)
    have hb := bounded_run hfit (ref topic index)
    rw [hstore] at hs hb
    exact (Partition.mem_read_iff hs hread).2
      ⟨hm, (hb.inside m.offset m hm).1, Partition.offset_lt_of_full hk hm hfull⟩

/-- The first offset is reserved and filled only after a poll; then a second consumer joins. -/
def lateFill : List Command :=
  [.createTopic "t" 1 .roundRobin, .addConsumer "g" "a", .subscribe "g" "t",
    .onTopic "t" (.onPartition 0 (.reserve 1)), .publish "t" "k" [1], .poll "g" "a",
    .onTopic "t" (.onPartition 0 (.fill 0 ⟨none, [2]⟩)), .addConsumer "g" "b"]

theorem delivered_exactly_once_late_fill :
    (∀ c ∈ lateFill, c.handsPartitions = false) ∧ Run.Along step Fits ({} : Broker) lateFill ∧
    ∃ (g : ConsumerGroup) (t : Topic) (p : Partition),
      (({} : Broker).run lateFill).2.groups["g"]? = some g ∧ "t" ∈ g.topics ∧
      (({} : Broker).run lateFill).2.topics["t"]? = some t ∧ t.partitions[0]? = some p ∧
      (∃ n : Nat, (ofSource (ref "t" 0) (delivered "g" (transcript {} lateFill))).map some =
          (Offset.upFrom 0 n).map p.get? ∧
        g.consumedOffset "t-part-0" = some (n - 1 : Offset)) ∧
      (⟨1, some "k", [1]⟩ : Message) ∈ ofSource (ref "t" 0) (delivered "g" (transcript {}
        (lateFill ++ [.onGroup "g" (.pollMax "b" 9), .poll "g" "a"]))) := by
  have hcs : ∀ c ∈ lateFill, c.handsPartitions = false := by decide
  have hfit : Run.Along step Fits ({} : Broker) lateFill := by decide
  have hg : (({} : Broker).run lateFill).2.groups["g"]?.isSome = true := by decide
  have ht : (({} : Broker).run lateFill).2.topics["t"]?.isSome = true := by decide
  have hp : (Option.get _ ht).partitions[0]?.isSome = true := by decide +revert
  have htopic : "t" ∈ (Option.get _ hg).topics := by decide +revert
  have hmembers : (Option.get _ hg).members = ["a", "b"] := by decide +revert
  have hfilled : (Option.get _ hp).get? 0 = some ⟨0, none, [2]⟩ := by decide +revert
  have hstored : (Option.get _ hp).get? 1 = some ⟨1, some "k", [1]⟩ := by decide +revert
  have ha : (({} : Broker).run lateFill).2.Uncapped "g" "a" (.poll "g" "a") :=
    ⟨.poll "a", Or.inl ⟨rfl, rfl⟩, none, by decide, by decide⟩
  have hb : (({} : Broker).run lateFill).2.Uncapped "g" "b" (.onGroup "g" (.pollMax "b" 9)) :=
    ⟨.pollMax "b" 9, Or.inr rfl, some 9, by decide, by decide⟩
  obtain ⟨hread, -, hpolls⟩ := delivered_exactly_once hcs hfit (Option.some_get hg).symm htopic
    (Option.some_get ht).symm (Option.some_get hp).symm
  refine ⟨hcs, hfit, _, _, _, (Option.some_get hg).symm, htopic, (Option.some_get ht).symm,
    (Option.some_get hp).symm, hread, (hpolls _ ?_ ?_).2 _ hstored ?_⟩
  · intro c hc
    simp only [List.mem_cons, List.not_mem_nil, or_false] at hc
    rcases hc with rfl | rfl
    · exact ⟨"b", hb⟩
    · exact ⟨"a", ha⟩
  · intro consumer hc
    rw [hmembers] at hc
    simp only [List.mem_cons, List.not_mem_nil, or_false] at hc
    rcases hc with rfl | rfl
    · exact ⟨_, by simp, ha⟩
    · exact ⟨_, List.mem_cons_self, hb⟩
  · intro o h0 h1
    obtain rfl : o = 0 := by
      have h1' : o < 1 := h1
      lia
    rw [hfilled]
    exact Option.some_ne_none _

end LogBroker.Broker
