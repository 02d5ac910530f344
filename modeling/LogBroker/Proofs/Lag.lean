import Mathlib
import LogBroker.Proofs.Broker.Identity
import LogBroker.Proofs.Broker.Partitions
import LogBroker.Proofs.Cursors
import LogBroker.Proofs.ExactlyOnce

/-!
# Lag

The lag of a consumer adds up, over the partitions that it owns, how far the group's cursor is
behind the watermark (`ConsumerGroup.behind`). Two accounts are given of it.

* What it counts, by `behind_eq`: the messages of these partitions that the group was not given, and
  the offsets that were reserved and never filled. The messages come from the log, which is what
  was delivered and the rest (`Partition.size_eq_read_add`), the offsets from the partition's own
  history.
* How it changes. The members own the partitions of the group between them, each once
  (`Dealt.owned_perm`), so the lag of all members is a sum over partitions in which owners do not
  occur (`Dealt.totalLag_eq`). A request that does not poll adds the partitions it brings
  (`Dealt.totalLag_step`), a poll takes away what it returns (`Dealt.totalLag_poll`).

A topic that is new to a group has no cursor there yet, as cursors are kept for the partitions of
the group and no others (`Matched`).
-/
namespace LogBroker

namespace Partition

/-- A partition holds the messages that were read from it from zero on, and the others. -/
theorem size_eq_read_add {p : Partition} (hs : p.log.Stamped) {ms : List Message} {n : Nat}
    (h : ms.map some = (Offset.upFrom 0 n).map p.get?) :
    p.size = ms.length + (p.log.values.filter (· ∉ ms)).length := by
  have hkeys : p.log.values.map (·.offset) = p.log.keys.map (fun o => o) :=
    (TreeMap.map_keys p.log fun o m hm => (hs o m hm).symm).symm
  have hvalues : p.log.values.Nodup := by
    apply List.Nodup.of_map (·.offset)
    rw [hkeys, List.map_id']
    exact TreeMap.nodup_keys p.log
  have hms : ms.Nodup := by
    apply List.Nodup.of_map (·.offset)
    rw [offsets_of_read hs h]
    exact Offset.nodup_upFrom 0 n
  have hread : (p.log.values.filter (· ∈ ms)).Perm ms := by
    rw [List.perm_ext_iff_of_nodup (hvalues.filter _) hms]
    intro m
    rw [List.mem_filter, decide_eq_true_eq]
    refine ⟨And.right, fun hm => ⟨TreeMap.mem_values.2 ⟨m.offset, ?_⟩, hm⟩⟩
    exact ((mem_read_iff hs h).1 hm).1
  have hsplit := (List.filter_append_perm (fun m => decide (m ∈ ms)) p.log.values).length_eq
  simp only [← decide_not] at hsplit
  rw [List.length_append, hread.length_eq, TreeMap.length_values] at hsplit
  exact hsplit.symm

end Partition

namespace ConsumerGroup
open Delivery

variable {g : ConsumerGroup} {s : Store}

/-- How far the group's cursor is behind a partition's watermark. -/
def behind (g : ConsumerGroup) (s : Store) (r : PartitionRef) : Int :=
  (s r).watermark - 1 - g.cursors.consumed r

/-- The lag of all members. -/
def totalLag (g : ConsumerGroup) (s : Store) : Int := (g.members.map (g.lag s)).sum

theorem lag_eq_sum (g : ConsumerGroup) (s : Store) (consumer : String) :
    g.lag s consumer = ((g.owned consumer).map (g.behind s)).sum := by
  unfold lag
  induction g.owned consumer with
  | nil => rfl
  | cons r rest ih => rw [List.foldr_cons, ih, List.map_cons, List.sum_cons]; rfl

/-- What the members own are the partitions of the group. -/
theorem Dealt.owned_perm (h : g.Dealt) (hm : g.members ≠ []) :
    (g.members.flatMap g.owned).Perm g.partitions := by
  by_cases hp : g.partitions = []
  · have hnone : g.owned = fun _ => [] := by
      funext c
      rw [owned, h.none (Or.inr hp)]
      rfl
    rw [hp, hnone]
    simp
  · obtain ⟨hnodup, hperm⟩ := h.keys_perm hm hp
    refine (hperm.flatMap_right g.owned).symm.trans ?_
    exact (List.Perm.of_eq (Assignment.flatMap_owned hnodup)).trans (h.items_perm hm)

/-- The lag of all members depends on watermarks and cursors only, not on who owns what. -/
theorem Dealt.totalLag_eq (h : g.Dealt) (hm : g.members ≠ []) (s : Store) :
    g.totalLag s = (g.partitions.map (g.behind s)).sum := by
  rw [← ((h.owned_perm hm).map (g.behind s)).sum_eq, List.map_flatMap, List.flatMap_def,
    List.sum_flatten, List.map_map, totalLag]
  congr 1
  exact List.map_congr_left fun consumer _ => lag_eq_sum g s consumer

theorem members_ne_nil_step (hm : g.members ≠ []) (s : Store) (c : Command) :
    (g.step s c).2.members ≠ [] := by
  rw [members_step]
  exact List.append_ne_nil_of_left_ne_nil hm _

/-- A request that does not poll adds to the lag of all members that of the partitions that it
subscribes to. -/
theorem Dealt.totalLag_step (h : g.Dealt) (hm : g.members ≠ []) {c : Command}
    (hc : c.isPoll = false) (s : Store) :
    (g.step s c).2.totalLag s =
      g.totalLag s + (((subscription c (g.step s c).1).flatMap Prod.snd).map (g.behind s)).sum := by
  have hbehind : (g.step s c).2.behind s = g.behind s := by
    funext r
    rw [behind, behind, Cursors.consumed, cursor_step_of_not_poll hc]
    rfl
  rw [(dealt_step h s c).totalLag_eq (members_ne_nil_step hm s c), h.totalLag_eq hm, hbehind,
    partitions_step, List.map_append, List.sum_append]

/-- A poll takes as much from the lag of all members as it returns messages, where no two
partitions of the group share an id. -/
theorem Dealt.totalLag_poll (h : g.Dealt) (hm : g.members ≠ []) (hs : s.Stamped)
    (hids : (g.partitions.map (·.id)).Nodup) {c : Command} (hc : c.isPoll = true) :
    (g.step s c).2.totalLag s = g.totalLag s - (all (g.step s c).1.deliveries).length := by
  rcases g.poll_or_not c with hnot | ⟨consumer, limit, hp⟩
  · rw [hnot] at hc
    cases hc
  rw [(dealt_step h s c).totalLag_eq (members_ne_nil_step hm s c), h.totalLag_eq hm,
    step_poll hp]
  simp only [Answer.deliveries]
  generalize hd : deliver s (g.owned consumer) g.cursors limit = polled
  have hmoved (r : PartitionRef) : g.behind s r =
      ({ g with cursors := polled.2 } : ConsumerGroup).behind s r +
        (((entries polled.1).map (·.1.id)).count r.id : Nat) := by
    have hcur := getD_deliver hs (g.owned consumer) g.cursors limit r.id
    rw [hd] at hcur
    rw [behind, behind, Cursors.consumed, Cursors.consumed, hcur, List.count_eq_countP,
      List.countP_map]
    simp only [Function.comp_def, beq_eq_decide]
    lia
  have hsources : ∀ x ∈ (entries polled.1).map (·.1.id), x ∈ g.partitions.map (·.id) := by
    intro x hx
    obtain ⟨e, he, rfl⟩ := List.mem_map.1 hx
    obtain ⟨d, hmem, he⟩ := List.mem_flatMap.1 he
    obtain ⟨m, -, rfl⟩ := List.mem_map.1 he
    rw [← hd] at hmem
    exact List.mem_map_of_mem (h.of_owned (source_mem_of_deliver hmem)).2
  have hcount := sum_map_count hids hsources
  rw [List.length_map, length_entries, List.map_map] at hcount
  rw [List.map_congr_left (f := g.behind s) fun r _ => hmoved r, List.sum_map_add, ← hcount,
    Nat.cast_list_sum, List.map_map]
  simp only [Function.comp_def]
  lia

end ConsumerGroup

namespace Broker
open Delivery ConsumerGroup

variable {b : Broker}

theorem matched_run (config : Config) (cs : List Command) (id : String) :
    ((Run.last step ({ config } : Broker) cs).group id).Matched := by
  have h := Bench.matched_run id config.distribution config.maxPoll (history config cs id)
  rw [view_run] at h
  exact h

/-! ## What lag counts -/

/-- The messages of a partition that are not among the deliveries. -/
def undelivered (b : Broker) (ds : List Delivery) (r : PartitionRef) : List Message :=
  (b.store r).log.values.filter (· ∉ ofSource r ds)

/-- The offsets of a partition that were reserved during a run and are still without a message. -/
def vacant (config : Config) (cs : List Command) (r : PartitionRef) : List Offset :=
  Partition.vacant (account config cs r)

/-- A cursor is behind the watermark by the messages that were not delivered and the offsets that
are vacant. -/
theorem behind_eq {config : Config} {cs : List Command} (hf : Run.Along step Fits { config } cs)
    (id topic : String) (index : Nat) :
    ((Run.last step ({ config } : Broker) cs).group id).behind
        (Run.last step ({ config } : Broker) cs).store (ref topic index) =
      ((Run.last step ({ config } : Broker) cs).undelivered
          (delivered id (transcript { config } cs)) (ref topic index)).length +
        (vacant config cs (ref topic index)).length := by
  obtain ⟨hread, hcur⟩ := delivered_eq hf id topic index
  have hsize := Partition.size_eq_read_add (stamped_run hf (ref topic index)) hread
  have hvacant := (history_of_account hf (ref topic index)).watermark_sub_size
  rw [behind, Cursors.consumed, hcur, undelivered, vacant, ← hvacant, hsize]
  push_cast
  lia

/-! ## What commands make of it -/

/-- The lag of all members of a group. -/
def totalLag (b : Broker) (id : String) : Int := (b.group id).totalLag b.store

/-- What a broker keeps of a group that it subscribed itself. -/
structure Steady (b : Broker) (id : String) : Prop where
  named : b.Named
  stamped : b.store.Stamped
  subscribed : Subscribed b (b.group id)
  dealt : (b.group id).Dealt
  matched : (b.group id).Matched
  staffed : (b.group id).members ≠ []

theorem steady_run (config : Config) {cs : List Command} (hcs : ∀ c ∈ cs, c.handsPartitions = false)
    {id : String} (hid : id ∈ (Run.last step ({ config } : Broker) cs).groups) :
    Steady (Run.last step { config } cs) id where
  named := named_run config cs
  stamped := stamped_always config cs
  subscribed := subscribed_run config hcs id
  dealt := dealt_run config cs id
  matched := matched_run config cs id
  staffed := staffed_run config cs id hid

variable {id : String} {c : Command} {q : ConsumerGroup.Command}

/-- Whoever joins and however the partitions are dealt anew, the lag of all members stays. -/
theorem Steady.totalLag_of_deal (h : Steady b id) (ha : b.asked id c = some q)
    (hq : q = .rebalance ∨ ∃ consumer, q = .addConsumer consumer) :
    (b.step c).2.totalLag id = b.totalLag id := by
  obtain ⟨hstore, hgroup, -⟩ := step_of_asked h.named ha
  have hpoll : q.isPoll = false := by
    obtain rfl | ⟨consumer, rfl⟩ := hq <;> rfl
  have hsub : subscription q ((b.group id).step b.store q).1 = [] := by
    obtain rfl | ⟨consumer, rfl⟩ := hq <;> rfl
  have hlag := h.dealt.totalLag_step h.staffed hpoll b.store
  rw [hsub, List.flatMap_nil, List.map_nil, List.sum_nil, Int.add_zero] at hlag
  rw [totalLag, hstore, hgroup, hlag, totalLag]

/-- A new topic adds the watermarks of its partitions, for the group has no cursor there. -/
theorem Steady.totalLag_of_subscribe (h : Steady b id) (hid : id ∈ b.groups) {topic : String}
    {t : Topic} (ht : b.topics[topic]? = some t) (hnew : topic ∉ (b.group id).topics) :
    (b.step (.subscribe id topic)).2.totalLag id =
      b.totalLag id + (t.partitions.map (·.watermark)).sum := by
  have ha : b.asked id (.subscribe id topic) = some (.subscribe t.name t.refs) := by
    rw [asked, if_pos ⟨rfl, hid⟩, ht]
    rfl
  obtain ⟨hstore, hgroup, -⟩ := step_of_asked h.named ha
  have hname := h.named topic t ht
  have hsub : subscription (.subscribe t.name t.refs)
      ((b.group id).step b.store (.subscribe t.name t.refs)).1 = [(t.name, t.refs)] := by
    rw [hname]
    simp [ConsumerGroup.step, ConsumerGroup.subscribe, hnew, subscription]
  have hlag := h.dealt.totalLag_step h.staffed (c := .subscribe t.name t.refs) rfl b.store
  have hrefs : t.refs = b.refs topic := by
    rw [refs, ht]
    rfl
  have hbehind : (b.refs topic).map ((b.group id).behind b.store) =
      ((b.refs topic).map b.store).map (·.watermark) := by
    rw [List.map_map]
    refine List.map_congr_left fun r hr => ?_
    have hnone : r.id ∉ (b.group id).partitions.map (·.id) := by
      intro hmem
      obtain ⟨r', hr', hid'⟩ := List.mem_map.1 hmem
      obtain ⟨topic', hmem', index', rfl⟩ := h.subscribed.exists_ref h.named hr'
      rw [refs_of_some h.named ht] at hr
      obtain ⟨index, -, rfl⟩ := List.mem_map.1 hr
      obtain ⟨rfl, -⟩ := Partition.idOf_inj hid'
      exact hnew hmem'
    rw [behind, h.matched.consumed_eq hnone, nothingConsumed]
    simp only [Function.comp_apply]
    lia
  rw [hsub, List.flatMap_cons, List.flatMap_nil, List.append_nil, hrefs, hbehind,
    refs_map_store h.named, partitionsOf, ht, Option.map_some, Option.getD_some] at hlag
  rw [totalLag, hstore, hgroup, hrefs, hlag, totalLag]

/-- A poll takes away what it returns. -/
theorem Steady.totalLag_of_poll (h : Steady b id) (ha : b.asked id c = some q)
    (hq : q.isPoll = true) :
    (b.step c).2.totalLag id =
      b.totalLag id - (all (deliveriesTo id (c, (b.step c).1))).length := by
  obtain ⟨hstore, hgroup, hds⟩ := step_of_asked h.named ha
  rw [totalLag, hstore, hgroup, hds, totalLag,
    h.dealt.totalLag_poll h.staffed h.stamped (h.subscribed.nodup_ids h.named) hq]

/-- **Lag is exact and conserved.** After any run in which offsets fit and the broker subscribed the
groups, the lag of a consumer counts, over the partitions that it owns, the messages that the group
was not given and the reserved offsets without a message. The lag of all members depends on
watermarks and cursors only. So it stays when partitions are dealt anew and when somebody joins, a
new topic adds the watermarks of its partitions, and a poll takes away what it returns. -/
theorem lag_exact_and_conserved {config : Config} {cs : List Command}
    (hcs : ∀ c ∈ cs, c.handsPartitions = false) (hfit : Run.Along step Fits { config } cs)
    {id : String} {g : ConsumerGroup}
    (hg : (({ config } : Broker).run cs).2.groups[id]? = some g) :
    let b := (({ config } : Broker).run cs).2
    (∀ consumer, 0 ≤ g.lag b.store consumer ∧ g.lag b.store consumer =
      ((g.owned consumer).map fun r =>
        ((b.undelivered (delivered id (transcript { config } cs)) r).length +
          (vacant config cs r).length : Int)).sum) ∧
    b.totalLag id =
      (g.partitions.map fun r => (b.store r).watermark - 1 - g.cursors.consumed r).sum ∧
    (∀ c, (c = .onGroup id .rebalance ∨
        ∃ consumer, c = .addConsumer id consumer ∨ c = .onGroup id (.addConsumer consumer)) →
      (b.step c).2.totalLag id = b.totalLag id) ∧
    (∀ (topic : String) (t : Topic), b.topics[topic]? = some t → topic ∉ g.topics →
      (b.step (.subscribe id topic)).2.totalLag id =
        b.totalLag id + (t.partitions.map (·.watermark)).sum) ∧
    ∀ c consumer, (c = .poll id consumer ∨ c = .onGroup id (.poll consumer) ∨
        ∃ max, c = .onGroup id (.pollMax consumer max)) →
      (b.step c).2.totalLag id =
        b.totalLag id - (all (deliveriesTo id (c, (b.step c).1))).length := by
  rw [run_eq] at hg ⊢
  intro b
  have hid : id ∈ b.groups := mem_groups hg
  have hgroup : b.group id = g := group_of_some hg
  have h : Steady b id := steady_run config hcs hid
  have hlag (consumer : String) : g.lag b.store consumer =
      ((g.owned consumer).map fun r =>
        ((b.undelivered (delivered id (transcript { config } cs)) r).length +
          (vacant config cs r).length : Int)).sum := by
    rw [lag_eq_sum]
    congr 1
    refine List.map_congr_left fun r hr => ?_
    rw [← hgroup] at hr ⊢
    obtain ⟨topic, -, index, rfl⟩ := h.subscribed.exists_ref h.named (h.dealt.of_owned hr).2
    exact behind_eq hfit id topic index
  have hasked (q : ConsumerGroup.Command) : b.asked id (.onGroup id q) = some q :=
    if_pos ⟨rfl, hid⟩
  refine ⟨fun consumer => ⟨?_, hlag consumer⟩, ?_, ?_, ?_, ?_⟩
  · rw [hlag consumer]
    apply List.sum_nonneg
    intro x hx
    obtain ⟨r, -, rfl⟩ := List.mem_map.1 hx
    lia
  · rw [totalLag, h.dealt.totalLag_eq h.staffed, hgroup]
    rfl
  · rintro c (rfl | ⟨consumer, rfl | rfl⟩)
    · exact h.totalLag_of_deal (hasked _) (Or.inl rfl)
    · exact h.totalLag_of_deal (if_pos rfl) (Or.inr ⟨consumer, rfl⟩)
    · exact h.totalLag_of_deal (hasked _) (Or.inr ⟨consumer, rfl⟩)
  · intro topic t ht hnew
    rw [← hgroup] at hnew
    exact h.totalLag_of_subscribe hid ht hnew
  · rintro c consumer (rfl | rfl | ⟨max, rfl⟩)
    · exact h.totalLag_of_poll (q := .poll consumer) (if_pos ⟨rfl, hid⟩) rfl
    · exact h.totalLag_of_poll (hasked _) rfl
    · exact h.totalLag_of_poll (hasked _) rfl

/-- Of a partition two offsets are reserved before a message; somebody joins after a poll, and there
is a topic that the group may yet subscribe to. -/
def lagging : List Command :=
  [.createTopic "t" 2 .roundRobin, .createTopic "u" 1 .roundRobin, .addConsumer "g" "a",
    .subscribe "g" "t", .publish "t" "k" [1], .onTopic "t" (.onPartition 1 (.reserve 2)),
    .publish "t" "k" [2], .poll "g" "a", .publish "t" "k" [3], .publish "u" "k" [4],
    .addConsumer "g" "b"]

theorem lag_exact_and_conserved_lagging :
    let b := (({} : Broker).run lagging).2
    (∀ c ∈ lagging, c.handsPartitions = false) ∧ Run.Along step Fits ({} : Broker) lagging ∧
    ∃ g : ConsumerGroup, b.groups["g"]? = some g ∧
      g.lag b.store "b" = 3 ∧
      ((g.owned "b").map fun r =>
        ((b.undelivered (delivered "g" (transcript {} lagging)) r).length +
          (vacant {} lagging r).length : Int)).sum = 3 ∧
      b.totalLag "g" = 4 ∧
      (b.step (.onGroup "g" .rebalance)).2.totalLag "g" = 4 ∧
      (b.step (.addConsumer "g" "c")).2.totalLag "g" = 4 ∧
      (∃ t : Topic, b.topics["u"]? = some t ∧
        (b.step (.subscribe "g" "u")).2.totalLag "g" = 4 + (t.partitions.map (·.watermark)).sum) ∧
      (b.step (.onGroup "g" (.pollMax "a" 5))).2.totalLag "g" = 3 := by
  intro b
  have hcs : ∀ c ∈ lagging, c.handsPartitions = false := by decide
  have hfit : Run.Along step Fits ({} : Broker) lagging := by decide
  have hg : b.groups["g"]?.isSome = true := by decide
  have ht : b.topics["u"]?.isSome = true := by decide
  have hb : (Option.get _ hg).lag b.store "b" = 3 := by decide +revert
  have htotal : b.totalLag "g" = 4 := by decide
  have hnew : "u" ∉ (Option.get _ hg).topics := by decide +revert
  have hreturned : (all (deliveriesTo "g" (.onGroup "g" (.pollMax "a" 5),
    (b.step (.onGroup "g" (.pollMax "a" 5))).1))).length = 1 := by decide
  obtain ⟨hlag, -, hdeal, hsubscribe, hpoll⟩ :=
    lag_exact_and_conserved hcs hfit (Option.some_get hg).symm
  refine ⟨hcs, hfit, _, (Option.some_get hg).symm, hb, (hlag "b").2.symm.trans hb, htotal,
    (hdeal _ (Or.inl rfl)).trans htotal, (hdeal _ (Or.inr ⟨"c", Or.inl rfl⟩)).trans htotal,
    ⟨_, (Option.some_get ht).symm, ?_⟩, ?_⟩
  · rw [hsubscribe "u" _ (Option.some_get ht).symm hnew]
    exact congrArg (· + _) htotal
  · rw [hpoll _ "a" (Or.inr (Or.inr ⟨5, rfl⟩)), hreturned]
    exact congrArg (· - _) htotal

end Broker
end LogBroker
