import Mathlib
import LogBroker.Proofs.Broker.Registry

/-!
# Which partition is which

Three names lead to a partition: its topic and place, its id, and the place in the list of a group.
Over any run of a broker they agree.

* `Store.Placed`: a partition is what its name says, of this topic and at this place. No request
  changes that (`placed_run`).
* Ids are read off topic and place (`Store.Placed.id_eq`), so they tell all partitions of a broker
  apart, whatever the topics are called. Cursors are kept by id, so each partition of a group has a
  cursor to itself (`Subscribed.eq_of_id`).
* `topics_run`: the topics of a group are those it was subscribed to, in this order, each once.
-/
namespace LogBroker

namespace Store

/-- Every partition is of the topic and at the place that its name says. -/
def Placed (s : Store) : Prop := ∀ r, (s r).topic = r.topic ∧ (s r).index = r.index

theorem placed_fresh : Placed fresh := fun _ => ⟨rfl, rfl⟩

theorem placed_step {s : Store} (h : s.Placed) (q : PartitionRef × Partition.Command) :
    (s.step q).2.Placed := by
  refine forall_step (fun r p => p.topic = r.topic ∧ p.index = r.index) h ?_
  obtain ⟨htopic, hindex⟩ := Partition.name_step (s q.1) q.2
  rw [htopic, hindex]
  exact h q.1

/-- The id in the name of a partition is the partition's id. -/
theorem Placed.id_eq {s : Store} (h : s.Placed) (r : PartitionRef) : (s r).id = r.id := by
  obtain ⟨htopic, hindex⟩ := h r
  rw [Partition.id, htopic, hindex]
  rfl

end Store

namespace ConsumerGroup

/-- The topic that a request asks the group to take on. -/
def requested : Command → List String
  | .subscribe topic _ => [topic]
  | _ => []

theorem requested_eq (c : Command) : requested c = (offered c).map Prod.fst := by
  cases c <;> rfl

theorem length_requested_le (c : Command) : (requested c).length ≤ 1 := by
  cases c <;> simp [requested]

/-- A group takes on the topics that it is asked to take on, but for those it has. -/
theorem subscription_topics (g : ConsumerGroup) (s : Store) (c : Command) :
    (subscription c (g.step s c).1).map Prod.fst = (requested c).filter (· ∉ g.topics) := by
  rw [subscription_eq_filter, requested_eq, List.filter_map]
  rfl

/-- To append at most one element and to drop repetitions is to append it if it is new. -/
theorem eraseDups_append_of_length_le {xs ys : List String} (h : ys.length ≤ 1) :
    (xs ++ ys).eraseDups = xs.eraseDups ++ ys.filter (· ∉ xs.eraseDups) := by
  rw [List.eraseDups_append]
  congr 1
  match ys, h with
  | [], _ => rfl
  | [y], _ => by_cases hy : y ∈ xs <;> simp [List.removeAll, hy, List.eraseDups_cons]

end ConsumerGroup

namespace Broker

/-- The partitions of a topic as they are; an unknown topic has none. -/
def partitionsOf (b : Broker) (topic : String) : List Partition :=
  (b.topics[topic]?.map (·.partitions)).getD []

/-- The topic that a group was subscribed to. -/
def subscribedTo (id : String) : Command × Answer → List String
  | (.subscribe group topic, .subscribed) => if group = id then [topic] else []
  | _ => []

/-- The topics that a group was subscribed to during a run, in order. -/
def subscriptions (id : String) (t : List (Command × Answer)) : List String :=
  t.flatMap (subscribedTo id)

variable {b : Broker}

/-! ## Partitions -/

theorem placed_run (config : Config) (cs : List Command) :
    (Run.last step ({ config } : Broker) cs).store.Placed :=
  store_run config cs (fun _ q h => Store.placed_step h q) Store.placed_fresh

/-- A partition of a registered topic has the topic's name and its place there. -/
theorem name_of_topic (hn : b.Named) (hp : b.store.Placed) {name : String} {t : Topic}
    (ht : b.topics[name]? = some t) {index : Nat} {p : Partition}
    (h : t.partitions[index]? = some p) : p.topic = name ∧ p.index = index := by
  have hstore := store_of_topic ht h
  have hplaced := hp ⟨name, t.name, index⟩
  rw [hstore, hn name t ht] at hplaced
  exact hplaced

/-- The names of a topic's partitions lead to the topic's partitions. -/
theorem refs_map_store (hn : b.Named) (topic : String) :
    (b.refs topic).map b.store = b.partitionsOf topic := by
  cases ht : b.topics[topic]? with
  | none => simp [refs, partitionsOf, ht]
  | some t =>
    rw [refs_of_some hn ht, partitionsOf, ht, Option.map_some, Option.getD_some, List.map_map]
    apply List.ext_getElem
    · simp [Topic.count]
    · intro index h₁ h₂
      have hp : t.partitions[index]? = some t.partitions[index] := List.getElem?_eq_getElem h₂
      have hstore := store_of_topic ht hp
      rw [hn topic t ht] at hstore
      simpa [ref] using hstore

/-! ## Subscriptions -/

/-- The commands that subscribe a group are those that ask it to take on a topic. -/
theorem subscribedTo_step (hn : b.Named) (id : String) {c : Command}
    (hc : c.handsPartitions = false) :
    subscribedTo id (c, (b.step c).1) = (b.asked id c).toList.flatMap ConsumerGroup.requested := by
  cases c with
  | subscribe group topic =>
    cases ht : b.topics[topic]? with
    | none =>
      simp only [step, subscribe, findTopic, ht, asked]
      split <;> rfl
    | some t =>
      have hname := hn topic t ht
      simp only [step, subscribe, findTopic, findGroup, ht, asked, Option.map_some, hname]
      cases hg : b.groups[group]? with
      | none =>
        rw [unasked_of_unknown hg]
        rfl
      | some g =>
        rw [asked_of_known hg]
        by_cases h : group = id
        · rw [if_pos h]
          exact if_pos h
        · rw [if_neg h]
          exact if_neg h
  | onGroup group q =>
    simp only [subscribedTo, asked]
    split
    · cases q with
      | subscribe topic rs => cases hc
      | _ => rfl
    · rfl
  | addConsumer group consumer =>
    simp only [subscribedTo, asked]
    split <;> rfl
  | poll group consumer =>
    simp only [subscribedTo, asked]
    split <;> rfl
  | _ => rfl

theorem topics_step_eraseDups (hn : b.Named) (id : String) {c : Command}
    (hc : c.handsPartitions = false) {before : List String}
    (h : (b.group id).topics = before.eraseDups) :
    ((b.step c).2.group id).topics = (before ++ subscribedTo id (c, (b.step c).1)).eraseDups := by
  rw [subscribedTo_step hn id hc]
  rcases answered_step hn id c with ⟨ha, hg, -⟩ | ⟨q, ha, hg, -⟩
  · rw [ha, hg, h]
    simp
  · rw [ha, hg, ConsumerGroup.topics_step, ConsumerGroup.subscription_topics, h]
    simp [ConsumerGroup.eraseDups_append_of_length_le (ConsumerGroup.length_requested_le q)]

/-- The topics of a group are those that it was subscribed to, in this order, each once. -/
theorem topics_run (config : Config) {cs : List Command}
    (hcs : ∀ c ∈ cs, c.handsPartitions = false) (id : String) :
    ((Run.last step ({ config } : Broker) cs).group id).topics =
      (subscriptions id (transcript { config } cs)).eraseDups := by
  refine (Run.invariant
    (fun (b : Broker) t => b.Named ∧ (b.group id).topics = (subscriptions id t).eraseDups)
    (fun b t c hc h => ⟨named_step h.1 c, ?_⟩)
    ⟨named_new config, ?_⟩ (Run.along_of_forall (fun c hc _ => hcs c hc) _)).2
  · rw [subscriptions, List.flatMap_append, List.flatMap_singleton]
    exact topics_step_eraseDups h.1 id hc h.2
  · rw [group_new]
    rfl

/-! ## All together -/

/-- Partitions of a group that have one id are one. -/
theorem Subscribed.eq_of_id (hn : b.Named) {g : ConsumerGroup} (h : Subscribed b g)
    {r r' : PartitionRef} (hr : r ∈ g.partitions) (hr' : r' ∈ g.partitions) (hid : r.id = r'.id) :
    r = r' := by
  obtain ⟨topic, -, index, rfl⟩ := h.exists_ref hn hr
  obtain ⟨topic', -, index', rfl⟩ := h.exists_ref hn hr'
  obtain ⟨rfl, rfl⟩ := Partition.idOf_inj hid
  rfl

theorem Subscribed.nodup_ids (hn : b.Named) {g : ConsumerGroup} (h : Subscribed b g) :
    (g.partitions.map (·.id)).Nodup :=
  (h.nodup_partitions hn).map_on fun _ hr _ hr' he => h.eq_of_id hn hr hr' he

/-- **Identity.** After any run, whatever topics are called: a topic is registered under its own
name and has partitions, each with its place and with the id that is made of name and place. No two
partitions of the broker have one id. A group that the broker subscribed has the partitions of its
topics, in the order of subscription and each once, and no two of them share a cursor. -/
theorem partition_identity (config : Config) (cs : List Command) :
    let b := (({ config } : Broker).run cs).2
    (∀ (name : String) (t : Topic), b.topics[name]? = some t →
      t.name = name ∧ 0 < t.count ∧
      ∀ (index : Nat) (p : Partition), t.partitions[index]? = some p →
        p.index = index ∧ p.id = name ++ "-part-" ++ toString index) ∧
    (∀ (name name' : String) (t t' : Topic) (index index' : Nat) (p p' : Partition),
      b.topics[name]? = some t → t.partitions[index]? = some p →
      b.topics[name']? = some t' → t'.partitions[index']? = some p' →
      p.id = p'.id → name = name' ∧ index = index') ∧
    ((∀ c ∈ cs, c.handsPartitions = false) →
      ∀ (id : String) (g : ConsumerGroup), b.groups[id]? = some g →
        g.topics = (subscriptions id (transcript { config } cs)).eraseDups ∧
        g.partitions = g.topics.flatMap b.refs ∧
        g.partitions.map b.store = g.topics.flatMap b.partitionsOf ∧
        g.partitions.Nodup ∧
        (∀ r ∈ g.partitions, (b.store r).id = r.id) ∧
        ∀ r ∈ g.partitions, ∀ r' ∈ g.partitions, r.id = r'.id → r = r') := by
  rw [run_eq]
  intro b
  have hn : b.Named := named_run config cs
  have hp : b.store.Placed := placed_run config cs
  refine ⟨?_, ?_, ?_⟩
  · intro name t ht
    refine ⟨hn name t ht, t.partitions_pos, ?_⟩
    intro index p h
    obtain ⟨htopic, hindex⟩ := name_of_topic hn hp ht h
    refine ⟨hindex, ?_⟩
    rw [Partition.id, htopic, hindex]
    rfl
  · intro name name' t t' index index' p p' ht h ht' h' hid
    obtain ⟨rfl, rfl⟩ := name_of_topic hn hp ht h
    obtain ⟨rfl, rfl⟩ := name_of_topic hn hp ht' h'
    exact Partition.idOf_inj hid
  · intro hcs id g hg
    have htopics := topics_run config hcs id
    have hsub : Subscribed b (b.group id) := subscribed_run config hcs id
    rw [show Run.last step { config } cs = b from rfl, group_of_some hg] at htopics
    rw [group_of_some hg] at hsub
    refine ⟨htopics, hsub.partitions, ?_, hsub.nodup_partitions hn, fun r _ => hp.id_eq r,
      fun r hr r' hr' => hsub.eq_of_id hn hr hr'⟩
    rw [hsub.partitions, List.map_flatMap]
    exact List.flatMap_congr fun topic _ => refs_map_store hn topic

/-- The second topic is called what looks like a partition of the first. A name that is taken, one
that is unknown and one that is subscribed already change nothing. -/
def nestedNames : List Command :=
  [.createTopic "a" 2 .roundRobin, .createTopic "a-part-1" 1 .roundRobin,
    .createTopic "a" 5 .roundRobin, .addConsumer "g" "c", .subscribe "g" "a-part-1",
    .subscribe "g" "b", .publish "a" "k" [1], .subscribe "g" "a", .subscribe "g" "a-part-1"]

theorem partition_identity_nested_names :
    (∀ c ∈ nestedNames, c.handsPartitions = false) ∧
    ∃ g : ConsumerGroup, (({} : Broker).run nestedNames).2.groups["g"]? = some g ∧
      g.topics = ["a-part-1", "a"] ∧
      g.partitions = [ref "a-part-1" 0, ref "a" 0, ref "a" 1] ∧
      g.partitions.Nodup ∧
      ∀ r ∈ g.partitions, ∀ r' ∈ g.partitions, r.id = r'.id → r = r' := by
  have hcs : ∀ c ∈ nestedNames, c.handsPartitions = false := by decide
  have hg : (({} : Broker).run nestedNames).2.groups["g"]?.isSome = true := by decide
  have hsubs : subscriptions "g" (transcript {} nestedNames) = ["a-part-1", "a", "a-part-1"] := by
    decide
  obtain ⟨htopics, hparts, -, hnodup, -, hids⟩ :=
    (partition_identity {} nestedNames).2.2 hcs "g" _ (Option.some_get hg).symm
  rw [hsubs] at htopics
  rw [htopics] at hparts
  exact ⟨hcs, _, (Option.some_get hg).symm, htopics.trans (by decide), hparts.trans (by decide),
    hnodup, hids⟩

end Broker
end LogBroker
