import Mathlib
import LogBroker.Broker.Command
import LogBroker.Proofs.Bench
import LogBroker.Proofs.Topic
import LogBroker.Proofs.TreeMap

/-!
# What one command does

Whatever a broker is told, it asks something of partitions of its topics (`Broker.traffic`) or
something of one group (`asked`). Which messages were stored and what was delivered is read off
the command and its answer (`written`, `deliveriesTo`).

* `served_step`: a command to a topic does to the store what its requests do. Groups stay, and so
  do the names, routings and sizes of topics (`Served`).
* `step_cases`: any other command does nothing, registers a new topic, or asks one group.
* `store_step`: the store after a command is the store after the requests to partitions; a new
  topic has nothing to show yet.
* `shape_step`: a topic keeps its shape from its creation on (`topic_last`).

Topics are registered under their own names (`Named`); no command changes that (`named_step`).
-/
namespace LogBroker.Broker

/-- A partition of a topic, in the broker that registers the topic. -/
def ref (topic : String) (index : Nat) : PartitionRef := ⟨topic, topic, index⟩

/-- The group of an id, as it is or as it would be opened. -/
def group (b : Broker) (id : String) : ConsumerGroup := b.groups.getD id (b.newGroup id)

/-! ## What a command asks -/

/-- What a request to a topic asks of a partition. -/
def topicTraffic (b : Broker) (name : String) (c : Topic.Command) :
    List (PartitionRef × Partition.Command) :=
  match b.topics[name]? with
  | none => []
  | some t => ((t.request b.counters c).map fun q => (⟨name, t.name, q.1⟩, q.2)).toList

/-- What a command asks of partitions. -/
def traffic (b : Broker) : Command → List (PartitionRef × Partition.Command)
  | .publish topic key payload => b.topicTraffic topic (.add key payload)
  | .publishBatch topic key payloads => b.topicTraffic topic (.addBatch key payloads)
  | .publishTimes topic key payload times =>
    Run.expand step (fun b _ => b.topicTraffic topic (.add key payload)) b
      (List.replicate times (.publish topic key payload))
  | .onTopic name c => b.topicTraffic name c
  | _ => []

/-- What a command asks of a group. -/
def asked (b : Broker) (id : String) : Command → Option ConsumerGroup.Command
  | .addConsumer group consumer => if group = id then some (.addConsumer consumer) else none
  | .subscribe group topic =>
    if group = id ∧ id ∈ b.groups then b.topics[topic]?.map fun t => .subscribe t.name t.refs
    else none
  | .poll group consumer => if group = id ∧ id ∈ b.groups then some (.poll consumer) else none
  | .onGroup group c => if group = id ∧ id ∈ b.groups then some c else none
  | _ => none

/-- The offsets that the command hands out fit. -/
def Fits (b : Broker) (c : Command) : Prop := Run.Along Store.step Store.Fits b.store (b.traffic c)

instance (b : Broker) (c : Command) : Decidable (b.Fits c) :=
  inferInstanceAs (Decidable (Run.Along Store.step Store.Fits b.store (b.traffic c)))

/-! ## What a command did -/

/-- The deliveries to a group in an answer. -/
def deliveriesTo (id : String) : Command × Answer → List Delivery
  | (.poll group _, .polled ds) => if group = id then ds else []
  | (.onGroup group _, .onGroup (some a)) => if group = id then a.deliveries else []
  | _ => []

/-- The messages that were published by a command, each with its partition. -/
def publications : Command × Answer → List (PartitionRef × Message)
  | (.publish topic key payload, .placed p) =>
    [(ref topic p.partition, ⟨p.offset, some key, payload⟩)]
  | (.publishBatch topic key payloads, .placedBatch p) =>
    (stamps p.offsets.first (payloads.map (⟨some key, ·⟩))).map (ref topic p.partition, ·)
  | (.publishTimes topic key payload _, .placements ps) =>
    ps.map fun p => (ref topic p.partition, ⟨p.offset, some key, payload⟩)
  | _ => []

/-- The messages that a command stored, each with its partition. -/
def written : Command × Answer → List (PartitionRef × Message)
  | (.onTopic name c, .onTopic (some a)) =>
    (Topic.written c a).map fun m => (ref name m.1, m.2)
  | q => publications q

/-! ## The store -/

theorem store_eq {b b' : Broker} (h : b'.topics = b.topics) : b'.store = b.store := by
  unfold store
  rw [h]

theorem store_of_topic {b : Broker} {name : String} {t : Topic} (h : b.topics[name]? = some t)
    {index : Nat} {p : Partition} (hp : t.partitions[index]? = some p) :
    b.store ⟨name, t.name, index⟩ = p := by
  simp [store, h, hp, Option.filter]

/-- Another state for one partition of a topic is another state for the partition of its name. -/
theorem store_setTopic {b : Broker} {name : String} {t : Topic} (h : b.topics[name]? = some t)
    {index : Nat} {p : Partition} (hp : t.partitions[index]? = some p) (q : Partition) :
    (b.setTopic name (t.setPartition index q)).store = b.store.set ⟨name, t.name, index⟩ q := by
  obtain ⟨hlt, -⟩ := List.getElem?_eq_some_iff.1 hp
  funext r
  by_cases hr : r = ⟨name, t.name, index⟩
  · subst hr
    rw [Store.set_self]
    refine store_of_topic (t := t.setPartition index q) ?_ ?_
    · simp [setTopic]
    · simp [Topic.setPartition, hlt]
  · rw [Store.set_of_ne _ _ hr]
    obtain ⟨home, topic, i⟩ := r
    by_cases hhome : home = name
    · subst hhome
      by_cases htopic : t.name = topic
      · have hi : index ≠ i := by
          rintro rfl
          exact hr (by rw [htopic])
        simp [store, setTopic, Topic.setPartition, h, htopic, Option.filter,
          List.getElem?_set_ne hi]
      · simp [store, setTopic, Topic.setPartition, h, htopic, Option.filter]
    · have hne : ¬ name = home := fun he => hhome he.symm
      simp [store, setTopic, Std.ExtTreeMap.getElem?_insert, hne]

theorem setTopic_self {b : Broker} {name : String} {t : Topic} (h : b.topics[name]? = some t) :
    (b.setTopic name t).topics = b.topics :=
  TreeMap.insert_of_getElem? h

/-- A request to a topic does to the store what it asks of a partition. -/
theorem store_topicTraffic {b b' : Broker} {name : String} {t : Topic}
    (h : b.topics[name]? = some t) (c : Topic.Command)
    (ht : b'.topics = (b.setTopic name (t.step b.counters c).2.1).topics) :
    Run.last Store.step b.store (b.topicTraffic name c) = b'.store ∧
      (Run.transcript Store.step b.store (b.topicTraffic name c)).flatMap Store.written =
        (Topic.written c (t.step b.counters c).1).map fun m => (⟨name, t.name, m.1⟩, m.2) := by
  rw [store_eq ht]
  unfold topicTraffic
  rw [h]
  rcases t.step_cases b.counters c with ⟨hreq, hstep, hw⟩ | ⟨index, q, p, hreq, hp, hstep, hw⟩
  · simp only [hreq, hstep, hw, Option.map_none, Option.toList_none]
    exact ⟨(store_eq (setTopic_self h)).symm, rfl⟩
  · simp only [hreq, hstep, hw, Option.map_some, Option.toList_some]
    have hs : b.store ⟨name, t.name, index⟩ = p := store_of_topic h hp
    constructor
    · rw [store_setTopic h hp, ← hs]; rfl
    · simp [Run.transcript, Store.written, Store.step, hs]

/-! ## The groups -/

theorem group_of_some {b : Broker} {id : String} {g : ConsumerGroup} (h : b.groups[id]? = some g) :
    b.group id = g := by
  rw [group, Std.ExtTreeMap.getD_eq_getD_getElem?, h, Option.getD_some]

theorem group_eq {b b' : Broker} (hg : b'.groups = b.groups) (hc : b'.config = b.config)
    (id : String) : b'.group id = b.group id := by
  unfold group newGroup
  rw [hg, hc]

theorem group_setGroup (b : Broker) (id id' : String) (g : ConsumerGroup) :
    (b.setGroup id g).group id' = if id = id' then g else b.group id' := by
  simp [group, setGroup, newGroup, Std.ExtTreeMap.getD_insert]

theorem setGroup_self {b : Broker} {id : String} {g : ConsumerGroup} (h : b.groups[id]? = some g) :
    b.setGroup id g = b := by
  rw [setGroup, TreeMap.insert_of_getElem? h]

theorem setGroup_setGroup (b : Broker) (id : String) (g g' : ConsumerGroup) :
    (b.setGroup id g).setGroup id g' = b.setGroup id g' := by
  simp only [setGroup, TreeMap.insert_insert]

theorem mem_groups {b : Broker} {id : String} {g : ConsumerGroup} (h : b.groups[id]? = some g) :
    id ∈ b.groups := by
  rw [Std.ExtTreeMap.mem_iff_isSome_getElem?, h]
  rfl

theorem not_mem_groups {b : Broker} {id : String} (h : b.groups[id]? = none) : id ∉ b.groups := by
  rw [Std.ExtTreeMap.mem_iff_isSome_getElem?, h]
  simp

/-- Topics are registered under their own names. -/
def Named (b : Broker) : Prop :=
  ∀ (name : String) (t : Topic), b.topics[name]? = some t → t.name = name

/-! ## Commands to topics -/

/-- The command goes to a topic. -/
def Command.toTopic : Command → Bool
  | .publish .. | .publishBatch .. | .publishTimes .. | .onTopic .. => true
  | _ => false

/-- From one broker to the other, partitions were asked and stored something, and all else stayed
but counters. -/
structure Served (b : Broker) (qs : List (PartitionRef × Partition.Command))
    (ws : List (PartitionRef × Message)) (b' : Broker) : Prop where
  groups : b'.groups = b.groups
  config : b'.config = b.config
  shapes : ∀ name : String, b'.topics[name]?.map Topic.shape = b.topics[name]?.map Topic.shape
  store : Run.last Store.step b.store qs = b'.store
  written : ((Run.transcript Store.step b.store qs).flatMap Store.written).Perm ws

theorem Served.refl (b : Broker) : Served b [] [] b :=
  ⟨rfl, rfl, fun _ => rfl, rfl, .nil⟩

theorem Served.trans {b₁ b₂ b₃ : Broker} {qs₁ qs₂ : List (PartitionRef × Partition.Command)}
    {ws₁ ws₂ : List (PartitionRef × Message)} (h₁ : Served b₁ qs₁ ws₁ b₂)
    (h₂ : Served b₂ qs₂ ws₂ b₃) : Served b₁ (qs₁ ++ qs₂) (ws₁ ++ ws₂) b₃ where
  groups := h₂.groups.trans h₁.groups
  config := h₂.config.trans h₁.config
  shapes name := (h₂.shapes name).trans (h₁.shapes name)
  store := by rw [Run.last_append, h₁.store, h₂.store]
  written := by
    rw [Run.transcript_append, List.flatMap_append, h₁.store]
    exact h₁.written.append h₂.written

theorem Served.named {b b' : Broker} {qs : List (PartitionRef × Partition.Command)}
    {ws : List (PartitionRef × Message)} (h : Served b qs ws b') (hn : b.Named) : b'.Named := by
  intro name t ht
  have hs := h.shapes name
  rw [ht] at hs
  obtain ⟨t', ht', he⟩ := Option.map_eq_some_iff.1 hs.symm
  rw [← hn name t' ht']
  exact (congrArg Prod.fst he).symm

/-- A request to a topic, as any command makes it. -/
theorem served_topic {b : Broker} (hn : b.Named) {name : String} {t : Topic}
    (h : b.topics[name]? = some t) (c : Topic.Command) (b' : Broker)
    (ht : b'.topics = (b.setTopic name (t.step b.counters c).2.1).topics)
    (hg : b'.groups = b.groups) (hc : b'.config = b.config) :
    Served b (b.topicTraffic name c)
      ((Topic.written c (t.step b.counters c).1).map fun m => (ref name m.1, m.2)) b' := by
  obtain ⟨hstore, hw⟩ := store_topicTraffic h c ht
  rw [hn name t h] at hw
  refine ⟨hg, hc, fun name' => ?_, hstore, hw ▸ .refl _⟩
  rw [ht]
  by_cases he : name = name'
  · subst he; simp [setTopic, h, Topic.shape_step]
  · simp [setTopic, Std.ExtTreeMap.getElem?_insert, he]

theorem topicTraffic_unknown {b : Broker} {name : String} (h : b.topics[name]? = none)
    (c : Topic.Command) : b.topicTraffic name c = [] := by
  simp only [topicTraffic, h]

theorem publish_ok {b : Broker} {topic : String} {t : Topic} (h : b.topics[topic]? = some t)
    (key : String) (payload : Payload) :
    b.publish topic key payload = .ok ((t.add b.counters key payload).1,
      ({ b with counters := (t.add b.counters key payload).2.2 }.setTopic topic
        (t.add b.counters key payload).2.1).countPublished 1) := by
  simp only [publish, findTopic, h]
  rfl

theorem publish_unknown {b : Broker} {topic : String} (h : b.topics[topic]? = none)
    (key : String) (payload : Payload) :
    b.publish topic key payload = .error (.topicNotFound topic) := by
  simp only [publish, findTopic, h]
  rfl

theorem publishBatch_ok {b : Broker} {topic : String} {t : Topic} (h : b.topics[topic]? = some t)
    (key : String) (payloads : List Payload) :
    b.publishBatch topic key payloads = .ok ((t.addBatch b.counters key payloads).1,
      ({ b with counters := (t.addBatch b.counters key payloads).2.2 }.setTopic topic
        (t.addBatch b.counters key payloads).2.1).countPublished payloads.length) := by
  simp only [publishBatch, findTopic, h]
  rfl

theorem publishBatch_unknown {b : Broker} {topic : String} (h : b.topics[topic]? = none)
    (key : String) (payloads : List Payload) :
    b.publishBatch topic key payloads = .error (.topicNotFound topic) := by
  simp only [publishBatch, findTopic, h]
  rfl

theorem served_publish {b : Broker} (hn : b.Named) (topic key : String) (payload : Payload) :
    Served b (b.topicTraffic topic (.add key payload))
      (written (.publish topic key payload, (b.step (.publish topic key payload)).1))
      (b.step (.publish topic key payload)).2 := by
  cases h : b.topics[topic]? with
  | none =>
    simp only [step, publish_unknown h, topicTraffic_unknown h]
    exact .refl b
  | some t =>
    simp only [step, publish_ok h]
    exact served_topic hn h (.add key payload) _ rfl rfl rfl

theorem served_publishBatch {b : Broker} (hn : b.Named) (topic key : String)
    (payloads : List Payload) :
    Served b (b.topicTraffic topic (.addBatch key payloads))
      (written (.publishBatch topic key payloads, (b.step (.publishBatch topic key payloads)).1))
      (b.step (.publishBatch topic key payloads)).2 := by
  cases h : b.topics[topic]? with
  | none =>
    simp only [step, publishBatch_unknown h, topicTraffic_unknown h]
    exact .refl b
  | some t =>
    simp only [step, publishBatch_ok h]
    have hs := served_topic hn h (.addBatch key payloads)
      (({ b with counters := (t.addBatch b.counters key payloads).2.2 } : Broker).setTopic topic
        (t.addBatch b.counters key payloads).2.1 |>.countPublished payloads.length) rfl rfl rfl
    rw [Topic.step, Topic.written, List.map_map] at hs
    exact hs

theorem publishTimes_ok {b : Broker} (hn : b.Named) {topic : String} (hk : topic ∈ b.topics)
    (key : String) (payload : Payload) (times : Nat) :
    ∃ ps b', b.publishTimes topic key payload times = .ok (ps, b') ∧
      Served b (b.traffic (.publishTimes topic key payload times))
        (ps.map fun p => (ref topic p.partition, ⟨p.offset, some key, payload⟩)) b' := by
  induction times generalizing b with
  | zero => exact ⟨[], b, rfl, .refl b⟩
  | succ times ih =>
    obtain ⟨t, h⟩ := Option.isSome_iff_exists.1 (Std.ExtTreeMap.mem_iff_isSome_getElem?.1 hk)
    have hs := served_publish hn topic key payload
    have hk' : topic ∈ (b.step (.publish topic key payload)).2.topics := by
      have hshape := hs.shapes topic
      rw [h] at hshape
      rw [Std.ExtTreeMap.mem_iff_isSome_getElem?, ← Option.isSome_map, hshape]
      rfl
    obtain ⟨ps, b', hps, hrest⟩ := ih (hs.named hn) hk'
    refine ⟨(t.add b.counters key payload).1 :: ps, b', ?_, ?_⟩
    · simp only [step, publish_ok h, settle] at hps
      simp only [publishTimes, publish_ok h]
      simp only [hps, bind, Except.bind]
      rfl
    · have hw : written (.publish topic key payload, (b.step (.publish topic key payload)).1) =
          [(ref topic (t.add b.counters key payload).1.partition,
            ⟨(t.add b.counters key payload).1.offset, some key, payload⟩)] := by
        simp only [step, publish_ok h]
        rfl
      have htotal := hs.trans hrest
      rw [hw] at htotal
      exact htotal

/-- To publish a message several times is to publish it that often, but for the order in which the
answer lists the places. -/
theorem served_publishTimes {b : Broker} (hn : b.Named) (topic key : String) (payload : Payload)
    (times : Nat) :
    Served b (b.traffic (.publishTimes topic key payload times))
      (written (.publishTimes topic key payload times,
        (b.step (.publishTimes topic key payload times)).1))
      (b.step (.publishTimes topic key payload times)).2 := by
  by_cases hk : topic ∈ b.topics
  · obtain ⟨ps, b', hps, hs⟩ := publishTimes_ok hn hk key payload times
    simp only [step, hps, settle, written, publications]
    exact ⟨hs.groups, hs.config, hs.shapes, hs.store,
      hs.written.trans ((List.mergeSort_perm ps placementLe).symm.map _)⟩
  · -- nothing is stored, be it that nothing was to be stored or that there is no such topic
    have h : b.topics[topic]? = none := Std.ExtTreeMap.getElem?_eq_none hk
    have hq : b.traffic (.publishTimes topic key payload times) = [] := by
      simp only [traffic]
      induction times with
      | zero => rfl
      | succ times ih =>
        rw [List.replicate_succ, Run.expand, topicTraffic_unknown h]
        simp only [step, publish_unknown h, settle]
        exact ih
    rw [hq]
    cases times with
    | zero =>
      simp only [step, publishTimes, settle, List.mergeSort_nil]
      exact .refl b
    | succ times =>
      simp only [step, publishTimes, publish_unknown h]
      exact .refl b

theorem served_onTopic {b : Broker} (hn : b.Named) (name : String) (c : Topic.Command) :
    Served b (b.topicTraffic name c) (written (.onTopic name c, (b.step (.onTopic name c)).1))
      (b.step (.onTopic name c)).2 := by
  cases h : b.topics[name]? with
  | none =>
    simp only [step, h, topicTraffic_unknown h]
    exact .refl b
  | some t =>
    simp only [step, h]
    exact served_topic hn h c _ rfl rfl rfl

theorem served_step {b : Broker} (hn : b.Named) {c : Command} (hc : c.toTopic = true) :
    Served b (b.traffic c) (written (c, (b.step c).1)) (b.step c).2 := by
  cases c with
  | publish topic key payload => exact served_publish hn topic key payload
  | publishBatch topic key payloads => exact served_publishBatch hn topic key payloads
  | publishTimes topic key payload times => exact served_publishTimes hn topic key payload times
  | onTopic name c => exact served_onTopic hn name c
  | _ => cases hc

/-! ## Other commands -/

/-- A topic is created, under a name that was free, or nothing happens. -/
theorem createTopic_cases (b : Broker) (name : String) (count : Nat) (strategy : Strategy) :
    (b.settle Answer.created (b.createTopic name count strategy)).2 = b ∨
    ∃ t, b.topics[name]? = none ∧ Topic.create name count (strategy.routing name) = .ok t ∧
      (b.settle Answer.created (b.createTopic name count strategy)).2 = b.setTopic name t := by
  unfold createTopic
  split
  · exact Or.inl rfl
  · rename_i hfree
    cases ht : Topic.create name count (strategy.routing name) with
    | error e => exact Or.inl rfl
    | ok t => exact Or.inr ⟨t, Std.ExtTreeMap.getElem?_eq_none hfree, rfl, rfl⟩

/-- No group is asked for anything, and none gets anything. -/
def Unasked (b : Broker) (c : Command) : Prop :=
  ∀ id, b.asked id c = none ∧ deliveriesTo id (c, (b.step c).1) = []

theorem unasked_of_unknown {b : Broker} {group : String} (hg : b.groups[group]? = none) (id : String)
    (q : ConsumerGroup.Command) : (if group = id ∧ id ∈ b.groups then some q else none) = none := by
  apply if_neg
  rintro ⟨rfl, hmem⟩
  exact not_mem_groups hg hmem

theorem asked_of_known {b : Broker} {group : String} {g : ConsumerGroup}
    (hg : b.groups[group]? = some g) (id : String) (q : ConsumerGroup.Command) :
    (if group = id ∧ id ∈ b.groups then some q else none) = if group = id then some q else none := by
  by_cases h : group = id
  · subst h
    have hand : group = group ∧ group ∈ b.groups := ⟨rfl, mem_groups hg⟩
    rw [if_pos hand, if_pos rfl]
  · rw [if_neg h, if_neg fun hand => h hand.1]

/-- What a command does that goes to no topic: nothing, or it registers a new topic, or it is a
request to one group, which is there or comes with its first consumer. -/
theorem step_cases (b : Broker) {c : Command} (hc : c.toTopic = false) :
    ((b.step c).2 = b ∧ b.Unasked c) ∨
    (∃ name count strategy t, b.topics[name]? = none ∧
      Topic.create name count (Strategy.routing strategy name) = .ok t ∧
      (b.step c).2 = b.setTopic name t ∧ b.Unasked c) ∨
    ∃ group q, (group ∈ b.groups ∨ ∃ consumer, q = .addConsumer consumer) ∧
      (b.step c).2 = b.setGroup group ((b.group group).step b.store q).2 ∧
      ∀ id, b.asked id c = (if group = id then some q else none) ∧
        deliveriesTo id (c, (b.step c).1) =
          if group = id then ((b.group group).step b.store q).1.deliveries else [] := by
  cases c with
  | createTopic name count strategy =>
    rcases createTopic_cases b name count strategy with h | ⟨t, hfree, ht, h⟩
    · exact Or.inl ⟨h, fun _ => ⟨rfl, rfl⟩⟩
    · exact Or.inr (Or.inl ⟨name, _, _, t, hfree, ht, h, fun _ => ⟨rfl, rfl⟩⟩)
  | createDefault name =>
    rcases createTopic_cases b name _ _ with h | ⟨t, hfree, ht, h⟩
    · exact Or.inl ⟨h, fun _ => ⟨rfl, rfl⟩⟩
    · exact Or.inr (Or.inl ⟨name, _, _, t, hfree, ht, h, fun _ => ⟨rfl, rfl⟩⟩)
  | addConsumer group consumer =>
    refine Or.inr (Or.inr ⟨group, .addConsumer consumer, Or.inr ⟨consumer, rfl⟩, rfl, fun id => ?_⟩)
    exact ⟨rfl, by simp [deliveriesTo, ConsumerGroup.step, ConsumerGroup.Answer.deliveries]⟩
  | subscribe group topic =>
    simp only [Unasked, step, subscribe, findTopic, findGroup, asked]
    cases b.topics[topic]? with
    | none => exact Or.inl ⟨rfl, fun _ => ⟨by simp, rfl⟩⟩
    | some t =>
      cases hg : b.groups[group]? with
      | none => exact Or.inl ⟨rfl, fun id => ⟨unasked_of_unknown hg id _, rfl⟩⟩
      | some g =>
        refine Or.inr (Or.inr ⟨group, .subscribe t.name t.refs, Or.inl (mem_groups hg), ?_, fun id =>
          ⟨asked_of_known hg id _, ?_⟩⟩)
        · rw [group_of_some hg]
          rfl
        · simp [deliveriesTo, ConsumerGroup.step, ConsumerGroup.Answer.deliveries]
  | poll group consumer =>
    simp only [Unasked, step, poll, findGroup, asked]
    cases hg : b.groups[group]? with
    | none => exact Or.inl ⟨rfl, fun id => ⟨unasked_of_unknown hg id _, rfl⟩⟩
    | some g =>
      refine Or.inr (Or.inr ⟨group, .poll consumer, Or.inl (mem_groups hg), ?_, fun id =>
        ⟨asked_of_known hg id _, ?_⟩⟩)
      · rw [group_of_some hg]
        rfl
      · rw [group_of_some hg]
        rfl
  | onGroup group q =>
    simp only [Unasked, step, asked]
    cases hg : b.groups[group]? with
    | none => exact Or.inl ⟨rfl, fun id => ⟨unasked_of_unknown hg id _, rfl⟩⟩
    | some g =>
      refine Or.inr (Or.inr ⟨group, q, Or.inl (mem_groups hg), ?_, fun id =>
        ⟨asked_of_known hg id _, ?_⟩⟩)
      · rw [group_of_some hg]
      · rw [group_of_some hg]
        rfl
  | describe topic =>
    simp only [Unasked, step, describe, findTopic]
    cases b.topics[topic]? <;> exact Or.inl ⟨rfl, fun _ => ⟨rfl, rfl⟩⟩
  | list => exact Or.inl ⟨rfl, fun _ => ⟨rfl, rfl⟩⟩
  | stats => exact Or.inl ⟨rfl, fun _ => ⟨rfl, rfl⟩⟩
  | _ => cases hc

/-- Topics stay as they are but for a new one. -/
theorem topics_step (b : Broker) {c : Command} (hc : c.toTopic = false) :
    (b.step c).2.topics = b.topics ∨ ∃ name count strategy t, b.topics[name]? = none ∧
      Topic.create name count (Strategy.routing strategy name) = .ok t ∧
      (b.step c).2.topics = b.topics.insert name t := by
  rcases step_cases b hc with ⟨h, -⟩ | ⟨name, count, strategy, t, hfree, ht, h, -⟩ |
    ⟨group, q, -, h, -⟩
  · exact Or.inl (by rw [h])
  · exact Or.inr ⟨name, count, strategy, t, hfree, ht, by rw [h]; rfl⟩
  · exact Or.inl (by rw [h]; rfl)

/-- A new topic has nothing to show. -/
theorem store_create {b b' : Broker} {name : String} {count : Nat} {routing : Routing} {t : Topic}
    (h : b.topics[name]? = none) (ht : Topic.create name count routing = .ok t)
    (htopics : b'.topics = b.topics.insert name t) : b'.store = b.store := by
  funext r
  obtain ⟨home, topic, index⟩ := r
  have hname : t.name = name := congrArg Prod.fst (Topic.shape_create ht)
  by_cases hhome : name = home
  · subst hhome
    simp only [store, htopics, Std.ExtTreeMap.getElem?_insert_self, h, Option.filter, hname]
    by_cases hn : name = topic
    · subst hn
      by_cases hi : index < count
      · simp [Topic.partitions_create ht, hi]
      · simp [Topic.partitions_create ht, hi]
    · simp [hn]
  · simp [store, htopics, Std.ExtTreeMap.getElem?_insert, hhome]

theorem traffic_of_not_toTopic (b : Broker) {c : Command} (hc : c.toTopic = false) :
    b.traffic c = [] := by
  cases c <;> first | rfl | cases hc

theorem written_of_not_toTopic {c : Command} (hc : c.toTopic = false) (a : Answer) :
    written (c, a) = [] := by
  cases c <;> first | rfl | cases hc

/-! ## Any command -/

/-- The store after a command is the store after the requests that it makes. -/
theorem store_step {b : Broker} (hn : b.Named) (c : Command) :
    Run.last Store.step b.store (b.traffic c) = (b.step c).2.store ∧
      ((Run.transcript Store.step b.store (b.traffic c)).flatMap Store.written).Perm
        (written (c, (b.step c).1)) := by
  cases hc : c.toTopic with
  | true => exact ⟨(served_step hn hc).store, (served_step hn hc).written⟩
  | false =>
    rw [traffic_of_not_toTopic b hc, written_of_not_toTopic hc]
    refine ⟨?_, .nil⟩
    rcases topics_step b hc with h | ⟨name, count, strategy, t, hfree, ht, h⟩
    · exact (store_eq h).symm
    · exact (store_create hfree ht h).symm

/-- A command leaves a topic its shape, or creates it with the routing of some strategy. -/
theorem shape_step {b : Broker} (hn : b.Named) (c : Command) (name : String) :
    (b.step c).2.topics[name]?.map Topic.shape = b.topics[name]?.map Topic.shape ∨
      (b.topics[name]? = none ∧ ∃ count strategy, (b.step c).2.topics[name]?.map Topic.shape =
        some (name, count, Strategy.routing strategy name)) := by
  cases hc : c.toTopic with
  | true => exact Or.inl ((served_step hn hc).shapes name)
  | false =>
    rcases topics_step b hc with h | ⟨name', count, strategy, t, hfree, ht, h⟩
    · exact Or.inl (by rw [h])
    · rw [h]
      by_cases he : name' = name
      · subst he
        refine Or.inr ⟨hfree, count, strategy, ?_⟩
        rw [Std.ExtTreeMap.getElem?_insert_self, Option.map_some, Topic.shape_create ht]
      · exact Or.inl (by simp [Std.ExtTreeMap.getElem?_insert, he])

/-- A topic stays registered, and keeps its shape. -/
theorem topic_step {b : Broker} (hn : b.Named) (c : Command) {name : String} {t : Topic}
    (h : b.topics[name]? = some t) :
    ∃ t', (b.step c).2.topics[name]? = some t' ∧ t'.shape = t.shape := by
  rcases shape_step hn c name with hs | ⟨hnone, -⟩
  · rw [h] at hs
    exact Option.map_eq_some_iff.1 hs
  · rw [hnone] at h
    cases h

theorem named_step {b : Broker} (hn : b.Named) (c : Command) : (b.step c).2.Named := by
  intro name t ht
  have hshape : (b.step c).2.topics[name]?.map Topic.shape = some t.shape := by rw [ht]; rfl
  rcases shape_step hn c name with h | ⟨-, count, strategy, h⟩
  · rw [h] at hshape
    obtain ⟨t', ht', he⟩ := Option.map_eq_some_iff.1 hshape
    rw [← hn name t' ht']
    exact (congrArg Prod.fst he).symm
  · rw [h] at hshape
    exact (congrArg Prod.fst (Option.some.inj hshape)).symm

/-- So it does over a run. -/
theorem topic_last {b : Broker} (hn : b.Named) {name : String} {t : Topic}
    (h : b.topics[name]? = some t) (cs : List Command) :
    ∃ t', (Run.last step b cs).topics[name]? = some t' ∧ t'.shape = t.shape := by
  induction cs generalizing b t with
  | nil => exact ⟨t, h, rfl⟩
  | cons c cs ih =>
    obtain ⟨t₁, h₁, he₁⟩ := topic_step hn c h
    obtain ⟨t₂, h₂, he₂⟩ := ih (named_step hn c) h₁
    exact ⟨t₂, h₂, he₂.trans he₁⟩

theorem config_step {b : Broker} (hn : b.Named) (c : Command) : (b.step c).2.config = b.config := by
  cases hc : c.toTopic with
  | true => exact (served_step hn hc).config
  | false =>
    rcases step_cases b hc with ⟨h, -⟩ | ⟨name, _, _, t, -, -, h, -⟩ | ⟨group, q, -, h, -⟩
    · rw [h]
    · rw [h]; rfl
    · rw [h]; rfl

theorem config_last {b : Broker} (hn : b.Named) (cs : List Command) :
    (Run.last step b cs).config = b.config := by
  induction cs generalizing b with
  | nil => rfl
  | cons c cs ih => exact (ih (named_step hn c)).trans (config_step hn c)

theorem named_new (config : Config) : ({ config } : Broker).Named := by
  intro name t h
  simp at h

end LogBroker.Broker
