import Mathlib
import LogBroker.Proofs.Broker.View

/-!
# What a broker registers

Registered topics keep their names and their numbers of partitions, so what a group subscribed to
stays what it is.

* `Subscribed`: the partitions of a group are those of its topics, in the order of subscription. It
  holds as long as groups are subscribed by the broker, and not handed partitions directly
  (`subscribed_run`).
* `sole_ref`: a partition of a topic has its id to itself, as far as partitions of the broker go.
* `Staffed`: a group that is registered has a member.

What requests to partitions keep, the partitions of a broker keep (`store_run`), and what requests
to a group keep, each of its groups keeps (`group_run`).
-/
namespace LogBroker.Broker

/-- The partitions of a topic; an unknown topic has none. -/
def refs (b : Broker) (topic : String) : List PartitionRef :=
  (b.topics[topic]?.map Topic.refs).getD []

/-- The command hands a group partitions directly. -/
def Command.handsPartitions : Command → Bool
  | .onGroup _ (.subscribe _ _) => true
  | _ => false

/-- The group is subscribed to topics that are registered, and has their partitions. -/
structure Subscribed (b : Broker) (g : ConsumerGroup) : Prop where
  nodup : g.topics.Nodup
  known : ∀ topic ∈ g.topics, topic ∈ b.topics
  partitions : g.partitions = g.topics.flatMap b.refs

variable {b : Broker}

theorem mem_topics {topic : String} {t : Topic} (h : b.topics[topic]? = some t) :
    topic ∈ b.topics := by
  rw [Std.ExtTreeMap.mem_iff_isSome_getElem?, h]
  rfl

theorem exists_topic {topic : String} (h : topic ∈ b.topics) : ∃ t, b.topics[topic]? = some t :=
  Option.isSome_iff_exists.1 (Std.ExtTreeMap.mem_iff_isSome_getElem?.1 h)

theorem refs_of_some (hn : b.Named) {topic : String} {t : Topic} (h : b.topics[topic]? = some t) :
    b.refs topic = (List.range t.count).map (ref topic) := by
  rw [refs, h, Option.map_some, Option.getD_some, Topic.refs, hn topic t h]
  rfl

theorem topic_of_mem_refs (hn : b.Named) {topic : String} {r : PartitionRef}
    (h : r ∈ b.refs topic) : r.topic = topic := by
  cases ht : b.topics[topic]? with
  | none => simp [refs, ht] at h
  | some t =>
    rw [refs_of_some hn ht] at h
    obtain ⟨index, -, rfl⟩ := List.mem_map.1 h
    rfl

theorem nodup_refs (hn : b.Named) (topic : String) : (b.refs topic).Nodup := by
  cases ht : b.topics[topic]? with
  | none => simp [refs, ht]
  | some t =>
    rw [refs_of_some hn ht]
    apply List.nodup_range.map
    intro i j he
    exact congrArg PartitionRef.index he

/-- Partitions of different topics are different. -/
theorem nodup_flatMap_refs (hn : b.Named) {topics : List String} (h : topics.Nodup) :
    (topics.flatMap b.refs).Nodup := by
  rw [List.nodup_flatMap]
  refine ⟨fun topic _ => nodup_refs hn topic, h.imp ?_⟩
  intro topic topic' hne r hr hr'
  exact hne ((topic_of_mem_refs hn hr).symm.trans (topic_of_mem_refs hn hr'))

/-- No command unregisters a topic, or changes which partitions it has. -/
theorem refs_step (hn : b.Named) (c : Command) {topic : String} (h : topic ∈ b.topics) :
    topic ∈ (b.step c).2.topics ∧ (b.step c).2.refs topic = b.refs topic := by
  obtain ⟨t, ht⟩ := exists_topic h
  obtain ⟨t', ht', he⟩ := topic_step hn c ht
  have hcount : t'.count = t.count := congrArg (fun s => s.2.1) he
  refine ⟨mem_topics ht', ?_⟩
  rw [refs_of_some (named_step hn c) ht', refs_of_some hn ht, hcount]

/-! ## Subscriptions -/

theorem subscribed_new (b : Broker) (id : String) : Subscribed b (b.newGroup id) :=
  ⟨List.nodup_nil, fun _ h => by simp [newGroup] at h, rfl⟩

/-- A group may only be asked to subscribe to all partitions of a topic that is registered. -/
theorem asked_subscribe (hn : b.Named) {id : String} {c : Command} (hc : c.handsPartitions = false)
    {topic : String} {rs : List PartitionRef} (h : b.asked id c = some (.subscribe topic rs)) :
    topic ∈ b.topics ∧ rs = b.refs topic := by
  rcases asked_cases h with ⟨_, -, he⟩ | ⟨-, ⟨topic', t, -, ht, he⟩ | ⟨_, -, he⟩ | rfl⟩
  · cases he
  · cases he
    rw [hn topic' t ht]
    refine ⟨mem_topics ht, ?_⟩
    rw [refs, ht]
    rfl
  · cases he
  · cases hc

theorem Subscribed.step (hn : b.Named) {g : ConsumerGroup} (h : Subscribed b g) (c : Command) :
    Subscribed (b.step c).2 g where
  nodup := h.nodup
  known topic ht := (refs_step hn c (h.known topic ht)).1
  partitions := by
    rw [h.partitions]
    exact List.flatMap_congr fun topic ht => (refs_step hn c (h.known topic ht)).2.symm

theorem subscribed_step (hn : b.Named) {id : String} (h : Subscribed b (b.group id)) {c : Command}
    (hc : c.handsPartitions = false) : Subscribed (b.step c).2 ((b.step c).2.group id) := by
  refine Subscribed.step hn ?_ c
  rcases answered_step hn id c with ⟨-, hg, -⟩ | ⟨q, ha, hg, -⟩
  · rw [hg]
    exact h
  · rw [hg]
    have htopics := ConsumerGroup.topics_step (b.group id) b.store q
    have hparts := ConsumerGroup.partitions_step (b.group id) b.store q
    rcases ConsumerGroup.subscription_cases (b.group id) b.store q with hs | ⟨topic, rs, rfl, hnew, -, hs⟩
    · rw [hs, List.map_nil, List.append_nil] at htopics
      rw [hs, List.flatMap_nil, List.append_nil] at hparts
      exact ⟨htopics ▸ h.nodup, htopics ▸ h.known, by rw [htopics, hparts, h.partitions]⟩
    · obtain ⟨hknown, rfl⟩ := asked_subscribe hn hc ha
      rw [hs] at htopics hparts
      refine ⟨?_, ?_, ?_⟩
      · rw [htopics]
        refine List.nodup_append.2 ⟨h.nodup, List.nodup_singleton _, fun x hx x' hx' he => ?_⟩
        rw [he, List.mem_singleton.1 hx'] at hx
        exact hnew hx
      · intro topic' ht
        rw [htopics] at ht
        rcases List.mem_append.1 ht with ht | ht
        · exact h.known topic' ht
        · rw [List.mem_singleton.1 ht]
          exact hknown
      · rw [hparts, htopics, h.partitions]
        simp

theorem Subscribed.mem_partitions (hn : b.Named) {g : ConsumerGroup} (h : Subscribed b g)
    {topic : String} (hmem : topic ∈ g.topics) {t : Topic} (ht : b.topics[topic]? = some t)
    {index : Nat} (hi : index < t.count) : ref topic index ∈ g.partitions := by
  rw [h.partitions, List.mem_flatMap]
  refine ⟨topic, hmem, ?_⟩
  rw [refs_of_some hn ht]
  exact List.mem_map_of_mem (List.mem_range.2 hi)

/-- The partitions of a group that the broker subscribed are partitions of its topics. -/
theorem Subscribed.exists_ref (hn : b.Named) {g : ConsumerGroup} (h : Subscribed b g)
    {r : PartitionRef} (hr : r ∈ g.partitions) : ∃ topic ∈ g.topics, ∃ index, r = ref topic index := by
  rw [h.partitions, List.mem_flatMap] at hr
  obtain ⟨topic, hmem, hr⟩ := hr
  obtain ⟨t, ht⟩ := exists_topic (h.known topic hmem)
  rw [refs_of_some hn ht] at hr
  obtain ⟨index, -, rfl⟩ := List.mem_map.1 hr
  exact ⟨topic, hmem, index, rfl⟩

/-- No partition occurs twice. -/
theorem Subscribed.nodup_partitions (hn : b.Named) {g : ConsumerGroup} (h : Subscribed b g) :
    g.partitions.Nodup := by
  rw [h.partitions]
  exact nodup_flatMap_refs hn h.nodup

/-! ## Ids -/

/-- Whatever other partition has the same id holds no message. -/
theorem sole_ref (hn : b.Named) (topic : String) (index : Nat) :
    b.store.Sole (ref topic index) := by
  intro r hid hne
  obtain ⟨home, topic', index'⟩ := r
  obtain ⟨rfl, rfl⟩ := Partition.idOf_inj hid
  have hhome : home ≠ topic' := by
    rintro rfl
    exact hne rfl
  -- the topic at home there has another name
  cases ht : b.topics[home]? with
  | none => simp [store, ht, Partition.new]
  | some t =>
    have hname : t.name ≠ topic' := by
      rw [hn home t ht]
      exact hhome
    simp [store, ht, Option.filter, hname, Partition.new]

/-! ## Members -/

/-- Every registered group has a member. -/
def Staffed (b : Broker) : Prop := ∀ id ∈ b.groups, (b.group id).members ≠ []

/-- A group is registered because it was, or because a consumer is added to it. -/
theorem mem_groups_step (hn : b.Named) {id : String} {c : Command}
    (h : id ∈ (b.step c).2.groups) :
    id ∈ b.groups ∨ ∃ consumer, b.asked id c = some (.addConsumer consumer) := by
  by_cases hc : c.toTopic = true
  · rw [(served_step hn hc).groups] at h
    exact Or.inl h
  rcases step_cases b (Bool.eq_false_iff.2 hc) with ⟨he, -⟩ | ⟨name, _, _, t, -, -, he, -⟩ |
    ⟨group, q, hq, he, hask⟩
  · rw [he] at h
    exact Or.inl h
  · rw [he] at h
    exact Or.inl h
  · rw [he] at h
    rcases Std.ExtTreeMap.mem_insert.1 h with hid | h
    · obtain rfl := Std.LawfulEqCmp.eq_of_compare hid
      rcases hq with hmem | ⟨consumer, rfl⟩
      · exact Or.inl hmem
      · exact Or.inr ⟨consumer, by rw [(hask group).1, if_pos rfl]⟩
    · exact Or.inl h

/-- No command unregisters a group. -/
theorem mem_groups_keep (hn : b.Named) (c : Command) {id : String} (h : id ∈ b.groups) :
    id ∈ (b.step c).2.groups := by
  by_cases hc : c.toTopic = true
  · rwa [(served_step hn hc).groups]
  rcases step_cases b (Bool.eq_false_iff.2 hc) with ⟨he, -⟩ | ⟨name, _, _, t, -, -, he, -⟩ |
    ⟨group, q, -, he, -⟩
  · rwa [he]
  · rwa [he]
  · rw [he]
    exact Std.ExtTreeMap.mem_insert.2 (Or.inr h)

theorem staffed_step (hn : b.Named) (h : b.Staffed) (c : Command) : (b.step c).2.Staffed := by
  intro id hid
  rcases answered_step hn id c with ⟨ha, hg, -⟩ | ⟨q, ha, hg, -⟩
  · rw [hg]
    rcases mem_groups_step hn hid with hmem | ⟨consumer, ha'⟩
    · exact h id hmem
    · rw [ha] at ha'
      cases ha'
  · rw [hg, ConsumerGroup.members_step]
    -- a group that is new comes with the consumer that it was asked to add
    rcases mem_groups_step hn hid with hmem | ⟨consumer, ha'⟩
    · exact List.append_ne_nil_of_left_ne_nil (h id hmem) _
    · rw [ha] at ha'
      cases ha'
      by_cases hold : consumer ∈ (b.group id).members
      · exact List.append_ne_nil_of_left_ne_nil (List.ne_nil_of_mem hold) _
      · simp [ConsumerGroup.step, ConsumerGroup.addConsumer, hold, ConsumerGroup.joined]

/-! ## After a run -/

variable (config : Config) (cs : List Command)

theorem named_run : (Run.last step ({ config } : Broker) cs).Named :=
  Run.invariant_always (fun (b : Broker) _ => b.Named) (fun _ _ c h => named_step h c)
    (named_new config) cs

/-- What no request to a partition breaks holds of the partitions of a broker. -/
theorem store_run {P : Store → Prop} (hstep : ∀ s q, P s → P (s.step q).2) (h : P .fresh) :
    P (Run.last step ({ config } : Broker) cs).store := by
  refine (Run.invariant_always (fun (b : Broker) _ => b.Named ∧ P b.store)
    (fun b _ c h => ⟨named_step h.1 c, ?_⟩) ⟨named_new config, by rwa [store_new]⟩ cs).2
  rw [← (store_step h.1 c).1]
  exact Run.invariant_always (fun (s : Store) _ => P s) (fun s _ q h => hstep s q h) h.2 _

/-- What no request to a group breaks holds of every group of a broker. -/
theorem group_run {P : ConsumerGroup → Prop} (hstep : ∀ g s c, P g → P (g.step s c).2)
    {id : String} (h : P (({ config } : Broker).newGroup id)) :
    P ((Run.last step ({ config } : Broker) cs).group id) := by
  refine (Run.invariant_always (fun (b : Broker) _ => b.Named ∧ P (b.group id))
    (fun b _ c h => ⟨named_step h.1 c, ?_⟩) ⟨named_new config, by rwa [group_new]⟩ cs).2
  rcases answered_step h.1 id c with ⟨-, hg, -⟩ | ⟨q, -, hg, -⟩
  · rw [hg]
    exact h.2
  · rw [hg]
    exact hstep _ _ _ h.2

/-- Whether offsets fit or not, messages carry the offsets they are stored under. -/
theorem stamped_always : (Run.last step ({ config } : Broker) cs).store.Stamped :=
  store_run config cs (fun _ q h => Store.stamped_step h q) Store.stamped_fresh

theorem maxPoll_run (id : String) :
    ((Run.last step ({ config } : Broker) cs).group id).maxPoll = config.maxPoll :=
  group_run (P := fun g => g.maxPoll = config.maxPoll) config cs
    (fun g s c h => (ConsumerGroup.settings_step g s c).2.2.trans h) rfl

theorem tracked_run (id : String) : ((Run.last step ({ config } : Broker) cs).group id).Tracked :=
  group_run (P := ConsumerGroup.Tracked) config cs (fun _ s c h => ConsumerGroup.tracked_step h s c)
    fun _ h => absurd h List.not_mem_nil

theorem staffed_run : (Run.last step ({ config } : Broker) cs).Staffed := by
  refine (Run.invariant_always (fun (b : Broker) _ => b.Named ∧ b.Staffed)
    (fun _ _ c h => ⟨named_step h.1 c, staffed_step h.1 h.2 c⟩) ⟨named_new config, ?_⟩ cs).2
  intro id h
  simp at h

variable {cs}

theorem subscribed_run (hcs : ∀ c ∈ cs, c.handsPartitions = false) (id : String) :
    Subscribed (Run.last step { config } cs) ((Run.last step ({ config } : Broker) cs).group id) := by
  refine (Run.invariant (fun (b : Broker) _ => b.Named ∧ Subscribed b (b.group id))
    (fun _ _ c hc h => ⟨named_step h.1 c, subscribed_step h.1 h.2 hc⟩)
    ⟨named_new config, ?_⟩ (Run.along_of_forall (fun c hc _ => hcs c hc) _)).2
  rw [group_new]
  exact subscribed_new _ id

end LogBroker.Broker
