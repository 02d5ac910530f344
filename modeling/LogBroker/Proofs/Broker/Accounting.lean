import Mathlib
import LogBroker.Proofs.Broker.Failures
import LogBroker.Proofs.Broker.Identity
import LogBroker.Proofs.Broker.Partitions
import LogBroker.Proofs.ExactlyOnce
import LogBroker.Proofs.Utf8

/-!
# What a broker tells about itself

The broker counts what is published apart from the logs that hold it. The two agree as long as
nothing goes past the broker to a topic or a partition (`Command.bypasses`).

* `published_run`: the counter moves by the messages that the answers tell of, whichever way they
  were published.
* `sum_size`: the partitions of all topics together hold what was written. Without bypasses that is
  what was published (`writes_eq_publications`), and every request is prompt: it fills all offsets
  that it hands out. So watermarks count messages as well (`watermark_eq`).
* `along_of_published`: fewer than 2^63 messages never run out of offsets, so nothing else is asked.
* `mem_topics_run`, `mem_groups_run`: what is registered is what the run created. The registries
  list it in the order of the bytes (`pairwise_keys`).
-/
namespace LogBroker

/-! ## Requests that leave nothing open -/

namespace Partition

/-- Whether a request stores a message at every offset that it hands out, and at no other. -/
def Command.isPrompt : Command → Bool
  | .append _ | .appendBatch _ | .get _ | .read _ _ => true
  | _ => false

theorem length_written (p : Partition) {c : Command} (h : c.isPrompt = true) :
    (written c (p.step c).1).length = c.handedOut := by
  cases c with
  | append r => rfl
  | appendBatch rs =>
    have hlen := congrArg List.length (stamps_records p.watermark rs)
    rw [List.length_map] at hlen
    exact hlen
  | get o => rfl
  | read start limit => rfl
  | _ => cases h

/-- Where every request is prompt, no offset is vacant. -/
theorem vacant_of_prompt {t : List (Command × Answer)} (h : ∀ q ∈ t, q.1.isPrompt = true) :
    vacant t = [] := by
  have hnone : t.flatMap reserved = [] := by
    rw [List.flatMap_eq_nil_iff]
    rintro ⟨c, a⟩ hq
    have hc := h _ hq
    cases c <;> first | rfl | cases hc
  rw [vacant, hnone]
  rfl

end Partition

/-- A topic writes nothing where the partition that it asks writes nothing. -/
theorem Topic.written_of_none {index : Nat} {c : Partition.Command}
    (h : ∀ a, Partition.written c a = []) (a : Answer) : written (.onPartition index c) a = [] := by
  unfold written
  split
  · rename_i heq
    cases heq
  · rename_i heq
    cases heq
  · rename_i heq
    cases heq
    rw [h, List.map_nil]
  · rfl

namespace Store

/-- How many offsets requests hand out. -/
def handedOut (qs : List (PartitionRef × Partition.Command)) : Nat := (qs.map (·.2.handedOut)).sum

theorem length_written (s : Store) {qs : List (PartitionRef × Partition.Command)}
    (h : ∀ q ∈ qs, q.2.isPrompt = true) :
    ((Run.transcript step s qs).flatMap written).length = handedOut qs := by
  induction qs generalizing s with
  | nil => rfl
  | cons q qs ih =>
    have hrest := ih (s.step q).2 fun q' hq' => h q' (List.mem_cons_of_mem _ hq')
    have hq : (written (q, (s.step q).1)).length = q.2.handedOut := by
      rw [written, List.length_map]
      exact Partition.length_written _ (h q List.mem_cons_self)
    rw [Run.transcript, List.flatMap_cons, List.length_append, hrest, hq]
    rfl

/-- Requests fit that hand out few offsets above any watermark. -/
theorem along_fits {s : Store} {qs : List (PartitionRef × Partition.Command)} (top : Int)
    (h0 : ∀ r, 0 ≤ (s r).watermark) (htop : ∀ r, (s r).watermark ≤ top)
    (h : top + handedOut qs < 0x8000000000000000) : Run.Along step Fits s qs := by
  induction qs generalizing s top with
  | nil => trivial
  | cons q qs ih =>
    rw [handedOut, List.map_cons, List.sum_cons, ← handedOut] at h
    have hfit : s.Fits q := by
      have := htop q.1
      unfold Fits Partition.Fits
      push_cast at h
      lia
    have hw : ((s.step q).2 q.1).watermark = (s q.1).watermark + q.2.handedOut := by
      rw [step_self]
      exact Partition.watermark_step (h0 q.1) hfit
    refine ⟨hfit, ih (top + q.2.handedOut) ?_ ?_ (by push_cast at h; lia)⟩
    · intro r
      by_cases hr : r = q.1
      · have := h0 q.1
        rw [hr, hw]
        lia
      · rw [step_of_ne s hr]
        exact h0 r
    · intro r
      have := htop r
      by_cases hr : r = q.1
      · subst hr
        rw [hw]
        lia
      · rw [step_of_ne s hr]
        lia

end Store

namespace Broker

/-- Whether a command changes a topic or a partition past the broker. -/
def Command.bypasses : Command → Bool
  | .onTopic _ (.onPartition _ (.get _)) | .onTopic _ (.onPartition _ (.read _ _)) => false
  | .onTopic _ _ => true
  | _ => false

variable {b : Broker} {c : Command}

theorem mem_topicTraffic {name : String} {tc : Topic.Command} {r : PartitionRef}
    {q : Partition.Command} (h : (r, q) ∈ b.topicTraffic name tc) :
    ∃ (t : Topic) (index : Nat), t.request b.counters tc = some (index, q) := by
  unfold topicTraffic at h
  split at h
  · cases h
  · rename_i t ht
    rw [Option.mem_toList, Option.map_eq_some_iff] at h
    obtain ⟨⟨index, q'⟩, hreq, he⟩ := h
    cases he
    exact ⟨t, index, hreq⟩

theorem prompt_traffic (hc : c.bypasses = false) {q : PartitionRef × Partition.Command}
    (hq : q ∈ b.traffic c) : q.2.isPrompt = true := by
  obtain ⟨r, q⟩ := q
  cases c with
  | publish topic key payload =>
    obtain ⟨t, index, hreq⟩ := mem_topicTraffic hq
    cases hreq
    rfl
  | publishBatch topic key payloads =>
    obtain ⟨t, index, hreq⟩ := mem_topicTraffic hq
    cases hreq
    rfl
  | publishTimes topic key payload times =>
    obtain ⟨-, -, b', hq'⟩ := Run.exists_of_mem_expand hq
    obtain ⟨t, index, hreq⟩ := mem_topicTraffic hq'
    cases hreq
    rfl
  | onTopic name tc =>
    obtain ⟨t, index, hreq⟩ := mem_topicTraffic hq
    cases tc with
    | onPartition index' q' =>
      simp only [Topic.request] at hreq
      split at hreq
      · cases hreq
        cases q <;> first | rfl | cases hc
      · cases hreq
    | _ => cases hc
  | _ => cases hq

/-- All that is written by commands to the broker itself is published. -/
theorem written_eq_publications (hc : c.bypasses = false) (a : Answer) :
    written (c, a) = publications (c, a) := by
  cases c with
  | onTopic name tc =>
    cases tc with
    | onPartition index q =>
      have hnone : ∀ a, Topic.written (.onPartition index q) a = [] :=
        Topic.written_of_none fun a => by cases q <;> first | rfl | cases hc
      cases a with
      | onTopic a =>
        cases a with
        | none => rfl
        | some a => rw [written, hnone]; rfl
      | _ => rfl
    | _ => cases hc
  | _ => rfl

/-! ## A run -/

section
variable {config : Config} {cs : List Command} (hcs : ∀ c ∈ cs, c.bypasses = false)
include hcs

theorem writes_eq_publications :
    writes (transcript { config } cs) = (transcript { config } cs).flatMap publications := by
  refine List.flatMap_congr ?_
  rintro ⟨c, a⟩ hq
  have hc : c ∈ (transcript { config } cs).map Prod.fst := List.mem_map_of_mem hq
  rw [transcript, Run.map_fst_transcript] at hc
  exact written_eq_publications (hcs c hc) a

theorem prompt_account (r : PartitionRef) {q : Partition.Command × Partition.Answer}
    (hq : q ∈ account config cs r) : q.1.isPrompt = true := by
  have hc : q.1 ∈ (account config cs r).map Prod.fst := List.mem_map_of_mem hq
  rw [account, Partition.transcript, Run.map_fst_transcript] at hc
  obtain ⟨c, hc, b, hd⟩ := Run.exists_of_mem_expand hc
  obtain ⟨⟨r', q'⟩, hd, he⟩ := List.mem_map.1 hd
  rw [← he]
  exact prompt_traffic (hcs c hc) (List.mem_filter.1 hd).1

/-- Where nothing bypasses the broker, watermarks count messages. -/
theorem watermark_eq (hf : Run.Along step Fits { config } cs) (r : PartitionRef) :
    ((Run.last step ({ config } : Broker) cs).store r).watermark =
      ((Run.last step ({ config } : Broker) cs).store r).size := by
  have hvacant := (history_of_account hf r).watermark_sub_size
  rw [Partition.vacant_of_prompt fun q hq => prompt_account hcs r hq] at hvacant
  simp only [List.length_nil] at hvacant
  lia

end

/-- A broker through which few messages were published never runs out of offsets. -/
theorem along_of_published {config : Config} {cs : List Command}
    (hcs : ∀ c ∈ cs, c.bypasses = false)
    (h : ((transcript { config } cs).flatMap publications).length < 0x8000000000000000) :
    Run.Along step Fits { config } cs := by
  induction cs using List.reverseRecOn with
  | nil => trivial
  | append_singleton cs c ih =>
    have hold : ∀ c' ∈ cs, c'.bypasses = false := fun c' hc' => hcs c' (List.mem_append_left _ hc')
    have hc : c.bypasses = false := hcs c (by simp)
    rw [transcript, Run.transcript_append, List.flatMap_append, List.length_append,
      ← transcript] at h
    have hf := ih hold (by lia)
    rw [Run.along_append]
    refine ⟨hf, ?_, trivial⟩
    have hn := named_run config cs
    generalize hb : Run.last step ({ config } : Broker) cs = b at hn h ⊢
    have hhanded : (publications (c, (b.step c).1)).length = Store.handedOut (b.traffic c) := by
      rw [← written_eq_publications hc, ← (store_step hn c).2.length_eq,
        Store.length_written _ fun q hq => prompt_traffic hc hq]
    simp only [Run.transcript, List.flatMap_cons, List.flatMap_nil, List.append_nil, hhanded] at h
    refine Store.along_fits ((transcript ({ config } : Broker) cs).flatMap publications).length
      ?_ ?_ (by lia)
    · intro r
      rw [← hb]
      exact (bounded_run hf r).nonneg
    · intro r
      rw [← hb, watermark_eq hold hf, size_eq hf, ← writes_eq_publications hold]
      have := List.count_le_length (a := r)
        (l := (writes (transcript ({ config } : Broker) cs)).map Prod.fst)
      rw [List.length_map] at this
      exact_mod_cast this

/-! ## The counter -/

theorem published_publishTimes {topic key : String} {payload : Payload} {times : Nat}
    {ps : List Placement} {b' : Broker}
    (h : b.publishTimes topic key payload times = .ok (ps, b')) :
    b'.published = b.published + UInt64.ofNat ps.length := by
  induction times generalizing b ps with
  | zero =>
    cases h
    simp
  | succ times ih =>
    cases ht : b.topics[topic]? with
    | none =>
      rw [publishTimes, publish_unknown ht] at h
      cases h
    | some t =>
      rw [publishTimes, publish_ok ht] at h
      generalize hnext : (({ b with
        counters := (t.add b.counters key payload).2.2 } : Broker).setTopic
        topic (t.add b.counters key payload).2.1).countPublished 1 = next at h
      have hone : next.published = b.published + 1 := by
        rw [← hnext]
        rfl
      simp only [bind, Except.bind] at h
      cases hrest : next.publishTimes topic key payload times with
      | error e =>
        rw [hrest] at h
        cases h
      | ok more =>
        rw [hrest] at h
        cases h
        rw [ih hrest, hone, List.length_cons, UInt64.ofNat_add, UInt64.add_assoc,
          UInt64.add_comm 1]
        rfl

/-- The counter moves by the number of messages published. -/
theorem published_step (b : Broker) (c : Command) :
    (b.step c).2.published =
      b.published + UInt64.ofNat (publications (c, (b.step c).1)).length := by
  cases hc : c.toTopic with
  | false =>
    have hnone : publications (c, (b.step c).1) = [] := by
      cases c <;> first | rfl | cases hc
    rw [hnone]
    rcases step_cases b hc with ⟨h, -⟩ | ⟨name, _, _, t, -, -, h, -⟩ | ⟨group, q, -, h, -⟩
    all_goals
      rw [h]
      simp [setTopic, setGroup]
  | true =>
    cases c with
    | publish topic key payload =>
      cases ht : b.topics[topic]? with
      | none => simp [step, publish_unknown ht, settle, publications]
      | some t =>
        simp only [step, publish_ok ht, settle, publications]
        rfl
    | publishBatch topic key payloads =>
      cases ht : b.topics[topic]? with
      | none => simp [step, publishBatch_unknown ht, settle, publications]
      | some t =>
        simp only [step, publishBatch_ok ht, settle, publications, List.length_map]
        have hlen := congrArg List.length (stamps_records
          (t.addBatch b.counters key payloads).1.offsets.first (payloads.map (⟨some key, ·⟩)))
        rw [List.length_map, List.length_map] at hlen
        rw [hlen]
        rfl
    | publishTimes topic key payload times =>
      simp only [step]
      cases hr : b.publishTimes topic key payload times with
      | error e => simp [settle, publications]
      | ok r =>
        simp only [settle, publications, List.length_map, List.length_mergeSort]
        exact published_publishTimes hr
    | onTopic name tc =>
      simp only [step]
      cases b.topics[name]? <;> simp [publications, setTopic]
    | _ => cases hc

theorem published_run (config : Config) (cs : List Command) :
    (Run.last step ({ config } : Broker) cs).published =
      UInt64.ofNat ((transcript { config } cs).flatMap publications).length := by
  refine Run.invariant_always (fun (b : Broker) t => b.published =
    UInt64.ofNat (t.flatMap publications).length) (fun b t c h => ?_) rfl cs
  rw [published_step, h, List.flatMap_append, List.length_append, UInt64.ofNat_add,
    List.flatMap_singleton]

/-! ## Sums over all partitions -/

/-- The partitions of all topics, in the order of the topics' names. -/
def allRefs (b : Broker) : List PartitionRef := b.listTopics.flatMap b.refs

theorem nodup_allRefs (hn : b.Named) : b.allRefs.Nodup :=
  nodup_flatMap_refs hn (TreeMap.nodup_keys b.topics)

theorem map_store_allRefs (hn : b.Named) :
    b.allRefs.map b.store = b.topics.values.flatMap (·.partitions) := by
  have hparts : b.topics.keys.map b.partitionsOf = b.topics.values.map (·.partitions) := by
    apply TreeMap.map_keys
    intro name t ht
    rw [partitionsOf, ht]
    rfl
  rw [allRefs, List.map_flatMap, List.flatMap_congr fun topic _ => refs_map_store hn topic,
    List.flatMap_def, listTopics, hparts, ← List.flatMap_def]

/-- Every listed topic can be described. -/
theorem map_describe (b : Broker) :
    b.listTopics.map b.describe = (b.topics.values.map Topic.describe).map .ok := by
  rw [List.map_map]
  apply TreeMap.map_keys
  intro name t ht
  rw [describe, findTopic, ht]
  rfl

/-- What descriptions tell of partitions, they tell of all partitions of the broker. -/
theorem flatMap_described (hn : b.Named) :
    (b.topics.values.map Topic.describe).flatMap (·.partitions) =
      b.allRefs.map fun r => ⟨(b.store r).id, (b.store r).index, (b.store r).watermark,
        (b.store r).size⟩ := by
  rw [List.flatMap_map, show (fun r => (⟨(b.store r).id, (b.store r).index, (b.store r).watermark,
    (b.store r).size⟩ : Topic.PartitionDescription)) =
      (fun p : Partition => ⟨p.id, p.index, p.watermark, p.size⟩) ∘ b.store from rfl,
    ← List.map_map, map_store_allRefs hn, List.map_flatMap]
  rfl

theorem stats_partitions (hn : b.Named) : b.stats.partitions = b.allRefs.length := by
  have hlen := congrArg List.length (map_store_allRefs hn)
  rw [List.length_map] at hlen
  rw [hlen, stats]
  simp only
  induction b.topics.values with
  | nil => rfl
  | cons t ts ih => rw [List.foldr_cons, ih, List.flatMap_cons, List.length_append]; rfl

/-- The partitions of a broker hold what was written, all together. -/
theorem sum_size {config : Config} {cs : List Command} (hf : Run.Along step Fits { config } cs) :
    ((Run.last step ({ config } : Broker) cs).allRefs.map fun r =>
      ((Run.last step ({ config } : Broker) cs).store r).size).sum =
        (writes (transcript { config } cs)).length := by
  have hn := named_run config cs
  simp only [size_eq hf]
  rw [sum_map_count (nodup_allRefs hn), List.length_map]
  intro r hr
  obtain ⟨⟨r, m⟩, hm, rfl⟩ := List.mem_map.1 hr
  have hstored := (get?_iff_written hf r m.offset m).2 ⟨rfl, hm⟩
  obtain ⟨htopic, href⟩ := mem_refs_of_get? hn hstored
  exact List.mem_flatMap.2 ⟨r.topic, Std.ExtTreeMap.mem_keys.2 htopic, href⟩

/-! ## Names -/

/-- The name of the topic that a command is to create. -/
def Command.creates : Command → Option String
  | .createTopic name _ _ | .createDefault name => some name
  | _ => none

/-- The command created a topic of that name. -/
def Created (name : String) (q : Command × Answer) : Prop :=
  q.1.creates = some name ∧ ∃ t, q.2 = .created t

/-- The command adds a consumer to the group of that id. -/
def Command.Joins (id : String) (c : Command) : Prop := ∃ consumer, c = .addConsumer id consumer

theorem mem_insert {α : Type} {t : Std.ExtTreeMap String α} {x y : String} {v : α} :
    y ∈ t.insert x v ↔ y ∈ t ∨ x = y := by
  rw [Std.ExtTreeMap.mem_insert, Std.LawfulEqCmp.compare_eq_iff_eq, or_comm]

theorem mem_topics_createTopic (b : Broker) (name : String) (count : Nat) (strategy : Strategy)
    (name' : String) :
    name' ∈ (b.settle Answer.created (b.createTopic name count strategy)).2.topics ↔
      name' ∈ b.topics ∨ name = name' ∧
        ∃ t, (b.settle Answer.created (b.createTopic name count strategy)).1 = .created t := by
  unfold createTopic
  split
  · simp [settle]
  · cases Topic.create name count (strategy.routing name) with
    | error e => simp [settle, bind, Except.bind]
    | ok t =>
      simp only [settle, bind, Except.bind, pure, Except.pure, setTopic, mem_insert]
      exact or_congr_right ⟨fun h => ⟨h, t, rfl⟩, And.left⟩

theorem topics_step_of_not_creates (hn : b.Named) (hc : c.creates = none) (name : String) :
    name ∈ (b.step c).2.topics ↔ name ∈ b.topics := by
  by_cases hto : c.toTopic = true
  · have hshape := congrArg Option.isSome ((served_step hn hto).shapes name)
    rw [Option.isSome_map, Option.isSome_map] at hshape
    rw [Std.ExtTreeMap.mem_iff_isSome_getElem?, hshape, ← Std.ExtTreeMap.mem_iff_isSome_getElem?]
  · have heq : (b.step c).2.topics = b.topics := by
      cases c with
      | addConsumer group consumer => rfl
      | subscribe group topic =>
        simp only [step, subscribe, findTopic, findGroup]
        cases b.topics[topic]? <;> cases b.groups[group]? <;> rfl
      | poll group consumer =>
        simp only [step, poll, findGroup]
        cases b.groups[group]? <;> rfl
      | onGroup group q =>
        simp only [step]
        cases b.groups[group]? <;> rfl
      | describe topic =>
        simp only [step, describe, findTopic]
        cases b.topics[topic]? <;> rfl
      | list => rfl
      | stats => rfl
      | createTopic name count strategy => cases hc
      | createDefault name => cases hc
      | _ => exact absurd rfl hto
    rw [heq]

/-- The topics after a command are those before it and the one that it created. -/
theorem mem_topics_step (hn : b.Named) (c : Command) (name : String) :
    name ∈ (b.step c).2.topics ↔ name ∈ b.topics ∨ Created name (c, (b.step c).1) := by
  cases hc : c.creates with
  | none =>
    rw [topics_step_of_not_creates hn hc]
    simp [Created, hc]
  | some name' =>
    simp only [Created, hc, Option.some.injEq]
    cases c with
    | createTopic name' count strategy =>
      cases hc
      exact mem_topics_createTopic b name' count strategy name
    | createDefault name' =>
      cases hc
      exact mem_topics_createTopic b name' b.config.defaultPartitions.toNat
        (.ofKind b.config.routing) name
    | _ => cases hc

theorem mem_topics_run (config : Config) (cs : List Command) (name : String) :
    name ∈ (Run.last step ({ config } : Broker) cs).topics ↔
      ∃ q ∈ transcript { config } cs, Created name q := by
  refine (Run.invariant_always (fun (b : Broker) t => b.Named ∧
    (name ∈ b.topics ↔ ∃ q ∈ t, Created name q)) (fun b t c h => ⟨named_step h.1 c, ?_⟩)
    ⟨named_new config, by simp⟩ cs).2
  rw [mem_topics_step h.1, h.2]
  simp only [List.mem_append, List.mem_singleton, or_and_right, exists_or, exists_eq_left]

/-- The groups after a command are those before it and the one that it adds a consumer to. -/
theorem mem_groups_step_iff (hn : b.Named) (c : Command) (id : String) :
    id ∈ (b.step c).2.groups ↔ id ∈ b.groups ∨ c.Joins id := by
  refine ⟨fun h => ?_, fun h => ?_⟩
  · rcases mem_groups_step hn h with hold | ⟨consumer, ha⟩
    · exact Or.inl hold
    · rcases asked_cases ha with ⟨consumer', rfl, -⟩ | ⟨hmem, -⟩
      · exact Or.inr ⟨consumer', rfl⟩
      · exact Or.inl hmem
  · rcases h with hold | ⟨consumer, rfl⟩
    · exact mem_groups_keep hn c hold
    · exact Std.ExtTreeMap.mem_insert_self

theorem mem_groups_run (config : Config) (cs : List Command) (id : String) :
    id ∈ (Run.last step ({ config } : Broker) cs).groups ↔ ∃ c ∈ cs, c.Joins id := by
  refine (Run.invariant_commands (fun (b : Broker) cs => b.Named ∧
    (id ∈ b.groups ↔ ∃ c ∈ cs, c.Joins id)) (fun b cs c h => ⟨named_step h.1 c, ?_⟩)
    ⟨named_new config, by simp⟩ cs).2
  rw [mem_groups_step_iff h.1, h.2]
  simp only [List.mem_append, List.mem_singleton, or_and_right, exists_or, exists_eq_left]

/-- Keys of a registry are listed in the order of their bytes. -/
theorem pairwise_keys {α : Type} (t : Std.ExtTreeMap String α) :
    t.keys.Pairwise fun x y => Text.Utf8.encode x < Text.Utf8.encode y :=
  Std.ExtTreeMap.ordered_keys.imp fun h => Text.Utf8.encode_lt (compare_lt_iff_lt.1 h)

/-! ## The totals -/

theorem sum_described {M : Type} [AddCommMonoid M] (f : Topic.PartitionDescription → M)
    (ds : List Topic.Description) :
    (ds.map fun d => (d.partitions.map f).sum).sum = ((ds.flatMap (·.partitions)).map f).sum := by
  induction ds with
  | nil => rfl
  | cons d ds ih =>
    rw [List.map_cons, List.sum_cons, ih, List.flatMap_cons, List.map_append, List.sum_append]

theorem messages_of_publications {config : Config} {cs : List Command}
    (h : ((transcript { config } cs).flatMap publications).length < 0x8000000000000000) :
    (Run.last step ({ config } : Broker) cs).stats.messages =
      ((transcript { config } cs).flatMap publications).length := by
  rw [stats, published_run]
  exact UInt64.toNat_ofNat_of_lt' (Nat.lt_trans h (by decide))

/-- **The books balance.** As long as nothing bypasses the broker and fewer than 2^63 messages are
published, the total of messages is what was published, what the descriptions of all topics count as
messages and what their watermarks add up to. The other totals are the lengths of the lists. These
are in the order of bytes and have the names of the topics that were created and the ids of the groups
that a consumer was added to. What fails counts nothing, and neither does an empty batch. -/
theorem totals_agree {config : Config} {cs : List Command} (hcs : ∀ c ∈ cs, c.bypasses = false)
    (hfew : ((transcript { config } cs).flatMap publications).length < 0x8000000000000000) :
    let b := (({ config } : Broker).run cs).2
    ∃ ds : List Topic.Description,
      b.listTopics.map b.describe = ds.map .ok ∧
      b.stats.messages = ((transcript { config } cs).flatMap publications).length ∧
      b.stats.messages = (ds.map fun d => (d.partitions.map (·.messages)).sum).sum ∧
      (b.stats.messages : Int) = (ds.map fun d => (d.partitions.map (·.watermark)).sum).sum ∧
      b.stats.topics = b.listTopics.length ∧
      b.stats.partitions = (ds.map (·.partitions.length)).sum ∧
      b.stats.groups = b.listGroups.length ∧
      b.listTopics.Pairwise (fun x y => Text.Utf8.encode x < Text.Utf8.encode y) ∧
      b.listGroups.Pairwise (fun x y => Text.Utf8.encode x < Text.Utf8.encode y) ∧
      (∀ name, name ∈ b.listTopics ↔ ∃ q ∈ transcript { config } cs, Created name q) ∧
      (∀ id, id ∈ b.listGroups ↔ ∃ consumer, .addConsumer id consumer ∈ cs) ∧
      (∀ c e, (b.step c).1 = .failed e → (b.step c).2.stats = b.stats) ∧
      ∀ topic key, (b.step (.publishBatch topic key [])).2.stats.messages = b.stats.messages := by
  rw [run_eq]
  intro b
  have hn : b.Named := named_run config cs
  have hf := along_of_published hcs hfew
  have hdescribed := flatMap_described hn
  have hmessages := messages_of_publications hfew
  have hsum : (b.allRefs.map fun r => (b.store r).size).sum =
      ((transcript { config } cs).flatMap publications).length := by
    rw [← writes_eq_publications hcs]
    exact sum_size hf
  refine ⟨b.topics.values.map Topic.describe, map_describe b, hmessages, ?_, ?_,
    Std.ExtTreeMap.length_keys.symm, ?_, Std.ExtTreeMap.length_keys.symm, pairwise_keys _,
    pairwise_keys _, ?_, ?_, ?_, ?_⟩
  · rw [sum_described, hdescribed, List.map_map, hmessages, ← hsum]
    rfl
  · rw [sum_described, hdescribed, List.map_map, hmessages, ← hsum, Nat.cast_list_sum, List.map_map]
    congr 1
    exact List.map_congr_left fun r _ => (watermark_eq hcs hf r).symm
  · rw [stats_partitions hn, ← List.length_flatMap, hdescribed, List.length_map]
  · intro name
    exact Std.ExtTreeMap.mem_keys.trans (mem_topics_run config cs name)
  · intro id
    refine Std.ExtTreeMap.mem_keys.trans ((mem_groups_run config cs id).trans ?_)
    constructor
    · rintro ⟨c, hc, consumer, rfl⟩
      exact ⟨consumer, hc⟩
    · rintro ⟨consumer, hc⟩
      exact ⟨_, hc, consumer, rfl⟩
  · intro c e he
    rw [step_of_failed he]
  · intro topic key
    have hnone :
        publications (.publishBatch topic key [], (b.step (.publishBatch topic key [])).1) = [] := by
      cases (b.step (.publishBatch topic key [])).1 <;> rfl
    simp only [stats]
    rw [published_step, hnone]
    simp

/-- Two topics, listed against the order of their creation; a name that is taken, a topic that is
unknown and an empty batch. A partition is read, past the broker. -/
def bookkeeping : List Command :=
  [.createTopic "é" 2 .roundRobin, .createTopic "z" 1 .roundRobin, .createTopic "z" 3 .roundRobin,
    .publish "é" "k" [1], .publishBatch "é" "k" [[2], [3]], .publishBatch "z" "k" [],
    .publish "y" "k" [4], .addConsumer "g" "a", .onTopic "é" (.onPartition 1 (.read 0 none)),
    .publish "z" "k" [5]]

theorem totals_agree_bookkeeping :
    (∀ c ∈ bookkeeping, c.bypasses = false) ∧
    ((transcript {} bookkeeping).flatMap publications).length < 0x8000000000000000 ∧
    (({} : Broker).run bookkeeping).2.stats = ⟨2, 3, 1, 4⟩ ∧
    ∃ ds : List Topic.Description,
      ["z", "é"].map (({} : Broker).run bookkeeping).2.describe = ds.map .ok ∧
      4 = (ds.map fun d => (d.partitions.map (·.messages)).sum).sum ∧
      (4 : Int) = (ds.map fun d => (d.partitions.map (·.watermark)).sum).sum ∧
      ["z", "é"].Pairwise fun x y => Text.Utf8.encode x < Text.Utf8.encode y := by
  have hcs : ∀ c ∈ bookkeeping, c.bypasses = false := by decide
  have hfew : ((transcript {} bookkeeping).flatMap publications).length < 0x8000000000000000 := by
    decide
  have hstats : (({} : Broker).run bookkeeping).2.stats = ⟨2, 3, 1, 4⟩ := by decide
  have hlist : (({} : Broker).run bookkeeping).2.listTopics = ["z", "é"] := by decide
  obtain ⟨ds, hds, -, hmessages, hwatermarks, -, -, -, horder, -⟩ := totals_agree hcs hfew
  rw [hstats] at hmessages hwatermarks
  rw [hlist] at hds horder
  exact ⟨hcs, hfew, hstats, ds, hds, hmessages, hwatermarks, horder⟩

end Broker
end LogBroker
