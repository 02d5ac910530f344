import Mathlib
import LogBroker.Proofs.Delivery.Batches
import LogBroker.Proofs.Lag

/-!
# Batches are delivered whole

A broker that does not cap polls returns the messages of a batch together. What carries this through
a run is that no cursor ever lies strictly inside a batch (`Whole.clear`). When a batch is stored,
each cursor is before it, for cursors are behind watermarks. From there on only polls move a cursor,
and an uncapped poll takes it from one place outside the batch to another (`deliver_undivided`),
whoever polls, whatever was filled in meanwhile and whenever the group came to the topic.

* `Broker.batches` reads off a command and its answer which batch was stored, be it by the broker
  itself or through one of its topics and partitions.
* `whole_step`, `whole_run`: the invariant, and with it that no answer divides a batch.
* `onePoll_of_mem`: as nothing is delivered twice, a batch of which one message was delivered was
  delivered by one poll, and by no other.

The runs may hand a group partitions through its handle. Those of the broker's topics are covered.
Stand-alone partitions that hold messages are not, for a partition of no topic shows as empty
(`Broker.store`). If one of them had the id of a topic's partition, its messages could leave the
cursor that the two share inside a batch.
-/
namespace LogBroker

namespace Delivery

/-- Where no id gave an offset twice, no message was delivered twice. -/
theorem nodup_entries {ds : List Delivery} (h : ∀ x, ((ofId x ds).map (·.offset)).Nodup) :
    (entries ds).Nodup := by
  rw [List.nodup_iff_count_le_one]
  intro e
  calc (entries ds).count e = ((entries ds).filter (·.1.id = e.1.id)).count e := by
        rw [List.count_filter]
        exact decide_eq_true rfl
    _ ≤ (((entries ds).filter (·.1.id = e.1.id)).map Prod.snd).count e.2 :=
        List.count_le_count_map
    _ = (ofId e.1.id ds).count e.2 := by rw [ofId_eq_map_entries]
    _ ≤ 1 := List.nodup_iff_count_le_one.1 (h e.1.id).of_map e.2

end Delivery

namespace Broker
open Delivery ConsumerGroup

/-- The batches that a command stored. -/
def batches : Command × Answer → List Batch
  | (.publishBatch topic key payloads, .placedBatch p) =>
    [⟨ref topic p.partition, p.offsets.first, payloads.map (⟨some key, ·⟩)⟩]
  | (.onTopic name (.addBatch key payloads), .onTopic (some (.placedBatch p))) =>
    [⟨ref name p.partition, p.offsets.first, payloads.map (⟨some key, ·⟩)⟩]
  | (.onTopic name (.onPartition index (.appendBatch rs)),
      .onTopic (some (.partition (some (.range range))))) => [⟨ref name index, range.first, rs⟩]
  | _ => []

/-- The command polls for a group with a cap of its own. -/
def Command.capsPoll (id : String) : Command → Bool
  | .onGroup group (.pollMax _ _) => group = id
  | _ => false

/-- One poll of a run returned a batch, in order and with nothing in between, and what was returned
before and after that has nothing of it. -/
def OnePoll (id : String) (t : List (Command × Answer)) (batch : List (PartitionRef × Message)) :
    Prop :=
  ∃ before e after pre post, t = before ++ e :: after ∧
    entries (deliveriesTo id e) = pre ++ batch ++ post ∧
    batch.Disjoint (entries (delivered id before) ++ pre) ∧
    batch.Disjoint (post ++ entries (delivered id after))

variable {b : Broker} {id : String} {c : Command} {t : List (Command × Answer)} {x : Batch}

/-! ## What stores a batch -/

theorem source_of_batches {q : Command × Answer} (h : x ∈ batches q) :
    ∃ topic index, x.source = ref topic index := by
  unfold batches at h
  split at h
  · exact ⟨_, _, congrArg Batch.source (List.mem_singleton.1 h)⟩
  · exact ⟨_, _, congrArg Batch.source (List.mem_singleton.1 h)⟩
  · exact ⟨_, _, congrArg Batch.source (List.mem_singleton.1 h)⟩
  · cases h

theorem toTopic_of_batches {q : Command × Answer} (h : x ∈ batches q) : q.1.toTopic = true := by
  unfold batches at h
  split at h <;> first | rfl | cases h

/-- The messages of a batch are among those that the command stored. -/
theorem entries_subset_written {q : Command × Answer} (h : x ∈ batches q) :
    x.entries ⊆ written q := by
  unfold batches at h
  split at h
  · rw [List.mem_singleton.1 h]
    exact List.Subset.refl _
  · rw [List.mem_singleton.1 h]
    simp [written, Topic.written, Batch.entries, Batch.messages, Function.comp_def]
  · rw [List.mem_singleton.1 h]
    simp [written, Topic.written, Partition.written, Batch.entries, Batch.messages,
      Function.comp_def]
  · cases h

theorem first_of_addBatch (hn : b.Named) {topic : String} {t : Topic}
    (ht : b.topics[topic]? = some t) (cs : Counters) (key : String) (payloads : List Payload) :
    (t.addBatch cs key payloads).1.offsets.first =
      (b.store (ref topic (t.addBatch cs key payloads).1.partition)).watermark := by
  have h := store_of_topic ht (List.getElem?_eq_getElem (t.route cs key).isLt)
  rw [hn topic t ht] at h
  exact congrArg Partition.watermark h.symm

/-- A batch begins at the watermark. -/
theorem first_of_batches (hn : b.Named) {q : Command × Answer} (ha : (b.step q.1).1 = q.2)
    (h : x ∈ batches q) : x.first = (b.store x.source).watermark := by
  unfold batches at h
  split at h
  · rename_i topic key payloads p
    cases ht : b.topics[topic]? with
    | none =>
      simp only [step, publishBatch_unknown ht, settle] at ha
      cases ha
    | some t =>
      simp only [step, publishBatch_ok ht, settle, Answer.placedBatch.injEq] at ha
      rw [List.mem_singleton.1 h, ← ha]
      exact first_of_addBatch hn ht b.counters key payloads
  · rename_i name key payloads p
    cases ht : b.topics[name]? with
    | none =>
      simp only [step, ht] at ha
      cases ha
    | some t =>
      simp only [step, ht, Topic.step, Answer.onTopic.injEq, Option.some.injEq,
        Topic.Answer.placedBatch.injEq] at ha
      rw [List.mem_singleton.1 h, ← ha]
      exact first_of_addBatch hn ht b.counters key payloads
  · rename_i name index rs range
    cases ht : b.topics[name]? with
    | none =>
      simp only [step, ht] at ha
      cases ha
    | some t =>
      cases hp : t.partitions[index]? with
      | none =>
        simp only [step, ht, Topic.step, hp] at ha
        cases ha
      | some p =>
        simp only [step, ht, Topic.step, hp, Partition.step] at ha
        have hstore := store_of_topic ht hp
        rw [hn name t ht] at hstore
        cases ha
        rw [List.mem_singleton.1 h]
        exact congrArg Partition.watermark hstore.symm
  · cases h

/-! ## What a broker keeps of a run -/

/-- The partitions hold all that was stored and all that was delivered to a group, and the group's
cursors are behind the watermarks. -/
structure Kept (b : Broker) (id : String) (t : List (Command × Answer)) : Prop where
  named : b.Named
  stamped : b.store.Stamped
  bounded : b.store.Bounded
  stored : ∀ e ∈ writes t, (b.store e.1).get? e.2.offset = some e.2
  given : ∀ e ∈ entries (delivered id t), (b.store e.1).get? e.2.offset = some e.2
  behind : ∀ topic index, (b.group id).cursors.consumed (ref topic index) <
    (b.store (ref topic index)).watermark

theorem kept_run {config : Config} {cs : List Command} (hf : Run.Along step Fits { config } cs)
    (id : String) :
    Kept (Run.last step { config } cs) id (transcript { config } cs) := by
  obtain ⟨u, h, hds, hws⟩ := exact_run hf id
  refine ⟨named_run config cs, h.ordered.stamped, h.faithful.bounded, ?_, ?_, ?_⟩
  · intro e he
    exact (h.faithful.stored e.1 e.2).1 (hws.mem_iff.2 he)
  · intro e he
    obtain ⟨d, hd, hm⟩ := List.mem_flatMap.1 he
    obtain ⟨m, hmem, rfl⟩ := List.mem_map.1 hm
    exact h.faithful.kept d (hds ▸ hd) m hmem
  · intro topic index
    have hlag := behind_eq hf id topic index
    rw [ConsumerGroup.behind] at hlag
    lia

/-- What a run stored as a batch is still stored. -/
theorem Kept.stored_batch (hk : Kept b id t) (hx : x ∈ t.flatMap batches) :
    x.Stored (b.store x.source) := by
  obtain ⟨q, hq, hx⟩ := List.mem_flatMap.1 hx
  intro m hm
  exact hk.stored (x.source, m) (List.mem_flatMap.2
    ⟨q, hq, entries_subset_written hx (List.mem_map_of_mem hm)⟩)

theorem entries_delivered (id : String) (t : List (Command × Answer)) :
    entries (delivered id t) = t.flatMap fun e => entries (deliveriesTo id e) := List.flatMap_assoc

/-! ## Outside every batch -/

/-- No batch of a run has the group's cursor inside it, and no answer divides one. -/
structure Whole (b : Broker) (id : String) (t : List (Command × Answer)) : Prop where
  clear : ∀ x ∈ t.flatMap batches, x.Clear ((b.group id).cursors.consumed x.source + 1)
  undivided : ∀ x ∈ t.flatMap batches, ∀ e ∈ t, Undivided x.entries (entries (deliveriesTo id e))

/-- A poll that sets no cap of its own has the group's. -/
theorem limit_of_asked {q : ConsumerGroup.Command} (ha : b.asked id c = some q)
    (hc : c.capsPoll id = false) {g : ConsumerGroup} {consumer : String} {limit : Limit}
    (hp : g.poll? q = some (consumer, limit)) : limit = g.maxPoll := by
  cases q with
  | poll consumer' =>
    cases hp
    rfl
  | pollMax consumer' max =>
    rcases asked_cases ha with ⟨_, -, he⟩ | ⟨-, ⟨_, _, -, -, he⟩ | ⟨_, -, he⟩ | rfl⟩
    · cases he
    · cases he
    · cases he
    · simp [Command.capsPoll] at hc
  | _ => cases hp

/-- What a command delivers to a group does not divide a batch, and leaves the cursor outside it. -/
theorem undivided_step (hn : b.Named) (hs : b.store.Stamped) (hcap : (b.group id).maxPoll = none)
    (hc : c.capsPoll id = false) {topic : String} {index : Nat}
    (hsource : x.source = ref topic index) (hx : c.toTopic = true ∨ x.Stored (b.store x.source))
    (hclear : x.Clear ((b.group id).cursors.consumed x.source + 1)) :
    Undivided x.entries (entries (deliveriesTo id (c, (b.step c).1))) ∧
      x.Clear (((b.step c).2.group id).cursors.consumed x.source + 1) := by
  rcases answered_step hn id c with ⟨-, hgroup, hds⟩ | ⟨q, ha, hgroup, hds⟩
  · rw [hgroup, hds]
    exact ⟨.nil _, hclear⟩
  · rw [hgroup, hds]
    rcases (b.group id).poll_or_not q with hnot | ⟨consumer, limit, hp⟩
    · rw [deliveries_step_of_not_poll hnot, Cursors.consumed, cursor_step_of_not_poll hnot]
      exact ⟨.nil _, hclear⟩
    · have hx : x.Stored (b.store x.source) := hx.resolve_left fun htopic => by
        rw [toTopic_of_asked ha] at htopic
        cases htopic
      obtain rfl : limit = none := (limit_of_asked ha hc hp).trans hcap
      rw [step_poll hp]
      exact deliver_undivided hs hx (hsource ▸ sole_ref hn topic index) _ hclear

/-- A new batch lies ahead of the cursor, and of all that was delivered. -/
theorem Kept.new_batch (hk : Kept b id t) (hx : x ∈ batches (c, (b.step c).1)) :
    x.Clear ((b.group id).cursors.consumed x.source + 1) ∧
      ∀ e ∈ t, Undivided x.entries (entries (deliveriesTo id e)) := by
  have hfirst := first_of_batches hk.named rfl hx
  obtain ⟨topic, index, hsource⟩ := source_of_batches hx
  constructor
  · have hbehind := hk.behind topic index
    rw [← hsource, ← hfirst] at hbehind
    exact Or.inl hbehind
  · intro e he
    refine Or.inr fun y hy hy' => ?_
    obtain ⟨m, hm, rfl⟩ := List.mem_map.1 hy
    have hgiven := hk.given (x.source, m) (by
      rw [entries_delivered]
      exact List.mem_flatMap.2 ⟨e, he, hy'⟩)
    have hlow := (mem_stamps_bounds hm).1
    have hhigh := ((hk.bounded x.source).inside m.offset m hgiven).2
    lia

theorem whole_step (hk : Kept b id t) (h : Whole b id t) (hcap : (b.group id).maxPoll = none)
    (hc : c.capsPoll id = false) : Whole (b.step c).2 id (t ++ [(c, (b.step c).1)]) := by
  have hold {x : Batch} (hx : x ∈ t.flatMap batches) :=
    have ⟨q, _, hq⟩ := List.mem_flatMap.1 hx
    have ⟨_, _, hsource⟩ := source_of_batches hq
    undivided_step hk.named hk.stamped hcap hc hsource (Or.inr (hk.stored_batch hx)) (h.clear x hx)
  have hnew {x : Batch} (hx : x ∈ batches (c, (b.step c).1)) :=
    have ⟨_, _, hsource⟩ := source_of_batches hx
    undivided_step hk.named hk.stamped hcap hc hsource (Or.inl (toTopic_of_batches hx))
      (hk.new_batch hx).1
  have hbatches : (t ++ [(c, (b.step c).1)]).flatMap batches =
      t.flatMap batches ++ batches (c, (b.step c).1) := by simp
  constructor
  · intro x hx
    rcases List.mem_append.1 (hbatches ▸ hx) with hx | hx
    · exact (hold hx).2
    · exact (hnew hx).2
  · intro x hx e he
    rcases List.mem_append.1 (hbatches ▸ hx) with hx | hx <;>
      rcases List.mem_append.1 he with he | he
    · exact h.undivided x hx e he
    · exact List.mem_singleton.1 he ▸ (hold hx).1
    · exact (hk.new_batch hx).2 e he
    · exact List.mem_singleton.1 he ▸ (hnew hx).1

theorem whole_run {config : Config} (hcap : config.maxPollRecords = none) {cs : List Command}
    (hcs : ∀ c ∈ cs, c.capsPoll id = false) (hf : Run.Along step Fits { config } cs) :
    Whole (Run.last step { config } cs) id (transcript { config } cs) := by
  -- from the end, since each step relies on what is known of the whole run before it
  induction cs using List.reverseRecOn with
  | nil => exact ⟨nofun, nofun⟩
  | append_singleton cs c ih =>
    obtain ⟨hf, -⟩ := (Run.along_append _ _ _).1 hf
    have h := ih (fun c' hc' => hcs c' (List.mem_append_left _ hc')) hf
    have hmax : ((Run.last step ({ config } : Broker) cs).group id).maxPoll = none := by
      rw [maxPoll_run, Config.maxPoll, hcap]
      rfl
    rw [Run.last_append, transcript, Run.transcript_append]
    exact whole_step (kept_run hf id) h hmax (hcs c (List.mem_append_right _ List.mem_cons_self))

/-! ## In one poll -/

theorem nodup_delivered (config : Config) (cs : List Command) (id : String) :
    (entries (delivered id (transcript { config } cs))).Nodup := by
  rw [← deliveries_run]
  apply nodup_entries
  intro x
  have h := Bench.ordered_run id config.distribution config.maxPoll (history config cs id)
  exact (h.offsets x).symm ▸ Offset.nodup_upFrom _ _

/-- A batch that no answer divides was delivered by one poll, if any message of it was. -/
theorem onePoll_of_mem (hd : (entries (delivered id t)).Nodup)
    {batch : List (PartitionRef × Message)}
    (h : ∀ e ∈ t, Undivided batch (entries (deliveriesTo id e))) {m : PartitionRef × Message}
    (hm : m ∈ batch) (hmem : m ∈ entries (delivered id t)) : OnePoll id t batch := by
  rw [entries_delivered] at hd hmem
  obtain ⟨e, he, hme⟩ := List.mem_flatMap.1 hmem
  obtain ⟨pre, post, hsplit⟩ := (h e he).isInfix_of_mem hm hme
  obtain ⟨before, after, rfl⟩ := List.append_of_mem he
  rw [List.flatMap_append, List.flatMap_cons, ← entries_delivered, ← entries_delivered, ← hsplit,
    List.append_assoc pre, List.append_assoc pre, ← List.append_assoc,
    List.append_assoc batch] at hd
  refine ⟨before, e, after, pre, post, rfl, hsplit.symm, ?_, ?_⟩
  · exact (List.disjoint_append_right.1 (List.disjoint_of_nodup_append hd)).1.symm
  · exact List.disjoint_of_nodup_append hd.of_append_right

/-- When all members polled, the group has a batch that no empty offset precedes. -/
theorem onePoll_after_polls {config : Config} (hcap : config.maxPollRecords = none)
    {cs : List Command} (hcs : ∀ c ∈ cs, c.capsPoll id = false)
    (hf : Run.Along step Fits { config } cs) {g : ConsumerGroup}
    (hg : (Run.last step ({ config } : Broker) cs).groups[id]? = some g)
    (hx : x ∈ (transcript { config } cs).flatMap batches) (hne : x.records ≠ [])
    (hmem : x.source ∈ g.partitions)
    (hfull : ∀ o : Offset, 0 ≤ o → o < x.first →
      ((Run.last step ({ config } : Broker) cs).store x.source).get? o ≠ none)
    {polls : List Command} (hpolls : ∀ c ∈ polls, ∃ consumer, c = .poll id consumer)
    (hall : ∀ consumer ∈ g.members, .poll id consumer ∈ polls) :
    OnePoll id (transcript { config } (cs ++ polls)) x.entries := by
  have huncapped (consumer : String) :
      (Run.last step ({ config } : Broker) cs).Uncapped id consumer (.poll id consumer) := by
    refine ⟨.poll consumer, Or.inl ⟨rfl, rfl⟩, none, ?_, trivial⟩
    have hmax := maxPoll_run config cs id
    rw [Config.maxPoll, hcap] at hmax
    exact congrArg (fun limit => some (consumer, limit)) hmax
  have hpolls' : ∀ c ∈ polls, ∃ consumer,
      (Run.last step { config } cs).Uncapped id consumer c := by
    intro c hc
    obtain ⟨consumer, rfl⟩ := hpolls c hc
    exact ⟨consumer, huncapped consumer⟩
  have hcapless : ∀ c ∈ cs ++ polls, c.capsPoll id = false := by
    intro c hc
    rcases List.mem_append.1 hc with hc | hc
    · exact hcs c hc
    · obtain ⟨consumer, rfl⟩ := hpolls c hc
      rfl
  have hwhole := whole_run hcap hcapless (along_polls hf hpolls')
  have hstored := (kept_run hf id).stored_batch hx
  obtain ⟨q, hq, hxq⟩ := List.mem_flatMap.1 hx
  obtain ⟨topic, index, hsource⟩ := source_of_batches hxq
  obtain ⟨m, hm, hfirst⟩ := x.exists_first hne
  have hxs : x ∈ (transcript { config } (cs ++ polls)).flatMap batches := by
    rw [transcript, Run.transcript_append]
    exact List.mem_flatMap.2 ⟨q, List.mem_append_left _ hq, hxq⟩
  -- the first message of the batch was delivered, and it brings the others
  refine onePoll_of_mem (nodup_delivered config _ id) (hwhole.undivided x hxs)
    (List.mem_map_of_mem hm) (mem_entries_iff.2 ?_)
  rw [hsource] at hmem hfull hstored ⊢
  obtain ⟨n, hn, hread⟩ := delivered_after_polls hf hg hmem hpolls' fun consumer hc =>
    ⟨_, hall consumer hc, huncapped consumer⟩
  have hget := hstored m hm
  have hin := (bounded_run hf (ref topic index)).inside m.offset m hget
  rw [← hfirst] at hfull
  exact (Partition.mem_read_iff (stamped_run hf _) hread).2
    ⟨hget, hin.1, Partition.offset_lt_of_full hn hget hfull⟩

/-- **Batches are delivered whole.** In any run in which offsets fit, under a configuration that
does not cap polls, a group that is polled without caps gets no batch in parts: every answer has all
messages of a batch, in the order of their payloads and with nothing in between, or none of them. A
batch of which anything was delivered was delivered by one poll alone. When all members of a group
have polled, this is so of every batch in a partition of the group that no empty offset precedes. -/
theorem batches_delivered_whole {config : Config} (hcap : config.maxPollRecords = none)
    {cs : List Command} {id : String} (hcs : ∀ c ∈ cs, c.capsPoll id = false)
    (hfit : Run.Along step Fits { config } cs) :
    let b := (({ config } : Broker).run cs).2
    let t := transcript { config } cs
    (∀ (topic key : String) (payloads : List Payload) (p : BatchPlacement),
      (.publishBatch topic key payloads, .placedBatch p) ∈ t → ∃ x ∈ t.flatMap batches,
        x.source = ref topic p.partition ∧ x.first = p.offsets.first ∧
        x.entries.map (·.2.payload) = payloads) ∧
    ∀ x ∈ t.flatMap batches,
      (∀ e ∈ t, Undivided x.entries (entries (deliveriesTo id e))) ∧
      (∀ m ∈ x.entries, m ∈ entries (delivered id t) → OnePoll id t x.entries) ∧
      ∀ (g : ConsumerGroup) (polls : List Command), b.groups[id]? = some g →
        x.records ≠ [] → x.source ∈ g.partitions →
        (∀ o : Offset, 0 ≤ o → o < x.first → (b.store x.source).get? o ≠ none) →
        (∀ c ∈ polls, ∃ consumer, c = .poll id consumer) →
        (∀ consumer ∈ g.members, .poll id consumer ∈ polls) →
        OnePoll id (transcript { config } (cs ++ polls)) x.entries := by
  rw [run_eq]
  intro b t
  have hwhole : Whole b id t := whole_run hcap hcs hfit
  constructor
  · intro topic key payloads p hmem
    refine ⟨_, List.mem_flatMap.2 ⟨_, hmem, List.mem_singleton_self _⟩, rfl, rfl, ?_⟩
    rw [Batch.payloads_entries, List.map_map]
    exact List.map_id payloads
  · intro x hx
    refine ⟨hwhole.undivided x hx, fun m hm hd => ?_, fun g polls hg hne hmem hfull => ?_⟩
    · exact onePoll_of_mem (nodup_delivered config cs id) (hwhole.undivided x hx) hm hd
    · exact onePoll_after_polls hcap hcs hfit hg hx hne hmem hfull

/-- A batch lies behind a reserved offset. The group comes to the topic late and gets nothing, and
the partition has another owner when the offset is filled. -/
def behindHole : List Command :=
  [.createTopic "t" 1 .roundRobin, .addConsumer "g" "b", .onTopic "t" (.onPartition 0 (.reserve 1)),
    .publishBatch "t" "k" [[1], [2], [3]], .subscribe "g" "t", .poll "g" "b", .addConsumer "g" "a",
    .onTopic "t" (.onPartition 0 (.fill 0 ⟨none, [0]⟩)), .publish "t" "k" [4]]

theorem batches_delivered_whole_behind_hole :
    let b := (({} : Broker).run behindHole).2
    let x : Batch := ⟨ref "t" 0, 1, [⟨some "k", [1]⟩, ⟨some "k", [2]⟩, ⟨some "k", [3]⟩]⟩
    (∀ c ∈ behindHole, c.capsPoll "g" = false) ∧ Run.Along step Fits ({} : Broker) behindHole ∧
    x ∈ (transcript {} behindHole).flatMap batches ∧
    (∃ g : ConsumerGroup, b.groups["g"]? = some g ∧ g.owned "a" = [ref "t" 0]) ∧
    (∀ e ∈ transcript {} behindHole, Undivided x.entries (entries (deliveriesTo "g" e))) ∧
    OnePoll "g" (transcript {} (behindHole ++ [.poll "g" "b", .poll "g" "a"])) x.entries := by
  intro b x
  have hcs : ∀ c ∈ behindHole, c.capsPoll "g" = false := by decide
  have hfit : Run.Along step Fits ({} : Broker) behindHole := by decide
  have hx : x ∈ (transcript {} behindHole).flatMap batches := by decide
  have hg : b.groups["g"]?.isSome = true := by decide
  have howned : (Option.get _ hg).owned "a" = [ref "t" 0] := by decide +revert
  have hmem : ref "t" 0 ∈ (Option.get _ hg).partitions := by decide +revert
  have hmembers : (Option.get _ hg).members = ["b", "a"] := by decide +revert
  have hzero : (b.store (ref "t" 0)).get? 0 ≠ none := by decide
  have hcap : ({} : Config).maxPollRecords = none := rfl
  obtain ⟨-, hbatches⟩ := batches_delivered_whole hcap hcs hfit
  obtain ⟨hundivided, -, hpolls⟩ := hbatches x hx
  refine ⟨hcs, hfit, hx, ⟨_, (Option.some_get hg).symm, howned⟩, hundivided, ?_⟩
  refine hpolls _ _ (Option.some_get hg).symm (List.cons_ne_nil _ _) hmem ?_ ?_ ?_
  · intro o h0 h1
    obtain rfl : o = 0 := by
      have h1' : o < 1 := h1
      lia
    exact hzero
  · intro c hc
    simp only [List.mem_cons, List.not_mem_nil, or_false] at hc
    rcases hc with rfl | rfl
    · exact ⟨"b", rfl⟩
    · exact ⟨"a", rfl⟩
  · rw [hmembers]
    decide

end Broker
end LogBroker
