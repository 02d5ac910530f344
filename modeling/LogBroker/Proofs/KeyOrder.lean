import Mathlib
import LogBroker.Proofs.ExactlyOnce

/-!
# Messages of one key stay in order

A topic with hashed routing sends every message of a key to one partition. `block_step` says what a
command publishes under the key: a block of offsets between the watermark of this partition before
the command and after it, in the order of publication. Blocks follow each other, so over a run the
messages published under the key lie at increasing offsets (`keyed_run`).

A group gets what a partition holds in the order of offsets, up to a point. What it gets of the key
is therefore the beginning of what was published (`received_of_block`), and all of it once every
member polled and no offset is empty.

The runs may hand a group partitions through its handle. Those of the broker's topics are covered.
Stand-alone partitions that hold messages are not, for a partition of no topic shows as empty
(`Broker.store`). If one of them had the id of a topic's partition, its messages would move the
cursor that the two share.
-/
namespace LogBroker.Broker
open Delivery

/-- The messages that were published to a topic under a key, each with its partition. -/
def publishedUnder (topic key : String) (t : List (Command × Answer)) :
    List (PartitionRef × Message) :=
  (t.flatMap publications).filter fun q => q.1.topic = topic ∧ q.2.key = some key

/-- The messages that a group got, each with its partition. -/
def received (id : String) (t : List (Command × Answer)) : List (PartitionRef × Message) :=
  (delivered id t).flatMap fun d => d.messages.map (d.source, ·)

/-- One message has a smaller offset than the other. -/
def Before (a b : PartitionRef × Message) : Prop := a.2.offset < b.2.offset

instance : Std.Irrefl Before := ⟨fun a h => Int.lt_irrefl a.2.offset h⟩

instance : Std.Antisymm Before :=
  ⟨fun a _ h h' => absurd (Int.lt_trans h h') (Int.lt_irrefl a.2.offset)⟩

/-! ## Blocks -/

/-- Messages of one partition in order of their offsets, which lie between two bounds. -/
structure Block (r : PartitionRef) (lo hi : Offset) (qs : List (PartitionRef × Message)) :
    Prop where
  place : ∀ q ∈ qs, q.1 = r
  bounds : ∀ q ∈ qs, lo ≤ q.2.offset ∧ q.2.offset < hi
  order : qs.Pairwise Before

theorem block_nil (r : PartitionRef) (lo hi : Offset) : Block r lo hi [] :=
  ⟨by simp, by simp, .nil⟩

theorem Block.append {r : PartitionRef} {lo mid hi : Offset} {xs ys : List (PartitionRef × Message)}
    (hx : Block r lo mid xs) (hy : Block r mid hi ys) (hlo : lo ≤ mid) (hhi : mid ≤ hi) :
    Block r lo hi (xs ++ ys) where
  place q hq := (List.mem_append.1 hq).elim (hx.place q) (hy.place q)
  bounds q hq := by
    rcases List.mem_append.1 hq with hq | hq
    · have := hx.bounds q hq
      exact ⟨this.1, Int.lt_of_lt_of_le this.2 hhi⟩
    · have := hy.bounds q hq
      exact ⟨Int.le_trans hlo this.1, this.2⟩
  order := by
    refine List.pairwise_append.2 ⟨hx.order, hy.order, fun a ha b hb => ?_⟩
    exact Int.lt_of_lt_of_le (hx.bounds a ha).2 (hy.bounds b hb).1

/-- The part of a block below an offset is where the block begins. -/
theorem Block.filter_lt_prefix {r : PartitionRef} {lo hi : Offset}
    {qs : List (PartitionRef × Message)} (h : Block r lo hi qs) (o : Offset) :
    qs.filter (fun q => q.2.offset < o) <+: qs := by
  have horder := h.order
  clear h
  induction qs with
  | nil => exact List.prefix_rfl
  | cons q qs ih =>
    rw [List.pairwise_cons] at horder
    by_cases hq : q.2.offset < o
    · rw [List.filter_cons_of_pos (by simpa using hq), List.prefix_cons_inj]
      exact ih horder.2
    · have hnone : qs.filter (fun q => q.2.offset < o) = [] := by
        apply List.filter_eq_nil_iff.2
        intro q' hq' hlt
        exact hq (Int.lt_trans (horder.1 q' hq') (by simpa using hlt))
      rw [List.filter_cons_of_neg (by simpa using hq), hnone]
      exact List.nil_prefix

/-- A request that stores records at the watermark stores them in a block. -/
theorem block_of_request {s : Store} (hb : s.Bounded) {r : PartitionRef} {q : Partition.Command}
    (hf : s.Fits (r, q)) {rs : List Record} (hrs : q.handedOut = rs.length) :
    Block r (s r).watermark ((s.step (r, q)).2 r).watermark
      ((stamps (s r).watermark rs).map (r, ·)) := by
  have hw : ((s.step (r, q)).2 r).watermark = (s r).watermark + rs.length := by
    rw [Store.step_self s (r, q), Partition.watermark_step (hb r).nonneg hf, hrs]
  rw [hw]
  refine ⟨?_, ?_, ?_⟩
  · intro x hx
    obtain ⟨m, -, rfl⟩ := List.mem_map.1 hx
    rfl
  · intro x hx
    obtain ⟨m, hm, rfl⟩ := List.mem_map.1 hx
    exact mem_stamps_bounds hm
  · apply List.pairwise_map.2
    have horder := Offset.pairwise_upFrom (s r).watermark rs.length
    rw [← stamps_offsets, List.pairwise_map] at horder
    exact horder

/-! ## What one command publishes -/

/-- The partition that hashed routing chooses for a key. -/
def keyRef (t : Topic) (topic key : String) : PartitionRef :=
  ref topic (Routing.keyHash key % t.count)

section
variable {b : Broker} (hn : b.Named) {topic : String} {t : Topic} (ht : b.topics[topic]? = some t)
  (hr : t.routing = .hashed) (key : String)
include hn ht hr

theorem store_keyRef (cs : Counters) :
    ref topic (t.route cs key) = keyRef t topic key ∧
      (t.partitions.get (t.route cs key)).watermark = (b.store (keyRef t topic key)).watermark := by
  have href : ref topic (t.route cs key) = keyRef t topic key := by
    rw [Topic.route_hashed hr, keyRef]
  refine ⟨href, ?_⟩
  have hstore := store_of_topic ht (List.getElem?_eq_getElem (t.route cs key).isLt)
  rw [hn topic t ht] at hstore
  rw [← href, ref, hstore]
  rfl

theorem topicTraffic_keyRef {c : Topic.Command} {q : Partition.Command}
    (hreq : t.request b.counters c = some (↑(t.route b.counters key), q)) :
    b.topicTraffic topic c = [(keyRef t topic key, q)] := by
  rw [← (store_keyRef hn ht hr key b.counters).1]
  simp only [topicTraffic, ht, hreq, Option.map_some, Option.toList_some, hn topic t ht, ref]

end

/-- A command that asks the partition once, to store records, stores them in a block. -/
theorem block_of_traffic {b : Broker} (hn : b.Named) (hb : b.store.Bounded) {c : Command}
    {r : PartitionRef} {q : Partition.Command} {rs : List Record} (ht : b.traffic c = [(r, q)])
    (hrs : q.handedOut = rs.length) (hf : b.Fits c) :
    Block r (b.store r).watermark ((b.step c).2.store r).watermark
      ((stamps (b.store r).watermark rs).map (r, ·)) := by
  have hstore := (store_step hn c).1
  rw [Fits, ht] at hf
  rw [ht] at hstore
  rw [← hstore]
  exact block_of_request hb hf.1 hrs

theorem block_publish {b : Broker} (hn : b.Named) (hb : b.store.Bounded) {topic : String}
    {t : Topic} (ht : b.topics[topic]? = some t) (hr : t.routing = .hashed) {key : String}
    {payload : Payload} (hf : b.Fits (.publish topic key payload)) :
    Block (keyRef t topic key) (b.store (keyRef t topic key)).watermark
      ((b.step (.publish topic key payload)).2.store (keyRef t topic key)).watermark
      (publications (.publish topic key payload, (b.step (.publish topic key payload)).1)) := by
  obtain ⟨href, hw⟩ := store_keyRef hn ht hr key b.counters
  have hpub : publications (.publish topic key payload, (b.step (.publish topic key payload)).1) =
      (stamps (b.store (keyRef t topic key)).watermark [⟨some key, payload⟩]).map
        (keyRef t topic key, ·) := by
    simp only [step, publish_ok ht]
    rw [← hw, ← href]
    rfl
  rw [hpub]
  exact block_of_traffic hn hb (topicTraffic_keyRef hn ht hr key rfl) rfl hf

theorem block_publishBatch {b : Broker} (hn : b.Named) (hb : b.store.Bounded) {topic : String}
    {t : Topic} (ht : b.topics[topic]? = some t) (hr : t.routing = .hashed) {key : String}
    {payloads : List Payload} (hf : b.Fits (.publishBatch topic key payloads)) :
    Block (keyRef t topic key) (b.store (keyRef t topic key)).watermark
      ((b.step (.publishBatch topic key payloads)).2.store (keyRef t topic key)).watermark
      (publications (.publishBatch topic key payloads,
        (b.step (.publishBatch topic key payloads)).1)) := by
  obtain ⟨href, hw⟩ := store_keyRef hn ht hr key b.counters
  have hpub : publications (.publishBatch topic key payloads,
      (b.step (.publishBatch topic key payloads)).1) =
      (stamps (b.store (keyRef t topic key)).watermark (payloads.map (⟨some key, ·⟩))).map
        (keyRef t topic key, ·) := by
    simp only [step, publishBatch_ok ht]
    rw [← hw, ← href]
    rfl
  rw [hpub]
  exact block_of_traffic hn hb (topicTraffic_keyRef hn ht hr key rfl) rfl hf

theorem bounded_step {b : Broker} (hn : b.Named) (hb : b.store.Bounded) {c : Command}
    (hf : b.Fits c) : (b.step c).2.store.Bounded := by
  rw [← (store_step hn c).1]
  exact Store.bounded_run hb hf

theorem watermark_le_step {b : Broker} (hn : b.Named) (hb : b.store.Bounded) {c : Command}
    (hf : b.Fits c) (r : PartitionRef) :
    (b.store r).watermark ≤ ((b.step c).2.store r).watermark := by
  rw [← (store_step hn c).1]
  exact Store.watermark_le_run hb hf r

/-- A topic keeps its routing, and its keys their partitions. -/
theorem hashed_step {b : Broker} (hn : b.Named) {topic : String} {t : Topic}
    (ht : b.topics[topic]? = some t) (c : Command) :
    ∃ t', (b.step c).2.topics[topic]? = some t' ∧ t'.routing = t.routing ∧
      ∀ key, keyRef t' topic key = keyRef t topic key := by
  obtain ⟨t', ht', he⟩ := topic_step hn c ht
  have hcount : t'.count = t.count := congrArg (fun s => s.2.1) he
  refine ⟨t', ht', congrArg (fun s => s.2.2) he, ?_⟩
  intro key
  rw [keyRef, hcount, keyRef]

theorem block_publishTimes {b : Broker} (hn : b.Named) (hb : b.store.Bounded) {topic : String}
    {t : Topic} (ht : b.topics[topic]? = some t) (hr : t.routing = .hashed) {key : String}
    {payload : Payload} {times : Nat} (hf : b.Fits (.publishTimes topic key payload times)) :
    ∃ ps b', b.publishTimes topic key payload times = .ok (ps, b') ∧
      (b.store (keyRef t topic key)).watermark ≤ (b'.store (keyRef t topic key)).watermark ∧
      Block (keyRef t topic key) (b.store (keyRef t topic key)).watermark
        (b'.store (keyRef t topic key)).watermark
        (ps.map fun p => (ref topic p.partition, ⟨p.offset, some key, payload⟩)) := by
  induction times generalizing b t with
  | zero => exact ⟨[], b, rfl, Int.le_refl _, block_nil _ _ _⟩
  | succ times ih =>
    -- the requests of the first message, then those of the others
    have hsplit := (Run.along_append b.store (b.traffic (.publish topic key payload))
      ((b.step (.publish topic key payload)).2.traffic (.publishTimes topic key payload times))).1 hf
    rw [(store_step hn (.publish topic key payload)).1] at hsplit
    obtain ⟨t', ht', hr', hkey⟩ := hashed_step hn ht (.publish topic key payload)
    obtain ⟨ps, b', hps, hle, hblock⟩ := ih (named_step hn _) (bounded_step hn hb hsplit.1) ht'
      (hr'.trans hr) hsplit.2
    rw [hkey key] at hle hblock
    have hfirst := block_publish hn hb ht hr hsplit.1
    have hmono := watermark_le_step hn hb hsplit.1 (keyRef t topic key)
    refine ⟨(t.add b.counters key payload).1 :: ps, b', ?_, Int.le_trans hmono hle, ?_⟩
    · simp only [step, publish_ok ht, settle] at hps
      simp only [publishTimes, publish_ok ht]
      simp only [hps, bind, Except.bind]
      rfl
    · have hall := hfirst.append hblock hmono hle
      simp only [step, publish_ok ht] at hall
      exact hall

/-- The topic and the key under which a command publishes. -/
def Command.address : Command → Option (String × String)
  | .publish topic key _ => some (topic, key)
  | .publishBatch topic key _ => some (topic, key)
  | .publishTimes topic key _ _ => some (topic, key)
  | _ => none

theorem mem_publications {c : Command} {a : Answer} {q : PartitionRef × Message}
    (h : q ∈ publications (c, a)) :
    ∃ key, c.address = some (q.1.topic, key) ∧ q.2.key = some key := by
  unfold publications at h
  split at h
  · rename_i heq
    cases heq
    rw [List.mem_singleton] at h
    subst h
    exact ⟨_, rfl, rfl⟩
  · rename_i heq
    cases heq
    obtain ⟨m, hm, rfl⟩ := List.mem_map.1 h
    refine ⟨_, rfl, ?_⟩
    have hrec := List.mem_map_of_mem (f := Message.record) hm
    rw [stamps_records, List.mem_map] at hrec
    obtain ⟨payload, -, he⟩ := hrec
    exact (congrArg Record.key he).symm
  · rename_i heq
    cases heq
    obtain ⟨p, -, rfl⟩ := List.mem_map.1 h
    exact ⟨_, rfl, rfl⟩
  · simp at h

theorem publishedUnder_single (topic key : String) (c : Command) (a : Answer) :
    publishedUnder topic key [(c, a)] =
      if c.address = some (topic, key) then publications (c, a) else [] := by
  rw [publishedUnder, List.flatMap_cons, List.flatMap_nil, List.append_nil]
  split
  · rename_i h
    apply List.filter_eq_self.2
    intro q hq
    obtain ⟨key', ha, hkey⟩ := mem_publications hq
    rw [h] at ha
    cases ha
    simp [hkey]
  · rename_i h
    refine List.filter_eq_nil_iff.2 fun q hq hand => h ?_
    obtain ⟨key', ha, hkey⟩ := mem_publications hq
    simp only [hkey, Option.some.injEq, decide_eq_true_eq] at hand
    rw [ha, hand.1, hand.2]

/-- Under an unknown topic nothing is published. -/
theorem publishedUnder_unknown {b : Broker} {topic : String} (h : b.topics[topic]? = none)
    (key : String) (c : Command) : publishedUnder topic key [(c, (b.step c).1)] = [] := by
  rw [publishedUnder_single]
  apply ite_eq_right_iff.2
  intro ha
  cases c with
  | publish topic' key' payload =>
    cases ha
    simp only [step, publish_unknown h]
    rfl
  | publishBatch topic' key' payloads =>
    cases ha
    simp only [step, publishBatch_unknown h]
    rfl
  | publishTimes topic' key' payload times =>
    cases ha
    cases times with
    | zero => simp [step, publishTimes, settle, publications]
    | succ times =>
      simp only [step, publishTimes, publish_unknown h]
      rfl
  | _ => cases ha

/-- What a command publishes under a key is a block at the end of the key's partition. -/
theorem block_step {b : Broker} (hn : b.Named) (hb : b.store.Bounded) {topic : String}
    {t : Topic} (ht : b.topics[topic]? = some t) (hr : t.routing = .hashed) (key : String)
    {c : Command} (hf : b.Fits c) :
    Block (keyRef t topic key) (b.store (keyRef t topic key)).watermark
      ((b.step c).2.store (keyRef t topic key)).watermark
      (publishedUnder topic key [(c, (b.step c).1)]) := by
  rw [publishedUnder_single]
  split
  · rename_i ha
    cases c with
    | publish topic' key' payload =>
      cases ha
      exact block_publish hn hb ht hr hf
    | publishBatch topic' key' payloads =>
      cases ha
      exact block_publishBatch hn hb ht hr hf
    | publishTimes topic' key' payload times =>
      cases ha
      obtain ⟨ps, b', hps, -, hblock⟩ := block_publishTimes hn hb ht hr hf
      have hsorted : ps.mergeSort placementLe = ps := by
        -- all in one partition and in the order of offsets, which is how the answer lists them
        apply List.mergeSort_of_pairwise
        apply (List.pairwise_map.1 hblock.order).imp_of_mem
        intro p q hp hq hlt
        have hpq : p.partition = q.partition := by
          have h1 := hblock.place _ (List.mem_map_of_mem hp)
          have h2 := hblock.place _ (List.mem_map_of_mem hq)
          exact congrArg PartitionRef.index (h1.trans h2.symm)
        have hle : p.offset ≤ q.offset := Int.le_of_lt hlt
        simp [placementLe, hpq, hle]
      simp only [step, hps, settle, publications, hsorted]
      exact hblock
    | _ => cases ha
  · exact block_nil _ _ _

/-! ## A run -/

/-- What was published under a key of a topic, if the topic is there and hashed. -/
structure Keyed (topic key : String) (b : Broker) (tr : List (Command × Answer)) : Prop where
  named : b.Named
  bounded : b.store.Bounded
  unknown : b.topics[topic]? = none → publishedUnder topic key tr = []
  block : ∀ t : Topic, b.topics[topic]? = some t → t.routing = .hashed →
    Block (keyRef t topic key) 0 (b.store (keyRef t topic key)).watermark
      (publishedUnder topic key tr)

theorem publishedUnder_append (topic key : String) (tr tr' : List (Command × Answer)) :
    publishedUnder topic key (tr ++ tr') =
      publishedUnder topic key tr ++ publishedUnder topic key tr' := by
  rw [publishedUnder, List.flatMap_append, List.filter_append, ← publishedUnder, ← publishedUnder]

theorem keyed_step {topic key : String} {b : Broker} {tr : List (Command × Answer)}
    (h : Keyed topic key b tr) {c : Command} (hf : b.Fits c) :
    Keyed topic key (b.step c).2 (tr ++ [(c, (b.step c).1)]) := by
  refine ⟨named_step h.named c, bounded_step h.named h.bounded hf, ?_, ?_⟩
  · intro hnone
    have hb : b.topics[topic]? = none := by
      cases ht : b.topics[topic]? with
      | none => rfl
      | some t =>
        obtain ⟨t', ht', -⟩ := hashed_step h.named ht c
        rw [hnone] at ht'
        cases ht'
    rw [publishedUnder_append, h.unknown hb, publishedUnder_unknown hb]
    rfl
  · intro t' ht' hr
    rw [publishedUnder_append]
    cases ht : b.topics[topic]? with
    | none =>
      rw [h.unknown ht, publishedUnder_unknown ht]
      exact block_nil _ _ _
    | some t =>
      obtain ⟨t'', ht'', hrouting, hkey⟩ := hashed_step h.named ht c
      obtain rfl : t'' = t' := Option.some.inj (ht''.symm.trans ht')
      rw [hkey]
      rw [hrouting] at hr
      exact (h.block t ht hr).append (block_step h.named h.bounded ht hr key hf)
        (h.bounded _).nonneg (watermark_le_step h.named h.bounded hf _)

theorem keyed_run {config : Config} {cs : List Command} (hf : Run.Along step Fits { config } cs)
    (topic key : String) :
    Keyed topic key (Run.last step { config } cs) (transcript { config } cs) := by
  refine Run.invariant (Keyed topic key) (fun _ _ _ hc h => keyed_step h hc)
    ⟨named_new config, ?_, fun _ => rfl, fun t ht => by simp at ht⟩ hf
  rw [store_new]
  exact Store.bounded_fresh

/-! ## What a group gets -/

theorem received_from (id : String) (tr : List (Command × Answer)) (r : PartitionRef) :
    (received id tr).filter (fun q => q.1 = r) = (ofSource r (delivered id tr)).map (r, ·) := by
  unfold received
  induction delivered id tr with
  | nil => rfl
  | cons d ds ih =>
    rw [List.flatMap_cons, List.filter_append, ih, ofSource_cons, List.map_append]
    congr 1
    by_cases h : d.source = r
    · rw [if_pos h, h]
      exact List.filter_eq_self.2 fun q hq => by
        obtain ⟨m, -, rfl⟩ := List.mem_map.1 hq
        simp
    · rw [if_neg h]
      exact List.filter_eq_nil_iff.2 fun q hq => by
        obtain ⟨m, -, rfl⟩ := List.mem_map.1 hq
        simpa using h

/-- Of a block that a partition holds, a group that got the partition up to an offset got what lies
below this offset, in order. -/
theorem received_of_block {p : Partition} (hs : p.log.Stamped) {r : PartitionRef} {hi : Offset}
    {ps : List (PartitionRef × Message)} (hps : Block r 0 hi ps)
    (hstored : ∀ q ∈ ps, p.get? q.2.offset = some q.2) {id : String} {tr : List (Command × Answer)}
    {n : Nat} (hread : (ofSource r (delivered id tr)).map some = (Offset.upFrom 0 n).map p.get?) :
    (received id tr).filter (· ∈ ps) = ps.filter (fun q => q.2.offset < (n : Offset)) := by
  have hfrom : (received id tr).filter (· ∈ ps) =
      ((ofSource r (delivered id tr)).map (r, ·)).filter (· ∈ ps) := by
    rw [← received_from, List.filter_filter]
    apply List.filter_congr
    intro q _
    by_cases hq : q ∈ ps
    · simp [hq, hps.place q hq]
    · simp [hq]
  have horder : ((ofSource r (delivered id tr)).map (r, ·)).Pairwise Before := by
    have hup := Offset.pairwise_upFrom 0 n
    rw [← Partition.offsets_of_read hs hread, List.pairwise_map] at hup
    exact List.pairwise_map.2 hup
  rw [hfrom]
  apply (horder.filter _).eq_of_mem_iff (hps.order.filter _)
  intro q
  -- two sequences in the same strict order are equal once they have the same messages
  simp only [List.mem_filter, List.mem_map, decide_eq_true_eq]
  constructor
  · rintro ⟨⟨m, hm, rfl⟩, hq⟩
    exact ⟨hq, ((Partition.mem_read_iff hs hread).1 hm).2.2⟩
  · rintro ⟨hq, hlt⟩
    have hm := (Partition.mem_read_iff hs hread).2 ⟨hstored q hq, (hps.bounds q hq).1, hlt⟩
    exact ⟨⟨q.2, hm, by rw [← hps.place q hq]⟩, hq⟩

theorem mem_writes_of_published {topic key : String} {tr : List (Command × Answer)}
    {q : PartitionRef × Message} (h : q ∈ publishedUnder topic key tr) : q ∈ writes tr := by
  obtain ⟨⟨c, a⟩, hmem, hq⟩ := List.mem_flatMap.1 (List.mem_of_mem_filter h)
  refine List.mem_flatMap.2 ⟨(c, a), hmem, ?_⟩
  obtain ⟨key', haddress, -⟩ := mem_publications hq
  cases c <;> first | exact hq | cases haddress

/-- **Per-key order.** All that was published under a key to a topic with hashed routing sits in one
partition at increasing offsets. What a group got of it is a beginning of it, in the order of
publication; and it is all of it when every member of a group with this partition polled uncapped
and no offset below the watermark is empty. -/
theorem key_order {config : Config} {cs : List Command} (hfit : Run.Along step Fits { config } cs)
    {topic : String} {t : Topic} (ht : (({ config } : Broker).run cs).2.topics[topic]? = some t)
    (hr : t.routing = .hashed) (key id : String) :
    let p := (({ config } : Broker).run cs).2.store (keyRef t topic key)
    let ps := publishedUnder topic key (transcript { config } cs)
    (∀ q ∈ ps, q.1 = keyRef t topic key ∧ p.get? q.2.offset = some q.2) ∧
    ps.Pairwise (fun a b => a.2.offset < b.2.offset) ∧
    (received id (transcript { config } cs)).filter (· ∈ ps) <+: ps ∧
    ∀ g : ConsumerGroup, (({ config } : Broker).run cs).2.groups[id]? = some g →
      keyRef t topic key ∈ g.partitions →
      (∀ o : Offset, 0 ≤ o → o < p.watermark → p.get? o ≠ none) →
      ∀ polls : List Command,
        (∀ c ∈ polls, ∃ consumer, (({ config } : Broker).run cs).2.Uncapped id consumer c) →
        (∀ consumer ∈ g.members, ∃ c ∈ polls,
          (({ config } : Broker).run cs).2.Uncapped id consumer c) →
        (received id (transcript { config } (cs ++ polls))).filter (· ∈ ps) = ps := by
  intro p ps
  rw [run_eq] at ht
  have hp : p = (Run.last step ({ config } : Broker) cs).store (keyRef t topic key) := by
    simp only [p, run_eq]
  have hblock := (keyed_run hfit topic key).block t ht hr
  have hstamp := stamped_run hfit (keyRef t topic key)
  rw [← hp] at hblock hstamp
  have hstored : ∀ q ∈ ps, p.get? q.2.offset = some q.2 := by
    intro q hq
    rw [hp, get?_iff_written hfit, ← hblock.place q hq]
    exact ⟨rfl, mem_writes_of_published hq⟩
  refine ⟨fun q hq => ⟨hblock.place q hq, hstored q hq⟩, hblock.order, ?_, ?_⟩
  · have hread := (delivered_eq hfit id topic (Routing.keyHash key % t.count)).1
    rw [received_of_block hstamp hblock hstored (hp ▸ hread)]
    exact hblock.filter_lt_prefix _
  · intro g hg hmem hfull polls hpolls hall
    rw [run_eq] at hg hpolls hall
    obtain ⟨n, hn, hread⟩ := delivered_after_polls hfit hg hmem hpolls hall
    rw [received_of_block hstamp hblock hstored (hp ▸ hread)]
    refine List.filter_eq_self.2 fun q hq => decide_eq_true ?_
    apply Partition.offset_lt_of_full (hp ▸ hn) (hstored q hq)
    intro o h0 hlt
    exact hfull o h0 (Int.lt_trans hlt (hblock.bounds q hq).2)

/-- A key's partition changes hands in the middle of the key's messages. -/
def handover : List Command :=
  [.createTopic "t" 2 .hashed, .addConsumer "g" "b", .subscribe "g" "t", .publish "t" "k" [1],
    .poll "g" "b", .publishBatch "t" "k" [[2], [3]], .publish "t" "x" [4], .addConsumer "g" "a",
    .onGroup "g" (.pollMax "a" 1)]

theorem key_order_handover :
    Run.Along step Fits ({} : Broker) handover ∧ ∃ (t : Topic) (g : ConsumerGroup),
      (({} : Broker).run handover).2.topics["t"]? = some t ∧ t.routing = .hashed ∧
      (({} : Broker).run handover).2.groups["g"]? = some g ∧ keyRef t "t" "k" ∈ g.partitions ∧
      (let ps := publishedUnder "t" "k" (transcript {} handover);
        (received "g" (transcript {} handover)).filter (· ∈ ps) <+: ps ∧
        (received "g" (transcript {} (handover ++
          [.poll "g" "a", .onGroup "g" (.pollMax "b" 9)]))).filter (· ∈ ps) = ps) := by
  have hfit : Run.Along step Fits ({} : Broker) handover := by decide +kernel
  have ht : (({} : Broker).run handover).2.topics["t"]?.isSome = true := by decide +kernel
  have hg : (({} : Broker).run handover).2.groups["g"]?.isSome = true := by decide +kernel
  have hr : (Option.get _ ht).routing = .hashed := by decide +revert +kernel
  have hmem : keyRef (Option.get _ ht) "t" "k" ∈ (Option.get _ hg).partitions := by
    decide +revert +kernel
  have hmembers : (Option.get _ hg).members = ["b", "a"] := by decide +revert +kernel
  have hwatermark : ((({} : Broker).run handover).2.store
      (keyRef (Option.get _ ht) "t" "k")).watermark = 3 := by decide +revert +kernel
  have hstored : ∀ o ∈ Offset.upFrom 0 3, ((({} : Broker).run handover).2.store
      (keyRef (Option.get _ ht) "t" "k")).get? o ≠ none := by decide +revert +kernel
  have ha : (({} : Broker).run handover).2.Uncapped "g" "a" (.poll "g" "a") :=
    ⟨.poll "a", Or.inl ⟨rfl, rfl⟩, none, by decide +kernel, by decide +kernel⟩
  have hb : (({} : Broker).run handover).2.Uncapped "g" "b" (.onGroup "g" (.pollMax "b" 9)) :=
    ⟨.pollMax "b" 9, Or.inr rfl, some 9, by decide +kernel, by decide +kernel⟩
  obtain ⟨-, -, hprefix, hall⟩ := key_order hfit (Option.some_get ht).symm hr "k" "g"
  refine ⟨hfit, _, _, (Option.some_get ht).symm, hr, (Option.some_get hg).symm, hmem, hprefix,
    hall _ (Option.some_get hg).symm hmem ?_ _ ?_ ?_⟩
  · intro o h0 hlt
    rw [hwatermark] at hlt
    exact hstored o (Offset.mem_upFrom.2 ⟨h0, by lia⟩)
  · intro c hc
    simp only [List.mem_cons, List.not_mem_nil, or_false] at hc
    rcases hc with rfl | rfl
    · exact ⟨"a", ha⟩
    · exact ⟨"b", hb⟩
  · intro consumer hc
    rw [hmembers] at hc
    simp only [List.mem_cons, List.not_mem_nil, or_false] at hc
    rcases hc with rfl | rfl
    · exact ⟨_, by simp, hb⟩
    · exact ⟨_, List.mem_cons_self, ha⟩

end LogBroker.Broker
