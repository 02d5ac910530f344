import Mathlib
import LogBroker.Proofs.Broker.View
import LogBroker.Proofs.Partition.Appends
import LogBroker.Proofs.Routing

/-!
# Publishing in parallel

A call that publishes a message takes three steps: it chooses the partition, which takes a turn; it
appends the message there; it counts the message (`Call.advance`). Each step is atomic, the call is
not. Of several calls one may be routed first and append last, so which call gets which offset
depends on how their steps interleave. What they get together does not.

`Publishing` is a broker with calls under way. Its turns are steps of calls, and any other commands
that touch neither the topic nor its turns nor the count (`Publishing.Quiet`).

* `Progress` is the invariant. It looks at the calls as a bag: to which places they were routed, how
  many messages each partition took, how many were counted. A step of any call preserves it
  (`Progress.advance`), whichever call that is (`Progress.perm`).
* `Progress.agree`: when all calls are done, the invariant leaves one outcome.
* `run_publish`: one call after the other is one of the ways to interleave.

The offsets that a partition gives out follow its watermark without a gap as long as its counter
does not wrap around, and only so long (`not_contiguous_wrapping`).
-/
namespace LogBroker.Broker

/-- How far a call got that publishes one message. -/
inductive Stage where
  | waiting
  /-- The partition is chosen. -/
  | routed (index : Nat)
  /-- The message is appended. -/
  | stored (p : Placement)
  /-- The message is counted, and the call has returned. -/
  | counted (p : Placement)
  deriving DecidableEq

namespace Stage

/-- How many steps were taken. -/
def level : Stage → Nat
  | waiting => 0
  | routed _ => 1
  | stored _ => 2
  | counted _ => 3

/-- The partition that was chosen. -/
def index? : Stage → Option Nat
  | waiting => none
  | routed index => some index
  | stored p | counted p => some p.partition

/-- Where the message was stored. -/
def placed? : Stage → Option Placement
  | waiting | routed _ => none
  | stored p | counted p => some p

/-- What the call returned. -/
def answer? : Stage → Option Answer
  | counted p => some (.placed p)
  | _ => none

end Stage

/-- A call that publishes one message. -/
structure Call where
  key : String
  payload : Payload
  stage : Stage := .waiting
  deriving DecidableEq

/-- The next step of a call that publishes to a topic. -/
def Call.advance (name : String) (c : Call) (b : Broker) : Call × Broker :=
  match b.topics[name]? with
  | none => (c, b)
  | some t =>
    match c.stage with
    | .waiting =>
      ({ c with stage := .routed (t.route b.counters c.key) },
        { b with counters := t.routing.advance b.counters })
    | .routed index =>
      match t.partitions[index]? with
      | none => (c, b)
      | some p =>
        let (offset, p) := p.append ⟨some c.key, c.payload⟩
        ({ c with stage := .stored ⟨index, offset⟩ }, b.setTopic name (t.setPartition index p))
    | .stored p => ({ c with stage := .counted p }, b.countPublished 1)
    | .counted _ => (c, b)

/-- A broker with calls under way that publish to a topic. -/
structure Publishing where
  broker : Broker
  calls : List Call

/-- Whose turn it is: that of one of the calls, or of a command of somebody else. -/
inductive Turn where
  | call (i : Nat)
  | other (c : Command)
  deriving DecidableEq

/-- The topic, the turn of its routing and the number of published messages are what they were. -/
def Untouched (name : String) (b b' : Broker) : Prop :=
  b'.topics[name]? = b.topics[name]? ∧
    b.topics[name]?.map (·.routing.turn b'.counters) =
      b.topics[name]?.map (·.routing.turn b.counters) ∧
    b'.published = b.published

instance (name : String) (b b' : Broker) : Decidable (Untouched name b b') :=
  inferInstanceAs (Decidable (_ ∧ _ ∧ _))

namespace Publishing

/-- All calls are still to be made. -/
def start (b : Broker) (msgs : List (String × Payload)) : Publishing :=
  ⟨b, msgs.map fun m => { key := m.1, payload := m.2 }⟩

/-- One turn, with what is returned to whoever took it. -/
def step (name : String) (s : Publishing) : Turn → Option Answer × Publishing
  | .call i =>
    match s.calls[i]? with
    | none => (none, s)
    | some c => let (c, b) := c.advance name s.broker; (c.stage.answer?, ⟨b, s.calls.set i c⟩)
  | .other c => let (a, b) := s.broker.step c; (some a, { s with broker := b })

/-- A command of somebody else touches neither the topic nor its turns nor the count. -/
def Quiet (name : String) (s : Publishing) : Turn → Prop
  | .call _ => True
  | .other c => Untouched name s.broker (s.broker.step c).2

instance (name : String) (s : Publishing) : ∀ turn : Turn, Decidable (s.Quiet name turn)
  | .call _ => isTrue trivial
  | .other c => inferInstanceAs (Decidable (Untouched name s.broker (s.broker.step c).2))

end Publishing

/-! ## The calls as a bag -/

/-- The keys of the calls that were routed, each with its place. -/
def routed (calls : List Call) : List (String × Nat) :=
  calls.filterMap fun c => c.stage.index?.map (c.key, ·)

/-- Where messages were stored. -/
def placed (calls : List Call) : List Placement := calls.filterMap (·.stage.placed?)

/-- How many messages were counted. -/
def counted (calls : List Call) : Nat := calls.countP (·.stage.level = 3)

/-- The offsets that one of the partitions gave out. -/
def offsetsAt (index : Nat) (ps : List Placement) : List Offset :=
  (ps.filter (·.partition = index)).map (·.offset)

theorem offsetsAt_cons (index : Nat) (p : Placement) (ps : List Placement) :
    offsetsAt index (p :: ps) = (if p.partition = index then [p.offset] else []) ++
      offsetsAt index ps := by
  by_cases h : p.partition = index <;> simp [offsetsAt, h]

theorem offsetsAt_perm (index : Nat) {ps qs : List Placement} (h : ps.Perm qs) :
    (offsetsAt index ps).Perm (offsetsAt index qs) :=
  (h.filter _).map _

theorem length_offsetsAt (index : Nat) (ps : List Placement) :
    (offsetsAt index ps).length = (ps.map (·.partition)).count index := by
  rw [offsetsAt, List.length_map, List.count, List.countP_map, List.countP_eq_length_filter]
  rfl

theorem count_offsetsAt (p : Placement) (ps : List Placement) :
    (offsetsAt p.partition ps).count p.offset = ps.count p := by
  induction ps with
  | nil => rfl
  | cons q ps ih =>
    rw [offsetsAt_cons, List.count_append, ih, List.count_cons]
    obtain ⟨index, offset⟩ := p
    obtain ⟨index', offset'⟩ := q
    by_cases hi : index' = index
    · by_cases ho : offset' = offset <;> simp [hi, ho, Nat.add_comm]
    · simp [hi]

/-- Placements are told apart by what each partition gave out. -/
theorem perm_of_offsetsAt {ps qs : List Placement}
    (h : ∀ index, (offsetsAt index ps).Perm (offsetsAt index qs)) : ps.Perm qs := by
  rw [List.perm_iff_count]
  intro p
  rw [← count_offsetsAt, ← count_offsetsAt, (h p.partition).count_eq]

/-! ## What the topic took -/

/-- The topic took messages at some places, each partition the offsets from its watermark on. -/
structure Grown (t₀ : Topic) (ps : List Placement) (t : Topic) : Prop where
  shape : t.shape = t₀.shape
  partitions : ∀ (index : Nat) (p : Partition), t₀.partitions[index]? = some p →
    ∃ rs : List Record, t.partitions[index]? = some (Run.last Partition.append p rs) ∧
      (offsetsAt index ps).Perm (p.watermark.ticks rs.length)

theorem Grown.refl (t : Topic) : Grown t [] t :=
  ⟨rfl, fun _ _ hp => ⟨[], hp, .nil⟩⟩

theorem Grown.perm {t₀ t : Topic} {ps qs : List Placement} (h : Grown t₀ ps t) (hp : ps.Perm qs) :
    Grown t₀ qs t where
  shape := h.shape
  partitions index p hp₀ := by
    obtain ⟨rs, ht, hoff⟩ := h.partitions index p hp₀
    exact ⟨rs, ht, (offsetsAt_perm index hp).symm.trans hoff⟩

/-- One append more. -/
theorem Grown.store {t₀ t : Topic} {ps : List Placement} (h : Grown t₀ ps t) {index : Nat}
    {p : Partition} (hp : t.partitions[index]? = some p) (r : Record) :
    Grown t₀ (⟨index, p.watermark⟩ :: ps) (t.setPartition index (p.append r).2) where
  shape := by rw [Topic.shape_setPartition, h.shape]
  partitions j p₀ hp₀ := by
    obtain ⟨rs, ht, hoff⟩ := h.partitions j p₀ hp₀
    rw [offsetsAt_cons]
    by_cases hj : index = j
    · subst hj
      obtain rfl : p = Run.last Partition.append p₀ rs := Option.some.inj (hp.symm.trans ht)
      refine ⟨rs ++ [r], ?_, ?_⟩
      · obtain ⟨hlt, -⟩ := List.getElem?_eq_some_iff.1 hp
        rw [Run.last_append, Topic.setPartition, List.getElem?_set_self hlt]
        rfl
      · rw [if_pos rfl, List.length_append, List.length_singleton, Offset.ticks_succ,
          Partition.watermark_appends]
        exact (hoff.cons _).trans (List.perm_append_singleton _ _).symm
    · refine ⟨rs, ?_, ?_⟩
      · rw [Topic.setPartition, List.getElem?_set_ne hj, ht]
      · rwa [if_neg hj, List.nil_append]

/-! ## The invariant -/

variable {name : String} {b₀ : Broker} {t₀ : Topic}

/-- What the calls did to the broker so far, whichever of them did it. -/
structure Progress (name : String) (b₀ : Broker) (t₀ : Topic) (b : Broker) (calls : List Call) :
    Prop where
  topic : ∃ t, b.topics[name]? = some t ∧ Grown t₀ (placed calls) t
  turn : t₀.routing.turn b.counters =
    t₀.routing.turn (t₀.routing.advance^[(routed calls).length] b₀.counters)
  picks : ((routed calls).map Prod.snd).Perm
    (t₀.routing.indices b₀.counters (((routed calls).map Prod.fst).map (·, t₀.count)))
  published : b.published = b₀.published + UInt64.ofNat (counted calls)

variable {b : Broker} {calls : List Call}

/-- A call that took no step counts for nothing. -/
theorem progress_waiting_iff (key : String) (payload : Payload) :
    Progress name b₀ t₀ b ({ key, payload } :: calls) ↔ Progress name b₀ t₀ b calls :=
  ⟨fun h => ⟨h.topic, h.turn, h.picks, h.published⟩,
    fun h => ⟨h.topic, h.turn, h.picks, h.published⟩⟩

theorem progress_nil (h : b₀.topics[name]? = some t₀) : Progress name b₀ t₀ b₀ [] :=
  ⟨⟨t₀, h, .refl t₀⟩, rfl, .nil, (UInt64.add_zero _).symm⟩

theorem progress_start (h : b₀.topics[name]? = some t₀) (msgs : List (String × Payload)) :
    Progress name b₀ t₀ b₀ (Publishing.start b₀ msgs).calls := by
  induction msgs with
  | nil => exact progress_nil h
  | cons m msgs ih => exact (progress_waiting_iff m.1 m.2).2 ih

theorem Progress.perm (h : Progress name b₀ t₀ b calls) {calls' : List Call}
    (hp : calls.Perm calls') : Progress name b₀ t₀ b calls' := by
  have hrouted : (routed calls).Perm (routed calls') := hp.filterMap _
  obtain ⟨t, ht, hgrown⟩ := h.topic
  refine ⟨⟨t, ht, hgrown.perm (hp.filterMap _)⟩, ?_, ?_, ?_⟩
  · rw [h.turn, hrouted.length_eq]
  · exact (hrouted.map Prod.snd).symm.trans
      (h.picks.trans (t₀.routing.indices_perm _ (hrouted.map Prod.fst) _))
  · rw [h.published, counted, counted, hp.countP_eq]

/-- What is asked of the broker besides the calls is none of their business. -/
theorem Progress.other (h : Progress name b₀ t₀ b calls) {b' : Broker}
    (hb : Untouched name b b') : Progress name b₀ t₀ b' calls := by
  obtain ⟨htopic, hturn, hpublished⟩ := hb
  obtain ⟨t, ht, hgrown⟩ := h.topic
  rw [ht, Option.map_some, Option.map_some, Option.some.injEq,
    show t.routing = t₀.routing from congrArg (fun s => s.2.2) hgrown.shape] at hturn
  exact ⟨⟨t, htopic.trans ht, hgrown⟩, hturn.trans h.turn, h.picks, hpublished.trans h.published⟩

/-- Calls were routed to partitions that are there. -/
theorem Progress.lt_count (h : Progress name b₀ t₀ b calls) {key : String} {index : Nat}
    (hmem : (key, index) ∈ routed calls) : index < t₀.count :=
  t₀.routing.lt_of_mem_indices t₀.partitions_pos (h.picks.subset (List.mem_map_of_mem hmem))

/-- The step of a call, whatever step it is, and how far the call gets by it. -/
theorem Progress.advance {c : Call} (h : Progress name b₀ t₀ b (c :: calls)) :
    Progress name b₀ t₀ (c.advance name b).2 ((c.advance name b).1 :: calls) ∧
      (c.advance name b).1.key = c.key ∧ (c.advance name b).1.payload = c.payload ∧
      (c.advance name b).1.stage.level = min 3 (c.stage.level + 1) := by
  obtain ⟨t, ht, hgrown⟩ := h.topic
  have hcount : t.count = t₀.count := congrArg (fun s => s.2.1) hgrown.shape
  have hrouting : t.routing = t₀.routing := congrArg (fun s => s.2.2) hgrown.shape
  obtain ⟨key, payload, stage⟩ := c
  cases stage with
  | waiting =>
    rw [progress_waiting_iff] at h
    simp only [Call.advance, ht]
    refine ⟨⟨⟨t, ht, hgrown⟩, ?_, ?_, h.published⟩, trivial, trivial, rfl⟩
    · have hturn := t₀.routing.turn_advance_congr h.turn
      rw [← Function.iterate_succ_apply' t₀.routing.advance] at hturn
      rw [hrouting]
      exact hturn
    · have hindex : (t.route b.counters key : Nat) = t₀.routing.index
          (t₀.routing.advance^[(routed calls).length] b₀.counters) key t₀.count := by
        rw [← t₀.routing.index_congr h.turn key t₀.count, ← hrouting, ← hcount]
        rfl
      have hcons := t₀.routing.indices_cons_perm b₀.counters key ((routed calls).map Prod.fst)
        t₀.count
      rw [List.length_map, ← hindex] at hcons
      exact (h.picks.cons _).trans hcons.symm
  | routed index =>
    have hlt : index < t.count := hcount ▸ h.lt_count List.mem_cons_self
    have hp : t.partitions[index]? = some t.partitions[index] := List.getElem?_eq_getElem hlt
    simp only [Call.advance, ht, hp]
    refine ⟨⟨⟨_, Std.ExtTreeMap.getElem?_insert_self, hgrown.store hp ⟨some key, payload⟩⟩, h.turn,
      h.picks, h.published⟩, trivial, trivial, rfl⟩
  | stored p =>
    simp only [Call.advance, ht]
    refine ⟨⟨⟨t, ht, hgrown⟩, h.turn, h.picks, ?_⟩, trivial, trivial, rfl⟩
    have hold : b.published = b₀.published + UInt64.ofNat (counted calls) := h.published
    have hone : counted (⟨key, payload, .counted p⟩ :: calls) = counted calls + 1 :=
      List.countP_cons_of_pos rfl
    rw [hone, UInt64.ofNat_add, ← UInt64.add_assoc, ← hold]
    rfl
  | counted p =>
    simp only [Call.advance, ht]
    exact ⟨h, trivial, trivial, rfl⟩

/-! ## Turns -/

theorem Progress.step {s : Publishing} (h : Progress name b₀ t₀ s.broker s.calls) {turn : Turn}
    (hq : s.Quiet name turn) :
    Progress name b₀ t₀ (s.step name turn).2.broker (s.step name turn).2.calls := by
  cases turn with
  | other c => exact h.other hq
  | call i =>
    simp only [Publishing.step]
    cases hc : s.calls[i]? with
    | none => exact h
    | some c =>
      -- the call is taken out of the bag, takes its step and is put back
      obtain ⟨hlt, rfl⟩ := List.getElem?_eq_some_iff.1 hc
      have hout := h.perm (List.getElem_cons_eraseIdx_perm hlt).symm
      exact hout.advance.1.perm (List.set_perm_cons_eraseIdx hlt _).symm

theorem level_le (stage : Stage) : stage.level ≤ 3 := by
  cases stage <;> simp [Stage.level]

/-- A turn takes the call whose turn it is one step further. -/
theorem Progress.level {s : Publishing} (h : Progress name b₀ t₀ s.broker s.calls) (turn : Turn)
    {i : Nat} {c : Call} (hc : s.calls[i]? = some c) :
    ∃ c', (s.step name turn).2.calls[i]? = some c' ∧ c'.key = c.key ∧ c'.payload = c.payload ∧
      c'.stage.level = min 3 (c.stage.level + if turn = .call i then 1 else 0) := by
  have hstay : c.stage.level = min 3 (c.stage.level + 0) := by
    rw [Nat.add_zero, Nat.min_eq_right (level_le c.stage)]
  cases turn with
  | other q => exact ⟨c, hc, rfl, rfl, hstay⟩
  | call j =>
    by_cases hj : j = i
    · subst hj
      obtain ⟨hlt, rfl⟩ := List.getElem?_eq_some_iff.1 hc
      obtain ⟨-, hadvance⟩ := (h.perm (List.getElem_cons_eraseIdx_perm hlt).symm).advance
      rw [if_pos rfl]
      refine ⟨_, ?_, hadvance⟩
      simp only [Publishing.step, hc]
      exact List.getElem?_set_self hlt
    · rw [if_neg fun he => hj (Turn.call.inj he)]
      refine ⟨c, ?_, rfl, rfl, hstay⟩
      simp only [Publishing.step]
      cases s.calls[j]? with
      | none => exact hc
      | some c' => exact (List.getElem?_set_ne hj).trans hc

theorem length_calls_step (name : String) (s : Publishing) (turn : Turn) :
    (s.step name turn).2.calls.length = s.calls.length := by
  cases turn with
  | other c => rfl
  | call i =>
    simp only [Publishing.step]
    cases s.calls[i]? with
    | none => rfl
    | some c => exact List.length_set

/-- A run takes each call as many steps further as it has turns. -/
theorem Progress.run {s : Publishing} (h : Progress name b₀ t₀ s.broker s.calls)
    {turns : List Turn} (hq : Run.Along (Publishing.step name) (Publishing.Quiet name) s turns) :
    let last := Run.last (Publishing.step name) s turns
    Progress name b₀ t₀ last.broker last.calls ∧ last.calls.length = s.calls.length ∧
      ∀ (i : Nat) (c : Call), s.calls[i]? = some c →
        ∃ c', last.calls[i]? = some c' ∧ c'.key = c.key ∧ c'.payload = c.payload ∧
          c'.stage.level = min 3 (c.stage.level + turns.count (.call i)) := by
  induction turns generalizing s with
  | nil =>
    refine ⟨h, rfl, fun i c hc => ⟨c, hc, rfl, rfl, ?_⟩⟩
    rw [List.count_nil, Nat.add_zero, Nat.min_eq_right (level_le c.stage)]
  | cons turn turns ih =>
    obtain ⟨hlast, hlen, hlevels⟩ := ih (h.step hq.1) hq.2
    refine ⟨hlast, hlen.trans (length_calls_step name s turn), fun i c hc => ?_⟩
    obtain ⟨c₁, hc₁, hkey₁, hpayload₁, hlevel₁⟩ := h.level turn hc
    obtain ⟨c', hc', hkey, hpayload, hlevel⟩ := hlevels i c₁ hc₁
    refine ⟨c', hc', hkey.trans hkey₁, hpayload.trans hpayload₁, ?_⟩
    rw [hlevel, hlevel₁, List.count_cons]
    simp only [beq_iff_eq]
    omega

/-! ## When all calls are done -/

/-- Calls that were made for some messages and returned. -/
def finished (msgs : List (String × Payload)) (ps : List Placement) : List Call :=
  (msgs.zip ps).map fun q => ⟨q.1.1, q.1.2, .counted q.2⟩

theorem eq_finished {msgs : List (String × Payload)} {calls : List Call}
    (hlen : calls.length = msgs.length)
    (h : ∀ (i : Nat) (m : String × Payload), msgs[i]? = some m →
      ∃ p, calls[i]? = some ⟨m.1, m.2, .counted p⟩) :
    ∃ ps : List Placement, ps.length = msgs.length ∧ calls = finished msgs ps := by
  induction msgs generalizing calls with
  | nil => exact ⟨[], rfl, List.eq_nil_of_length_eq_zero hlen⟩
  | cons m msgs ih =>
    cases calls with
    | nil => cases hlen
    | cons c calls =>
      obtain ⟨p, hp⟩ := h 0 m rfl
      obtain ⟨ps, hps, rfl⟩ := ih (Nat.succ.inj hlen) fun i m hm => h (i + 1) m hm
      exact ⟨p :: ps, congrArg Nat.succ hps, congrArg (· :: _) (Option.some.inj hp)⟩

/-- When each call had its three turns, all have returned. -/
theorem finished_of_turns (h : b₀.topics[name]? = some t₀) {msgs : List (String × Payload)}
    {turns : List Turn}
    (hq : Run.Along (Publishing.step name) (Publishing.Quiet name) (.start b₀ msgs) turns)
    (hturns : ∀ i < msgs.length, turns.count (.call i) = 3) :
    let last := Run.last (Publishing.step name) (.start b₀ msgs) turns
    ∃ ps : List Placement, ps.length = msgs.length ∧ last.calls = finished msgs ps ∧
      Progress name b₀ t₀ last.broker (finished msgs ps) := by
  obtain ⟨hprogress, hlen, hlevels⟩ := Progress.run (progress_start h msgs) hq
  rw [Publishing.start, List.length_map] at hlen
  obtain ⟨ps, hps, hcalls⟩ := eq_finished hlen fun i m hm => by
    have hstart : (Publishing.start b₀ msgs).calls[i]? = some { key := m.1, payload := m.2 } := by
      rw [Publishing.start, List.getElem?_map, hm]
      rfl
    obtain ⟨⟨key, payload, stage⟩, hc, hkey, hpayload, hlevel⟩ := hlevels i _ hstart
    rw [hturns i (List.getElem?_eq_some_iff.1 hm).1] at hlevel
    cases stage with
    | counted p =>
      obtain rfl : key = m.1 := hkey
      obtain rfl : payload = m.2 := hpayload
      exact ⟨p, hc⟩
    | _ => cases hlevel
  exact ⟨ps, hps, hcalls, hcalls ▸ hprogress⟩

theorem routed_finished (msgs : List (String × Payload)) (ps : List Placement) :
    routed (finished msgs ps) = (msgs.zip ps).map fun q => (q.1.1, q.2.partition) := by
  rw [routed, finished, List.filterMap_map]
  exact congrFun List.filterMap_eq_map (msgs.zip ps)

section
variable {msgs : List (String × Payload)} {ps : List Placement} (hlen : ps.length = msgs.length)
include hlen

theorem keys_finished : (routed (finished msgs ps)).map Prod.fst = msgs.map Prod.fst := by
  rw [routed_finished, List.map_map, ← List.map_fst_zip hlen.ge, List.map_map,
    List.map_fst_zip hlen.ge]
  rfl

theorem places_finished : (routed (finished msgs ps)).map Prod.snd = ps.map (·.partition) := by
  conv_rhs => rw [← List.map_snd_zip hlen.le, List.map_map]
  rw [routed_finished, List.map_map]
  rfl

theorem placed_finished : placed (finished msgs ps) = ps := by
  rw [placed, finished, List.filterMap_map]
  exact (congrFun List.filterMap_eq_map (msgs.zip ps)).trans (List.map_snd_zip hlen.le)

theorem stages_finished : (finished msgs ps).map (·.stage) = ps.map .counted := by
  conv_rhs => rw [← List.map_snd_zip hlen.le, List.map_map]
  rw [finished, List.map_map]
  rfl

theorem counted_finished : counted (finished msgs ps) = msgs.length := by
  have hall : counted (finished msgs ps) = (finished msgs ps).length := by
    rw [counted, List.countP_eq_length]
    intro c hc
    obtain ⟨q, -, rfl⟩ := List.mem_map.1 hc
    rfl
  rw [hall, finished, List.length_map, List.length_zip, hlen, Nat.min_self]

end

/-! ## One outcome -/

theorem description_eq {p q : Partition} (h : p.Alike q) :
    (⟨p.id, p.index, p.watermark, p.size⟩ : Topic.PartitionDescription) =
      ⟨q.id, q.index, q.watermark, q.size⟩ := by
  rw [Partition.id, Partition.id, h.topic, h.index, h.watermark, h.size_eq]

/-- What the topic tells about itself depends on how often each partition was chosen. -/
theorem Grown.describe_eq {t t' : Topic} {ps : List Placement} (h : Grown t₀ ps t)
    (h' : Grown t₀ ps t') : t.describe = t'.describe := by
  have hshape := h.shape.trans h'.shape.symm
  have hcount : t.count = t'.count := congrArg (fun s => s.2.1) hshape
  have hparts : t.describe.partitions = t'.describe.partitions := by
    apply List.ext_getElem?
    intro index
    simp only [Topic.describe, List.getElem?_map]
    cases hp : t₀.partitions[index]? with
    | none =>
      have hcount₀ : t.count = t₀.count := congrArg (fun s => s.2.1) h.shape
      have hle : t₀.count ≤ index := List.getElem?_eq_none_iff.1 hp
      rw [List.getElem?_eq_none (by rw [← Topic.count]; omega),
        List.getElem?_eq_none (by rw [← Topic.count]; omega)]
    | some p =>
      obtain ⟨rs, ht, hoff⟩ := h.partitions index p hp
      obtain ⟨rs', ht', hoff'⟩ := h'.partitions index p hp
      have hlen := (hoff.symm.trans hoff').length_eq
      rw [Offset.length_ticks, Offset.length_ticks] at hlen
      rw [ht, ht', Option.map_some, Option.map_some,
        description_eq ((Partition.Alike.refl p).after_appends hlen)]
  have hname : t.describe.name = t'.describe.name := congrArg Prod.fst hshape
  have hrouting : t.describe.routing = t'.describe.routing :=
    congrArg (fun s => s.2.2.kind.name) hshape
  calc t.describe = ⟨t.describe.name, t.describe.routing, t.describe.partitions⟩ := rfl
    _ = t'.describe := by rw [hname, hrouting, hparts]

/-- The offsets that a partition gave out are those from its watermark on. -/
theorem Progress.offsets {msgs : List (String × Payload)} {ps : List Placement}
    (hlen : ps.length = msgs.length) (h : Progress name b₀ t₀ b (finished msgs ps)) {index : Nat}
    {p : Partition} (hp : t₀.partitions[index]? = some p) :
    (offsetsAt index ps).Perm (p.watermark.ticks (offsetsAt index ps).length) := by
  obtain ⟨t, -, hgrown⟩ := h.topic
  obtain ⟨rs, -, hoff⟩ := hgrown.partitions index p hp
  rw [placed_finished hlen] at hoff
  rwa [hoff.length_eq, Offset.length_ticks]

/-- **Confluence.** When all calls are done, how they got there cannot be told. -/
theorem Progress.agree {msgs : List (String × Payload)} {ps ps' : List Placement}
    (hlen : ps.length = msgs.length) (hlen' : ps'.length = msgs.length) {b' : Broker}
    (h : Progress name b₀ t₀ b (finished msgs ps)) (h' : Progress name b₀ t₀ b' (finished msgs ps')) :
    ps.Perm ps' ∧ b.describe name = b'.describe name ∧
      t₀.routing.turn b.counters = t₀.routing.turn b'.counters ∧ b.published = b'.published := by
  have hpicks := h.picks
  have hpicks' := h'.picks
  rw [places_finished hlen, keys_finished hlen] at hpicks
  rw [places_finished hlen', keys_finished hlen'] at hpicks'
  have hperm : ps.Perm ps' := by
    apply perm_of_offsetsAt
    intro index
    have hsame : (offsetsAt index ps).length = (offsetsAt index ps').length := by
      rw [length_offsetsAt, length_offsetsAt, (hpicks.trans hpicks'.symm).count_eq]
    cases hp : t₀.partitions[index]? with
    | none =>
      -- no call was routed there
      have hnone : (offsetsAt index ps).length = 0 := by
        rw [length_offsetsAt]
        refine List.count_eq_zero.2 fun hmem => ?_
        have hlt : index < t₀.count :=
          t₀.routing.lt_of_mem_indices t₀.partitions_pos (hpicks.subset hmem)
        have hle : t₀.count ≤ index := List.getElem?_eq_none_iff.1 hp
        omega
      have hnil := List.eq_nil_of_length_eq_zero hnone
      have hnil' := List.eq_nil_of_length_eq_zero (hsame.symm.trans hnone)
      rw [hnil, hnil']
    | some p =>
      have hoff := h.offsets hlen hp
      rw [hsame] at hoff
      exact hoff.trans (h'.offsets hlen' hp).symm
  obtain ⟨t, ht, hgrown⟩ := h.topic
  obtain ⟨t', ht', hgrown'⟩ := h'.topic
  rw [placed_finished hlen] at hgrown
  rw [placed_finished hlen'] at hgrown'
  refine ⟨hperm, ?_, ?_, ?_⟩
  · simp only [describe, findTopic, ht, ht']
    exact congrArg Except.ok ((hgrown.perm hperm).describe_eq hgrown')
  · rw [h.turn, h'.turn, ← List.length_map Prod.fst, keys_finished hlen,
      ← List.length_map Prod.fst, keys_finished hlen']
  · rw [h.published, h'.published, counted_finished hlen, counted_finished hlen']

/-! ## One call after the other -/

/-- Taken right after each other, the three steps of a call are what it is to publish. -/
theorem publish_in_three {t : Topic} (ht : b.topics[name]? = some t) (key : String)
    (payload : Payload) :
    let c₁ := Call.advance name { key, payload } b
    let c₂ := c₁.1.advance name c₁.2
    let c₃ := c₂.1.advance name c₂.2
    ∃ p, b.publish name key payload = .ok (p, c₃.2) ∧ c₃.1 = ⟨key, payload, .counted p⟩ := by
  let index := t.route b.counters key
  let p := t.partitions.get index
  let t' := t.setPartition index (p.append ⟨some key, payload⟩).2
  have hp : t.partitions[(index : Nat)]? = some p := List.getElem?_eq_getElem index.isLt
  have h₁ : Call.advance name { key, payload } b =
      (⟨key, payload, .routed index⟩, { b with counters := t.routing.advance b.counters }) := by
    simp only [Call.advance, ht]
    rfl
  have h₂ : Call.advance name ⟨key, payload, .routed index⟩
      { b with counters := t.routing.advance b.counters } =
        (⟨key, payload, .stored ⟨index, p.watermark⟩⟩,
          { b with counters := t.routing.advance b.counters }.setTopic name t') := by
    simp only [Call.advance, ht, hp]
    rfl
  have h₃ : Call.advance name ⟨key, payload, .stored ⟨index, p.watermark⟩⟩
      ({ b with counters := t.routing.advance b.counters }.setTopic name t') =
        (⟨key, payload, .counted ⟨index, p.watermark⟩⟩,
          ({ b with counters := t.routing.advance b.counters }.setTopic name t').countPublished 1) := by
    simp only [Call.advance, setTopic, Std.ExtTreeMap.getElem?_insert_self]
  simp only [h₁, h₂, h₃]
  exact ⟨_, publish_ok ht key payload, rfl⟩

/-- To publish one message after the other is one way to make progress. -/
theorem run_publish (h : Progress name b₀ t₀ b calls) (msgs : List (String × Payload)) :
    ∃ ps : List Placement, ps.length = msgs.length ∧
      (b.run (msgs.map fun m => .publish name m.1 m.2)).1 = ps.map .placed ∧
      Progress name b₀ t₀ (b.run (msgs.map fun m => .publish name m.1 m.2)).2
        (calls ++ finished msgs ps) := by
  induction msgs generalizing b calls with
  | nil => exact ⟨[], rfl, rfl, (List.append_nil calls).symm ▸ h⟩
  | cons m msgs ih =>
    obtain ⟨key, payload⟩ := m
    obtain ⟨t, ht, -⟩ := h.topic
    obtain ⟨p, hpublish, hcall⟩ := publish_in_three ht key payload
    have hnext := ((progress_waiting_iff key payload).2 h).advance.1.advance.1.advance.1
    rw [hcall] at hnext
    obtain ⟨ps, hlen, hanswers, hprogress⟩ :=
      ih (hnext.perm (List.perm_append_singleton _ calls).symm)
    refine ⟨p :: ps, congrArg Nat.succ hlen, ?_, ?_⟩
    · simp only [List.map_cons, Broker.run, Broker.step, hpublish, settle, hanswers]
    · rw [List.append_assoc] at hprogress
      simp only [List.map_cons, Broker.run, Broker.step, hpublish, settle]
      exact hprogress

/-- **Confluence.** Take any calls that publish to a topic, any way to interleave their steps, and
whatever else is asked of the broker in between as long as it touches neither the topic nor its
turns nor the count. Then all calls return, and what they return together, how the topic describes
itself, where its counter of turns stands and how many messages were published is what it is when
the calls are made one after the other. Each partition gave out the offsets from its watermark on,
each once: consecutive ones, unless the counter of offsets wraps around. -/
theorem parallel_publishing_confluent {b : Broker} {name : String} {t : Topic}
    (ht : b.topics[name]? = some t) {msgs : List (String × Payload)} {turns : List Turn}
    (hturns : ∀ i < msgs.length, turns.count (.call i) = 3)
    (hquiet : Run.Along (Publishing.step name) (Publishing.Quiet name) (.start b msgs) turns) :
    let last := Run.last (Publishing.step name) (.start b msgs) turns
    let alone := b.run (msgs.map fun m => .publish name m.1 m.2)
    ∃ ps ps' : List Placement,
      last.calls.map (·.stage) = ps.map .counted ∧ alone.1 = ps'.map .placed ∧ ps.Perm ps' ∧
      last.broker.describe name = alone.2.describe name ∧
      t.routing.turn last.broker.counters = t.routing.turn alone.2.counters ∧
      last.broker.published = alone.2.published ∧
      ∀ (index : Nat) (p : Partition), t.partitions[index]? = some p →
        (offsetsAt index ps).Perm (p.watermark.ticks (offsetsAt index ps).length) ∧
        (msgs.length ≤ UInt64.size → (offsetsAt index ps).Nodup) ∧
        (-0x8000000000000000 ≤ p.watermark →
          p.watermark + (offsetsAt index ps).length ≤ 0x8000000000000000 →
          (offsetsAt index ps).Perm (Offset.upFrom p.watermark (offsetsAt index ps).length)) := by
  intro last alone
  obtain ⟨ps, hlen, hcalls, hprogress⟩ := finished_of_turns ht hquiet hturns
  obtain ⟨ps', hlen', hanswers, hprogress'⟩ := run_publish (progress_nil ht) msgs
  rw [List.nil_append] at hprogress'
  obtain ⟨hperm, hdescribe, hturn, hpublished⟩ := hprogress.agree hlen hlen' hprogress'
  have hstages : last.calls.map (·.stage) = ps.map .counted :=
    (congrArg (List.map (·.stage)) hcalls).trans (stages_finished hlen)
  refine ⟨ps, ps', hstages, hanswers, hperm, hdescribe, hturn, hpublished, fun index p hp => ?_⟩
  have hoff := hprogress.offsets hlen hp
  refine ⟨hoff, fun hfew => ?_, fun hlow hhigh => ?_⟩
  · have hle : (offsetsAt index ps).length ≤ UInt64.size := by
      rw [offsetsAt, List.length_map]
      exact (List.length_filter_le _ _).trans (hlen ▸ hfew)
    exact hoff.nodup_iff.2 (Offset.nodup_ticks p.watermark hle)
  · rwa [Offset.ticks_eq_upFrom hlow hhigh] at hoff

/-- Two partitions, and a group that reads them. -/
def twoPartitions : Broker :=
  (({} : Broker).run
    [.createTopic "t" 2 .roundRobin, .addConsumer "g" "c", .subscribe "g" "t"]).2

/-- The last of three calls overtakes the first, while the group polls and a topic is created. -/
def overtaking : List Turn :=
  [.call 0, .call 1, .call 2, .call 2, .other (.poll "g" "c"), .call 1, .call 0, .call 0, .call 2,
    .other (.createTopic "u" 1 .hashed), .call 1]

/-- One message for each of three calls. -/
def threeMessages : List (String × Payload) := [("a", [1]), ("b", [2]), ("c", [3])]

theorem parallel_publishing_confluent_overtaking :
    (∃ t, twoPartitions.topics["t"]? = some t) ∧
    (∀ i < threeMessages.length, overtaking.count (.call i) = 3) ∧
    Run.Along (Publishing.step "t") (Publishing.Quiet "t") (.start twoPartitions threeMessages)
      overtaking ∧
    (Run.last (Publishing.step "t") (.start twoPartitions threeMessages) overtaking).calls.map
      (·.stage) = [.counted ⟨0, 1⟩, .counted ⟨1, 0⟩, .counted ⟨0, 0⟩] ∧
    (twoPartitions.run (threeMessages.map fun m => .publish "t" m.1 m.2)).1 =
      [.placed ⟨0, 0⟩, .placed ⟨1, 0⟩, .placed ⟨0, 1⟩] ∧
    (Run.last (Publishing.step "t") (.start twoPartitions threeMessages) overtaking).broker.describe
      "t" = (twoPartitions.run (threeMessages.map fun m => .publish "t" m.1 m.2)).2.describe "t" := by
  have ht : twoPartitions.topics["t"]?.isSome = true := by decide
  have hturns : ∀ i < threeMessages.length, overtaking.count (.call i) = 3 := by decide
  have hquiet : Run.Along (Publishing.step "t") (Publishing.Quiet "t")
      (.start twoPartitions threeMessages) overtaking := by decide
  obtain ⟨-, -, -, -, -, hdescribe, -⟩ :=
    parallel_publishing_confluent (Option.some_get ht).symm hturns hquiet
  exact ⟨⟨_, (Option.some_get ht).symm⟩, hturns, hquiet, by decide, by decide, hdescribe⟩

/-- A topic with one partition, whose counter is about to wrap around. -/
def lastOffset : Broker :=
  (({} : Broker).run [.createTopic "t" 1 .hashed,
    .onTopic "t" (.onPartition 0 (.reserve 0x7fffffffffffffff))]).2

/-- Two calls, the one after the other, get the largest offset and the smallest. -/
theorem not_contiguous_wrapping :
    ∃ (t : Topic) (p : Partition), lastOffset.topics["t"]? = some t ∧
      t.partitions[0]? = some p ∧ p.watermark = 0x7fffffffffffffff ∧
      let msgs : List (String × Payload) := [("a", [1]), ("b", [2])]
      let turns : List Turn := [.call 0, .call 0, .call 0, .call 1, .call 1, .call 1]
      (∀ i < msgs.length, turns.count (.call i) = 3) ∧
      Run.Along (Publishing.step "t") (Publishing.Quiet "t") (.start lastOffset msgs) turns ∧
      ∃ ps : List Placement,
        (Run.last (Publishing.step "t") (.start lastOffset msgs) turns).calls.map (·.stage) =
          ps.map .counted ∧
        offsetsAt 0 ps = [0x7fffffffffffffff, -0x8000000000000000] ∧
        ¬ (offsetsAt 0 ps).Perm (Offset.upFrom p.watermark (offsetsAt 0 ps).length) := by
  have ht : lastOffset.topics["t"]?.isSome = true := by decide
  have hp : (Option.get _ ht).partitions[0]?.isSome = true := by decide +revert
  have hwatermark : (Option.get _ hp).watermark = 0x7fffffffffffffff := by decide +revert
  refine ⟨_, _, (Option.some_get ht).symm, (Option.some_get hp).symm, hwatermark, by decide,
    by decide, [⟨0, 0x7fffffffffffffff⟩, ⟨0, -0x8000000000000000⟩], by decide, by decide, ?_⟩
  rw [hwatermark]
  decide

end LogBroker.Broker
