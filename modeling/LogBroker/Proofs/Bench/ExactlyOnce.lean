import Mathlib
import LogBroker.Proofs.Bench

/-!
# Exactly once, for a group beside its partitions

`Faithful` joins two things over a run in which offsets fit: what was written is what the partitions
hold, and what was delivered they hold still. With `Ordered` this says what a partition gave to the
polls of the group, in order: what it holds from offset zero up to its cursor (`delivered_eq`). It
is asked that the partition does not share its id with another one that holds messages (`Sole`).

`drained_of_polls` is about a group at rest, when nothing but polls happens that no cap cuts short.
A partition whose owner polled has nothing left behind its cursor; when every member polled, no
partition has.
-/
namespace LogBroker.Bench
open Delivery

/-- The partitions hold what was written, and among it all that was delivered. -/
structure Faithful (b : Bench) (ds : List Delivery) (ws : List (PartitionRef × Message)) :
    Prop where
  bounded : b.store.Bounded
  stored : ∀ (r : PartitionRef) (m : Message), (r, m) ∈ ws ↔ (b.store r).get? m.offset = some m
  kept : ∀ d ∈ ds, ∀ m ∈ d.messages, (b.store d.source).get? m.offset = some m

theorem faithful_fresh (id : String) (d : Distribution) (cap : Limit) :
    Faithful (fresh id d cap) [] [] where
  bounded := Store.bounded_fresh
  stored := by
    intro r m
    simp [fresh, Store.fresh, Partition.new, Partition.get?]
  kept := by simp

theorem faithful_step {b : Bench} {ds : List Delivery} {ws : List (PartitionRef × Message)}
    (hs : b.store.Stamped) (h : Faithful b ds ws) {c : Command} (hf : b.Fits c) :
    Faithful (b.step c).2 (ds ++ (b.step c).1.deliveries) (ws ++ written (c, (b.step c).1)) := by
  cases c with
  | partition r c =>
    rw [step_partition]
    simp only [Answer.deliveries, List.append_nil, written]
    refine ⟨Store.bounded_step h.bounded hf, ?_, ?_⟩
    · intro r' m
      rw [List.mem_append, h.stored, Store.get?_step h.bounded hf]
      simp
    · intro d hd m hm
      exact (Store.get?_step h.bounded hf _ _ _).2 (Or.inl (h.kept d hd m hm))
  | group c =>
    rw [step_group]
    simp only [Answer.deliveries, written, List.append_nil]
    refine ⟨h.bounded, h.stored, fun d hd m hm => ?_⟩
    rcases List.mem_append.1 hd with hd | hd
    · exact h.kept d hd m hm
    · rcases b.group.poll_or_not c with hnot | ⟨consumer, limit, hp⟩
      · rw [ConsumerGroup.deliveries_step_of_not_poll hnot] at hd
        simp at hd
      · rw [ConsumerGroup.step_poll hp] at hd
        exact ConsumerGroup.deliver_stored hs _ _ _ hd hm

/-- What holds of a bench and its transcript after a run in which offsets fit. -/
structure Exact (b : Bench) (t : List (Command × Answer)) : Prop where
  ordered : Ordered b (deliveries t)
  faithful : Faithful b (deliveries t) (writes t)
  dealt : b.group.Dealt
  tracked : b.group.Tracked

theorem exact_fresh (id : String) (d : Distribution) (cap : Limit) : Exact (fresh id d cap) [] where
  ordered := ordered_fresh id d cap
  faithful := faithful_fresh id d cap
  dealt := ConsumerGroup.dealt_new id d cap
  tracked := by simp [fresh, ConsumerGroup.Tracked]

theorem exact_step {b : Bench} {t : List (Command × Answer)} (h : Exact b t) {c : Command}
    (hf : b.Fits c) : Exact (b.step c).2 (t ++ [(c, (b.step c).1)]) where
  ordered := by
    rw [deliveries_append]
    simpa [deliveries] using ordered_step h.ordered c
  faithful := by
    rw [deliveries_append, writes_append]
    simpa [deliveries, writes] using faithful_step h.ordered.stamped h.faithful hf
  dealt := by
    cases c with
    | partition r c => exact h.dealt
    | group c => exact ConsumerGroup.dealt_step h.dealt b.store c
  tracked := by
    cases c with
    | partition r c => exact h.tracked
    | group c => exact ConsumerGroup.tracked_step h.tracked b.store c

theorem exact_run (id : String) (d : Distribution) (cap : Limit) {cs : List Command}
    (hf : Run.Along step Fits (fresh id d cap) cs) :
    Exact (Run.last step (fresh id d cap) cs) (Run.transcript step (fresh id d cap) cs) :=
  Run.invariant Exact (fun _ _ _ hc h => exact_step h hc) (exact_fresh id d cap) hf

/-- **Exactly once.** What the group got from a partition is what the partition holds from zero up
to the group's cursor. -/
theorem delivered_eq {b : Bench} {t : List (Command × Answer)} (h : Exact b t) {r : PartitionRef}
    (hr : b.store.Sole r) :
    (ofSource r (deliveries t)).map some =
        (Offset.upFrom 0 (ofSource r (deliveries t)).length).map (b.store r).get? ∧
      b.group.cursors.getD r.id nothingConsumed = (ofSource r (deliveries t)).length - 1 := by
  have hsrc : ofId r.id (deliveries t) = ofSource r (deliveries t) := by
    apply ofId_eq_ofSource
    intro d hd he hne
    -- another source with this id would still hold what it gave
    obtain ⟨m, hm⟩ := List.exists_mem_of_ne_nil _ hne
    have hkept := h.faithful.kept d hd m hm
    by_contra hsrc
    rw [Partition.get?, hr d.source he hsrc] at hkept
    simp at hkept
  have hoff := h.ordered.offsets r.id
  have hcur := h.ordered.cursor r.id
  rw [hsrc] at hoff hcur
  refine ⟨?_, hcur⟩
  rw [← hoff, List.map_map]
  apply List.map_congr_left
  intro m hm
  obtain ⟨d, hd, rfl, hmd⟩ := mem_ofSource.1 hm
  exact (h.faithful.kept d hd m hmd).symm

/-! ## A group at rest -/

/-- The request polls for a consumer, and no cap cuts its answer short: there is none, or it is no
smaller than the number of messages in the consumer's partitions. -/
def Uncapped (b : Bench) (consumer : String) (c : ConsumerGroup.Command) : Prop :=
  ∃ limit, b.group.poll? c = some (consumer, limit) ∧
    limit.Allows (ConsumerGroup.stored b.store (b.group.owned consumer))

/-- The bench with the cursors elsewhere. -/
def withCursors (b : Bench) (cs : Cursors) : Bench :=
  { b with group := { b.group with cursors := cs } }

/-- A poll moves the cursors and nothing else, and who owns what is not up to them. -/
theorem step_withCursors {b : Bench} {c : ConsumerGroup.Command} {consumer : String} {limit : Limit}
    (hp : b.group.poll? c = some (consumer, limit)) (cs : Cursors) :
    ((b.withCursors cs).step (.group c)).2 =
      b.withCursors (ConsumerGroup.deliver b.store (b.group.owned consumer) cs limit).2 := by
  have hp' : (b.withCursors cs).group.poll? c = some (consumer, limit) := by
    cases c <;> cases hp <;> rfl
  rw [step_group, ConsumerGroup.step_poll hp']
  rfl

/-- A partition has nothing to deliver behind a cursor. -/
def Drained (b : Bench) (r : PartitionRef) (cs : Cursors) : Prop :=
  (b.store r).get? (cs.getD r.id nothingConsumed + 1) = none

/-- A poll keeps a drained partition drained, and drains the partitions of its consumer. -/
theorem drained_of_poll {b : Bench} (hs : b.store.Stamped) {r : PartitionRef}
    (hr : b.store.Sole r) {c : ConsumerGroup.Command} {consumer : String}
    (hc : b.Uncapped consumer c) (cs : Cursors) :
    ∃ cs', ((b.withCursors cs).step (.group c)).2 = b.withCursors cs' ∧
      (b.Drained r cs ∨ r ∈ b.group.owned consumer → b.Drained r cs') := by
  obtain ⟨limit, hp, hl⟩ := hc
  refine ⟨_, step_withCursors hp cs, ?_⟩
  intro h
  rcases h with h | h
  · have hcur := (ConsumerGroup.deliver_consumes hs (b.group.owned consumer) cs limit r.id).2
    rw [ConsumerGroup.deliver_idle hs hr _ limit h, List.length_nil, Nat.cast_zero,
      Int.add_zero] at hcur
    rw [Drained, hcur]
    exact h
  · exact ConsumerGroup.deliver_drains hs hr hl h

theorem drained_of_polls {b : Bench} (hs : b.store.Stamped) {r : PartitionRef}
    (hr : b.store.Sole r) {polls : List ConsumerGroup.Command}
    (hpolls : ∀ c ∈ polls, ∃ consumer, b.Uncapped consumer c) (cs : Cursors) :
    ∃ cs', Run.last step (b.withCursors cs) (polls.map .group) = b.withCursors cs' ∧
      (b.Drained r cs ∨ (∃ c ∈ polls, ∃ consumer, b.Uncapped consumer c ∧
        r ∈ b.group.owned consumer) → b.Drained r cs') := by
  -- polls move nothing but the cursors, so ownership is read off the bench before all of them
  induction polls generalizing cs with
  | nil => exact ⟨cs, rfl, fun h => h.resolve_right (by simp)⟩
  | cons c polls ih =>
    obtain ⟨consumer, hc⟩ := hpolls c List.mem_cons_self
    obtain ⟨cs₁, he₁, hd₁⟩ := drained_of_poll hs hr hc cs
    obtain ⟨cs₂, he₂, hd₂⟩ := ih (fun c' hc' => hpolls c' (List.mem_cons_of_mem _ hc')) cs₁
    refine ⟨cs₂, by rw [List.map_cons, Run.last, he₁, he₂], fun h => hd₂ ?_⟩
    rcases h with h | ⟨c', hc', consumer', hun, hown⟩
    · exact Or.inl (hd₁ (Or.inl h))
    · rcases List.mem_cons.1 hc' with rfl | hc'
      · obtain ⟨cs₁', he₁', hd₁'⟩ := drained_of_poll hs hr hun cs
        have : cs₁' = cs₁ := by
          rw [he₁] at he₁'
          exact (congrArg (fun b : Bench => b.group.cursors) he₁').symm
        exact Or.inl (this ▸ hd₁' (Or.inr hown))
      · exact Or.inr ⟨c', hc', consumer', hun, hown⟩

/-- When every member polled, a partition of the group has nothing left to deliver. -/
theorem drained_of_all {b : Bench} (hs : b.store.Stamped) (hd : b.group.Dealt)
    (hm : b.group.members ≠ []) {r : PartitionRef} (hr : b.store.Sole r)
    (hmem : r ∈ b.group.partitions) {polls : List ConsumerGroup.Command}
    (hpolls : ∀ c ∈ polls, ∃ consumer, b.Uncapped consumer c)
    (hall : ∀ consumer ∈ b.group.members, ∃ c ∈ polls, b.Uncapped consumer c) :
    ∃ cs, Run.last step b (polls.map .group) = b.withCursors cs ∧ b.Drained r cs := by
  obtain ⟨cs, he, hdr⟩ := drained_of_polls hs hr hpolls b.group.cursors
  obtain ⟨consumer, hc, hown⟩ := hd.exists_owner_of_mem hm hmem
  obtain ⟨c, hcp, hun⟩ := hall consumer hc
  exact ⟨cs, he, hdr (Or.inr ⟨c, hcp, consumer, hun, hown⟩)⟩

/-- What a drained partition gave ends before an empty offset. -/
theorem delivered_of_drained {b : Bench} {t : List (Command × Answer)} (h : Exact b t)
    {r : PartitionRef} (hr : b.store.Sole r) (hd : b.Drained r b.group.cursors) :
    (b.store r).get? (ofSource r (deliveries t)).length = none := by
  rw [Drained, (delivered_eq h hr).2, Int.sub_add_cancel] at hd
  exact hd

end LogBroker.Bench
