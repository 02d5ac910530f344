import Mathlib
import LogBroker.Proofs.Bench.ExactlyOnce

/-!
# Nothing is lost

As long as no offset is handed out ahead of its message (`Partition.Command.reserves`), a partition
holds a message at every offset below its watermark (`Partition.Gapless`). A poll that no cap cuts
short takes the cursor of each partition of its consumer up to an empty offset
(`ConsumerGroup.deliver_stops`), so after polls of all members every cursor is past the watermarks
of all partitions that move it (`caughtUp_of_polls`).

Whether the messages in between were all returned is another question, for partitions with one id
move one cursor: what comes from one of them is never asked of the others. Where the partitions that
hold messages have their ids to themselves, each message was returned once
(`returnedOnce_of_caughtUp`); where two of them share an id, they were not all delivered
(`eq_of_all_delivered`).
-/
namespace LogBroker

namespace Partition

/-- Whether a request hands out offsets ahead of their messages. -/
def Command.reserves : Command → Bool
  | .reserveOne | .reserve _ => true
  | _ => false

/-- There is a message at every offset below the watermark. -/
def Gapless (p : Partition) : Prop := ∀ o : Offset, 0 ≤ o → o < p.watermark → p.get? o ≠ none

variable {p : Partition} {c : Command}

theorem gapless_new (topic : String) (index : Nat) : (new topic index).Gapless := by
  intro o h0 hlt
  exact absurd h0 (Int.not_le.2 hlt)

theorem Gapless.watermark_le (h : p.Gapless) {o : Offset} (h0 : 0 ≤ o) (hnone : p.get? o = none) :
    p.watermark ≤ o := by
  by_contra hlt
  exact h o h0 (Int.not_le.1 hlt) hnone

theorem log_ne_empty {o : Offset} {m : Message} (h : p.get? o = some m) : p.log ≠ ∅ := by
  have hmem : o ∈ p.log := Std.ExtTreeMap.mem_iff_isSome_getElem?.2 (Option.isSome_of_eq_some h)
  exact Std.ExtTreeMap.ne_empty_of_mem hmem

/-- A partition without gaps that holds anything holds something at offset zero. -/
theorem Gapless.exists_first (h : p.Gapless) (hb : p.Bounded) (hne : p.log ≠ ∅) :
    ∃ m, p.get? 0 = some m := by
  obtain ⟨o, ho⟩ : ∃ o, o ∈ p.log := by
    by_contra hnone
    exact hne (Std.ExtTreeMap.eq_empty_iff_forall_not_mem.2 (not_exists.1 hnone))
  obtain ⟨m, hm⟩ := Option.isSome_iff_exists.1 (Std.ExtTreeMap.mem_iff_isSome_getElem?.1 ho)
  have hin := hb.inside o m hm
  exact Option.ne_none_iff_exists'.1 (h 0 (Int.le_refl 0) (by lia))

/-- What a request hands out it stores messages at, unless it reserves. -/
theorem exists_written (hb : p.Bounded) (hf : p.Fits c) (hc : c.reserves = false) {o : Offset}
    (hlow : p.watermark ≤ o) (hhigh : o < p.watermark + c.handedOut) :
    ∃ m ∈ written c (p.step c).1, m.offset = o := by
  have h0 := hb.nonneg
  unfold Fits at hf
  cases c with
  | append r =>
    obtain rfl : p.watermark = o := by
      simp only [Command.handedOut] at hhigh
      lia
    exact ⟨_, List.mem_singleton_self _, rfl⟩
  | appendBatch rs =>
    simp only [step, appendBatch_fits rs h0 hf, written]
    rw [← List.mem_map, stamps_offsets]
    exact Offset.mem_upFrom.2 ⟨hlow, hhigh⟩
  | reserveOne => cases hc
  | reserve count => cases hc
  | _ =>
    simp only [Command.handedOut] at hhigh
    lia

theorem gapless_step (hb : p.Bounded) (hf : p.Fits c) (hc : c.reserves = false) (h : p.Gapless) :
    (p.step c).2.Gapless := by
  intro o h0 hlt
  rw [watermark_step hb.nonneg hf] at hlt
  rw [Option.ne_none_iff_exists']
  by_cases hold : o < p.watermark
  · obtain ⟨m, hm⟩ := Option.ne_none_iff_exists'.1 (h o h0 hold)
    exact ⟨m, (get?_step hb hf o m).2 (Or.inl hm)⟩
  · obtain ⟨m, hm, he⟩ := exists_written hb hf hc (Int.not_lt.1 hold) hlt
    exact ⟨m, (get?_step hb hf o m).2 (Or.inr ⟨hm, he⟩)⟩

end Partition

namespace Store

/-- There are no gaps in any partition. -/
def Gapless (s : Store) : Prop := ∀ r, (s r).Gapless

theorem gapless_fresh : Gapless fresh := fun r => Partition.gapless_new r.topic r.index

theorem gapless_step {s : Store} (hb : s.Bounded) {q : PartitionRef × Partition.Command}
    (hf : s.Fits q) (hq : q.2.reserves = false) (h : s.Gapless) : (s.step q).2.Gapless :=
  forall_step (fun _ p => p.Gapless) h (Partition.gapless_step (hb q.1) hf hq (h q.1))

end Store

namespace Delivery

/-- The messages under an id, each with the partition it came from. -/
def sourced (x : String) (ds : List Delivery) : List (PartitionRef × Message) :=
  (ds.filter (·.source.id = x)).flatMap fun d => d.messages.map (d.source, ·)

theorem sourced_map_snd (x : String) (ds : List Delivery) :
    (sourced x ds).map Prod.snd = ofId x ds := by
  simp [sourced, ofId, List.map_flatMap, Function.comp_def]

theorem mem_sourced {r : PartitionRef} {ds : List Delivery} {m : Message}
    (h : m ∈ ofSource r ds) : (r, m) ∈ sourced r.id ds := by
  obtain ⟨d, hd, rfl, hm⟩ := mem_ofSource.1 h
  rw [sourced, List.mem_flatMap]
  exact ⟨d, List.mem_filter.2 ⟨hd, decide_eq_true rfl⟩, List.mem_map_of_mem hm⟩

/-- Where no offset comes twice under an id, it comes from one partition. -/
theorem source_eq {r r' : PartitionRef} {ds : List Delivery} {m m' : Message}
    (hnodup : ((ofId r.id ds).map (·.offset)).Nodup) (hid : r.id = r'.id)
    (hm : m ∈ ofSource r ds) (hm' : m' ∈ ofSource r' ds) (ho : m.offset = m'.offset) : r = r' := by
  rw [← sourced_map_snd, List.map_map] at hnodup
  have hmem' : (r', m') ∈ sourced r.id ds := by
    rw [hid]
    exact mem_sourced hm'
  exact congrArg Prod.fst (List.inj_on_of_nodup_map hnodup (mem_sourced hm) hmem' ho)

end Delivery

namespace Bench
open Delivery

/-- Whether a command hands out offsets ahead of their messages. -/
def Command.reserves : Command → Bool
  | .group _ => false
  | .partition _ c => c.reserves

/-- The consumer that a command polls for. -/
def Command.poller : Command → Option String
  | .group (.poll consumer) | .group (.pollMax consumer _) => some consumer
  | _ => none

/-- One poll of a run returned a message of a partition, once, and it was a member's. No other poll
returned it. -/
def ReturnedOnce (b : Bench) (t : List (Command × Answer)) (r : PartitionRef) (m : Message) :
    Prop :=
  ∃ before c a after, t = before ++ (c, a) :: after ∧
    (∃ consumer ∈ b.group.members, c.poller = some consumer) ∧
    (ofSource r a.deliveries).count m = 1 ∧
    m ∉ ofSource r (deliveries before) ∧ m ∉ ofSource r (deliveries after)

/-- What a command delivers comes from partitions of the group, to one of its members. -/
def Served (b : Bench) (e : Command × Answer) : Prop :=
  ∀ d ∈ e.2.deliveries, d.source ∈ b.group.partitions ∧
    ∃ consumer ∈ b.group.members, e.1.poller = some consumer

theorem Served.step {b : Bench} {e : Command × Answer} (h : b.Served e) (c : Command) :
    (b.step c).2.Served e := by
  cases c with
  | partition r c => exact h
  | group c =>
    intro d hd
    obtain ⟨hsrc, consumer, hmem, hp⟩ := h d hd
    rw [step_group]
    refine ⟨?_, consumer, ?_, hp⟩
    · rw [ConsumerGroup.partitions_step]; exact List.mem_append_left _ hsrc
    · rw [ConsumerGroup.members_step]; exact List.mem_append_left _ hmem

theorem served_step {b : Bench} (h : b.group.Dealt) (c : Command) :
    (b.step c).2.Served (c, (b.step c).1) := by
  intro d hd
  cases c with
  | partition r c => simp [step_partition, Answer.deliveries] at hd
  | group c =>
    rw [step_group] at hd ⊢
    rcases b.group.poll_or_not c with hnot | ⟨consumer, limit, hp⟩
    · simp [Answer.deliveries, ConsumerGroup.deliveries_step_of_not_poll hnot] at hd
    · rw [ConsumerGroup.step_poll hp] at hd ⊢
      obtain ⟨hmem, hsrc⟩ := h.of_owned (ConsumerGroup.source_mem_of_deliver hd)
      refine ⟨hsrc, consumer, hmem, ?_⟩
      cases c <;> cases hp <;> rfl

/-! ## Runs that reserve nothing -/

/-- What holds of a bench and its transcript after a run that reserves nothing. -/
structure Whole (b : Bench) (t : List (Command × Answer)) : Prop extends Exact b t where
  gapless : b.store.Gapless
  served : ∀ e ∈ t, b.Served e

theorem whole_fresh (id : String) (d : Distribution) (cap : Limit) : Whole (fresh id d cap) [] where
  toExact := exact_fresh id d cap
  gapless := Store.gapless_fresh
  served := by simp

theorem whole_step {b : Bench} {t : List (Command × Answer)} (h : Whole b t) {c : Command}
    (hf : b.Fits c) (hc : c.reserves = false) : Whole (b.step c).2 (t ++ [(c, (b.step c).1)]) where
  toExact := exact_step h.toExact hf
  gapless := by
    cases c with
    | group c => exact h.gapless
    | partition r c => exact Store.gapless_step h.faithful.bounded hf hc h.gapless
  served := by
    intro e he
    rcases List.mem_append.1 he with he | he
    · exact (h.served e he).step c
    · obtain rfl := List.mem_singleton.1 he
      exact served_step h.dealt c

theorem whole_run (id : String) (d : Distribution) (cap : Limit) {cs : List Command}
    (hc : ∀ c ∈ cs, c.reserves = false) (hf : Run.Along step Fits (fresh id d cap) cs) :
    Whole (Run.last step (fresh id d cap) cs) (Run.transcript step (fresh id d cap) cs) := by
  have hok : Run.Along step (fun b c => b.Fits c ∧ c.reserves = false) (fresh id d cap) cs :=
    Run.along_imp (fun c hmem _ hfits => ⟨hfits, hc c hmem⟩) hf
  exact Run.invariant Whole (fun _ _ _ hok h => whole_step h hok.1 hok.2) (whole_fresh id d cap) hok

section
variable {b : Bench} {t : List (Command × Answer)} {r : PartitionRef} {m : Message}

/-- What a list gives once in total, one of its entries gives once and no other gives. -/
theorem exists_split_of_count {α β : Type} [DecidableEq β] {f : α → List β} {l : List α} {x : β}
    (h : (l.flatMap f).count x = 1) :
    ∃ before e after, l = before ++ e :: after ∧ (f e).count x = 1 ∧
      x ∉ before.flatMap f ∧ x ∉ after.flatMap f := by
  have hmem : x ∈ l.flatMap f := List.count_pos_iff.1 (by omega)
  obtain ⟨e, he, hx⟩ := List.mem_flatMap.1 hmem
  obtain ⟨before, after, rfl⟩ := List.append_of_mem he
  rw [List.flatMap_append, List.flatMap_cons, List.count_append, List.count_append] at h
  have hpos := List.count_pos_iff.2 hx
  exact ⟨before, e, after, rfl, by omega, List.count_eq_zero.1 (by omega),
    List.count_eq_zero.1 (by omega)⟩

theorem ofSource_deliveries (r : PartitionRef) (t : List (Command × Answer)) :
    ofSource r (deliveries t) = t.flatMap fun e => ofSource r e.2.deliveries := by
  simp [ofSource, deliveries, List.filter_flatMap, List.flatMap_assoc]

theorem returnedOnce_of_count (h : ∀ e ∈ t, b.Served e)
    (hcount : (ofSource r (deliveries t)).count m = 1) : ReturnedOnce b t r m := by
  rw [ofSource_deliveries] at hcount
  obtain ⟨before, ⟨c, a⟩, after, rfl, hone, hbefore, hafter⟩ := exists_split_of_count hcount
  rw [← ofSource_deliveries] at hbefore hafter
  simp only at hone
  have hmem : m ∈ ofSource r a.deliveries := List.count_pos_iff.1 (by omega)
  obtain ⟨d, hd, -, -⟩ := mem_ofSource.1 hmem
  obtain ⟨-, hpoller⟩ := h (c, a) (by simp) d hd
  exact ⟨before, c, a, after, rfl, hpoller, hone, hbefore, hafter⟩

theorem ReturnedOnce.mem (h : ReturnedOnce b t r m) : m ∈ ofSource r (deliveries t) := by
  obtain ⟨before, c, a, after, rfl, -, hone, -, -⟩ := h
  have hmem : m ∈ ofSource r a.deliveries := List.count_pos_iff.1 (by omega)
  rw [ofSource_deliveries, List.flatMap_append, List.flatMap_cons]
  exact List.mem_append_right _ (List.mem_append_left _ hmem)

end

/-! ## At rest -/

/-- The cursor of a partition is past all that the partition holds. -/
def CaughtUp (b : Bench) (r : PartitionRef) (cs : Cursors) : Prop :=
  (b.store r).watermark ≤ cs.getD r.id nothingConsumed + 1

/-- Polls move cursors and nothing else, and these only forwards. Uncapped ones take the cursors of
the partitions of their consumer past what these hold. -/
theorem caughtUp_of_polls {b : Bench} (hs : b.store.Stamped) (hg : b.store.Gapless)
    {polls : List ConsumerGroup.Command} (hpolls : ∀ c ∈ polls, c.isPoll = true) {cs : Cursors}
    (hcs : ∀ x, nothingConsumed ≤ cs.getD x nothingConsumed) :
    ∃ cs', Run.last step (b.withCursors cs) (polls.map .group) = b.withCursors cs' ∧
      (∀ x, cs.getD x nothingConsumed ≤ cs'.getD x nothingConsumed) ∧
      ∀ c ∈ polls, ∀ consumer, b.Uncapped consumer c →
        ∀ r ∈ b.group.owned consumer, b.CaughtUp r cs' := by
  induction polls generalizing cs with
  | nil => exact ⟨cs, rfl, fun _ => Int.le_refl _, by simp⟩
  | cons c polls ih =>
    rcases b.group.poll_or_not c with hnot | ⟨consumer, limit, hp⟩
    · rw [hpolls c List.mem_cons_self] at hnot
      cases hnot
    · have hle := ConsumerGroup.le_deliver hs (b.group.owned consumer) cs limit
      obtain ⟨cs', hlast, hle', hcaught⟩ :=
        ih (fun c' hc' => hpolls c' (List.mem_cons_of_mem _ hc')) fun x =>
          Int.le_trans (hcs x) (hle x)
      refine ⟨cs', by rw [List.map_cons, Run.last, step_withCursors hp, hlast],
        fun x => Int.le_trans (hle x) (hle' x), ?_⟩
      intro c' hc' consumer' hun r hr
      rcases List.mem_cons.1 hc' with rfl | hc'
      · obtain ⟨limit', hp', hl⟩ := hun
        rw [hp] at hp'
        cases hp'
        obtain ⟨o, hlow, hhigh, hnone⟩ := ConsumerGroup.deliver_stops hs cs hl hr
        have hstart := hcs r.id
        have hw := (hg r).watermark_le (by simp only [nothingConsumed] at hstart hlow; lia) hnone
        have hmono := hle' r.id
        unfold CaughtUp
        lia
      · exact hcaught c' hc' consumer' hun r hr

/-- Where all of a partition was delivered that lies below its watermark, and nothing else came
under its id, each of its messages was returned once. -/
theorem returnedOnce_of_caughtUp {b : Bench} {t : List (Command × Answer)} (h : Whole b t)
    {r : PartitionRef} (hid : ofId r.id (deliveries t) = ofSource r (deliveries t))
    (hup : b.CaughtUp r b.group.cursors) {o : Offset} {m : Message}
    (hm : (b.store r).get? o = some m) : ReturnedOnce b t r m := by
  apply returnedOnce_of_count h.served
  have hoff := h.ordered.offsets r.id
  have hcur := h.ordered.cursor r.id
  rw [hid] at hoff hcur
  have hin := h.faithful.bounded r |>.inside o m hm
  unfold CaughtUp at hup
  have ho : o ∈ (ofSource r (deliveries t)).map (·.offset) := by
    rw [hoff]
    exact Offset.mem_upFrom.2 ⟨hin.1, by lia⟩
  obtain ⟨m', hm', rfl⟩ := List.mem_map.1 ho
  obtain ⟨d, hd, rfl, hmd⟩ := mem_ofSource.1 hm'
  -- what was delivered is stored still
  rw [h.faithful.kept d hd m' hmd, Option.some.injEq] at hm
  subst hm
  apply List.count_eq_one_of_mem _ hm'
  apply List.Nodup.of_map
  rw [hoff]
  exact Offset.nodup_upFrom _ _

/-- Where the partitions of the group that hold messages do not share an id, what came under the id
came from one partition. -/
theorem ofId_eq_of_apart {b : Bench} {t : List (Command × Answer)} (h : Whole b t)
    {r : PartitionRef}
    (hapart : ∀ r' ∈ b.group.partitions, r'.id = r.id → (b.store r').log ≠ ∅ → r' = r) :
    ofId r.id (deliveries t) = ofSource r (deliveries t) := by
  apply ofId_eq_ofSource
  intro d hd hid hne
  obtain ⟨m, hm⟩ := List.exists_mem_of_ne_nil _ hne
  obtain ⟨e, he, hde⟩ := List.mem_flatMap.1 hd
  refine hapart d.source (h.served e he d hde).1 hid ?_
  exact Partition.log_ne_empty (h.faithful.kept d hd m hm)

/-- Two partitions with one id of which all messages were delivered do not both hold messages. -/
theorem eq_of_all_delivered {b : Bench} {t : List (Command × Answer)} (h : Whole b t)
    {r r' : PartitionRef} (hid : r.id = r'.id) (hr : (b.store r).log ≠ ∅)
    (hr' : (b.store r').log ≠ ∅)
    (hall : ∀ (o : Offset) (m : Message), (b.store r).get? o = some m →
      m ∈ ofSource r (deliveries t))
    (hall' : ∀ (o : Offset) (m : Message), (b.store r').get? o = some m →
      m ∈ ofSource r' (deliveries t)) : r = r' := by
  obtain ⟨m, hm⟩ := (h.gapless r).exists_first (h.faithful.bounded r) hr
  obtain ⟨m', hm'⟩ := (h.gapless r').exists_first (h.faithful.bounded r') hr'
  have ho : m.offset = m'.offset := by
    rw [h.ordered.stamped r 0 m hm, h.ordered.stamped r' 0 m' hm']
  refine source_eq ?_ hid (hall 0 m hm) (hall' 0 m' hm') ho
  rw [h.ordered.offsets r.id]
  exact Offset.nodup_upFrom _ _

section
variable {id : String} {d : Distribution} {cap : Limit} {cs : List Command}
  {polls : List ConsumerGroup.Command}

/-- After uncapped polls of all members every cursor is past what its partitions hold. -/
theorem whole_at_rest (hcs : ∀ c ∈ cs, c.reserves = false)
    (hfit : Run.Along step Fits (fresh id d cap) cs)
    (hmembers : (Run.last step (fresh id d cap) cs).group.members ≠ [])
    (hpolls : ∀ c ∈ polls, c.isPoll = true)
    (hall : ∀ consumer ∈ (Run.last step (fresh id d cap) cs).group.members,
      ∃ c ∈ polls, (Run.last step (fresh id d cap) cs).Uncapped consumer c) :
    ∃ cursors, Whole ((Run.last step (fresh id d cap) cs).withCursors cursors)
        (Run.transcript step (fresh id d cap) (cs ++ polls.map .group)) ∧
      ∀ r ∈ (Run.last step (fresh id d cap) cs).group.partitions,
        (Run.last step (fresh id d cap) cs).CaughtUp r cursors := by
  have h := whole_run id d cap hcs hfit
  have hcur : ∀ x, nothingConsumed ≤
      (Run.last step (fresh id d cap) cs).group.cursors.getD x nothingConsumed := by
    intro x
    rw [h.ordered.cursor x, nothingConsumed]
    lia
  obtain ⟨cursors, hlast, -, hcaught⟩ :=
    caughtUp_of_polls h.ordered.stamped h.gapless hpolls hcur
  have hcs' : ∀ c ∈ cs ++ polls.map .group, c.reserves = false := by
    intro c hc
    rcases List.mem_append.1 hc with hc | hc
    · exact hcs c hc
    · obtain ⟨q, -, rfl⟩ := List.mem_map.1 hc
      rfl
  have hrest := whole_run id d cap hcs' ((Run.along_append _ _ _).2 ⟨hfit, along_group _ _⟩)
  rw [Run.last_append] at hrest
  refine ⟨cursors, hlast ▸ hrest, ?_⟩
  intro r hr
  obtain ⟨consumer, hc, hown⟩ := h.dealt.exists_owner_of_mem hmembers hr
  obtain ⟨c, hcp, hun⟩ := hall consumer hc
  exact hcaught c hcp consumer hun r hown

/-- **Nothing is lost.** Where nobody reserves offsets, and once each member polled uncapped, a group
got every message of its partitions in exactly one poll if and only if no two of its partitions that
hold messages have one id. -/
theorem nothing_lost_iff (hcs : ∀ c ∈ cs, c.reserves = false)
    (hfit : Run.Along step Fits (fresh id d cap) cs)
    (hmembers : ((fresh id d cap).run cs).2.group.members ≠ [])
    (hpolls : ∀ c ∈ polls, c.isPoll = true)
    (hall : ∀ consumer ∈ ((fresh id d cap).run cs).2.group.members,
      ∃ c ∈ polls, ((fresh id d cap).run cs).2.Uncapped consumer c) :
    let b := ((fresh id d cap).run cs).2
    let t := (fresh id d cap).transcript (cs ++ polls.map .group)
    (∀ r ∈ b.group.partitions, ∀ (o : Offset) (m : Message), (b.store r).get? o = some m →
        ReturnedOnce b t r m) ↔
      ∀ r ∈ b.group.partitions, ∀ r' ∈ b.group.partitions, r.id = r'.id →
        (b.store r).log ≠ ∅ → (b.store r').log ≠ ∅ → r = r' := by
  rw [run_eq] at hmembers hall ⊢
  intro b t
  obtain ⟨cursors, h, hcaught⟩ := whole_at_rest hcs hfit hmembers hpolls hall
  constructor
  · intro hreturned r hr r' hr' hid hne hne'
    exact eq_of_all_delivered h hid hne hne' (fun o m hm => (hreturned r hr o m hm).mem)
      fun o m hm => (hreturned r' hr' o m hm).mem
  · intro hapart r hr o m hm
    refine returnedOnce_of_caughtUp h (ofId_eq_of_apart h ?_) (hcaught r hr) hm
    intro r' hr' hid hne
    exact hapart r' hr' r hr hid hne (Partition.log_ne_empty hm)

end

/-- A partition is subscribed under two names, and beside it one of another collection that has the
same id but holds nothing; a consumer joins between two appends. -/
def twoNames : List Command :=
  [.group (.subscribe "t" [⟨"x", "t", 0⟩, ⟨"x", "t", 1⟩]), .group (.addConsumer "b"),
    .partition ⟨"x", "t", 0⟩ (.append ⟨some "k", [1]⟩), .group (.poll "b"),
    .partition ⟨"x", "t", 1⟩ (.appendBatch [⟨none, [2]⟩, ⟨none, [3]⟩]), .group (.addConsumer "a"),
    .group (.subscribe "u" [⟨"x", "t", 1⟩, ⟨"y", "t", 1⟩]), .group .rebalance]

theorem nothing_lost_iff_two_names :
    (∀ c ∈ twoNames, c.reserves = false) ∧
    Run.Along step Fits (fresh "g" .roundRobin none) twoNames ∧
    ∀ r ∈ ((fresh "g" .roundRobin none).run twoNames).2.group.partitions,
      ∀ (o : Offset) (m : Message),
        (((fresh "g" .roundRobin none).run twoNames).2.store r).get? o = some m →
        ReturnedOnce ((fresh "g" .roundRobin none).run twoNames).2
          ((fresh "g" .roundRobin none).transcript
            (twoNames ++ [.pollMax "a" 1, .poll "b", .poll "a"].map .group)) r m := by
  have hcs : ∀ c ∈ twoNames, c.reserves = false := by decide
  have hfit : Run.Along step Fits (fresh "g" .roundRobin none) twoNames := by decide
  have hmembers : ((fresh "g" .roundRobin none).run twoNames).2.group.members = ["b", "a"] := by
    decide
  refine ⟨hcs, hfit, (nothing_lost_iff hcs hfit (by rw [hmembers]; simp) (by decide) ?_).2 ?_⟩
  · rw [hmembers]
    intro consumer hc
    simp only [List.mem_cons, List.not_mem_nil, or_false] at hc
    rcases hc with rfl | rfl
    · exact ⟨.poll "b", by simp, none, rfl, trivial⟩
    · exact ⟨.poll "a", by simp, none, rfl, trivial⟩
  · decide

/-- Partitions of two collections have one id, and each holds a message. -/
def twins : List Command :=
  [.partition ⟨"x", "t", 0⟩ (.append ⟨none, [97]⟩), .partition ⟨"y", "t", 0⟩ (.append ⟨none, [98]⟩),
    .group (.addConsumer "a"), .group (.subscribe "t" [⟨"x", "t", 0⟩]),
    .group (.subscribe "u" [⟨"y", "t", 0⟩])]

theorem not_nothing_lost_twins :
    (∀ c ∈ twins, c.reserves = false) ∧ Run.Along step Fits (fresh "g" .range none) twins ∧
    ((fresh "g" .range none).run twins).2.group.members = ["a"] ∧
    ((fresh "g" .range none).run twins).2.Uncapped "a" (.poll "a") ∧
    -- the second poll comes back empty
    ((fresh "g" .range none).run (twins ++ [.poll "a", .poll "a"].map .group)).1.getLast? =
      some (.group (.polled [⟨⟨"x", "t", 0⟩, []⟩, ⟨⟨"y", "t", 0⟩, []⟩])) ∧
    ⟨"y", "t", 0⟩ ∈ ((fresh "g" .range none).run twins).2.group.partitions ∧
    (((fresh "g" .range none).run twins).2.store ⟨"y", "t", 0⟩).get? 0 = some ⟨0, none, [98]⟩ ∧
    ¬ ReturnedOnce ((fresh "g" .range none).run twins).2
      ((fresh "g" .range none).transcript (twins ++ [.poll "a", .poll "a"].map .group))
      ⟨"y", "t", 0⟩ ⟨0, none, [98]⟩ := by
  refine ⟨by decide, by decide, by decide, ⟨none, rfl, trivial⟩, by decide, by decide, by decide,
    ?_⟩
  intro h
  have hnone : ofSource ⟨"y", "t", 0⟩ (deliveries ((fresh "g" .range none).transcript
      (twins ++ [.poll "a", .poll "a"].map .group))) = [] := by decide
  have hmem := h.mem
  rw [hnone] at hmem
  cases hmem

end Bench
end LogBroker
