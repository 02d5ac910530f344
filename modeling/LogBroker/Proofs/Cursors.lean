import Mathlib
import LogBroker.Proofs.Bench.Convergence
import LogBroker.Proofs.Delivery.Pending
import LogBroker.Proofs.TreeMap

/-!
# Which cursors there are

A group keeps a cursor for the id of each of its partitions and no other cursor (`Matched`). A
subscription starts the cursors of the partitions that it brings. A poll visits partitions of the
group only, because what is owned was subscribed to (`Dealt.of_owned`); so it moves cursors, but it
neither starts nor removes one.

Where a cursor is missing, polls and lag count the partition as one that nothing was consumed from,
and a poll would start a cursor there. That this is never needed is said by two definitions which go
the same way as `pollWithin` and `lag` and are `none` at a partition without a cursor:
`pollWithinTracked` and `lagTracked`. The first one moves cursors by `modify`, which starts none.
-/
namespace LogBroker

namespace ConsumerGroup
open Std (ExtTreeMap)

variable {g : ConsumerGroup}

/-! ## One cursor for each id -/

/-- There is a cursor for each partition of the group, and no other. -/
def Matched (g : ConsumerGroup) : Prop := ∀ x, x ∈ g.cursors ↔ x ∈ g.partitions.map (·.id)

theorem Matched.consumed_eq (h : g.Matched) {r : PartitionRef}
    (hr : r.id ∉ g.partitions.map (·.id)) : g.cursors.consumed r = nothingConsumed :=
  ExtTreeMap.getD_eq_fallback fun hmem => hr ((h r.id).1 hmem)

/-- What a consumer owns has a cursor. -/
theorem Matched.mem_of_owned (h : g.Matched) (hd : g.Dealt) {consumer : String} {r : PartitionRef}
    (hr : r ∈ g.owned consumer) : r.id ∈ g.cursors :=
  (h r.id).2 (List.mem_map_of_mem (hd.of_owned hr).2)

/-- A poll neither starts nor removes a cursor. -/
theorem Matched.mem_pollWithin (h : g.Matched) (hd : g.Dealt) (s : Store) (consumer : String)
    (limit : Limit) (x : String) :
    x ∈ (g.pollWithin s consumer limit).2.cursors ↔ x ∈ g.cursors :=
  mem_deliver_iff (fun _ hr => h.mem_of_owned hd hr) limit x

theorem matched_step (hd : g.Dealt) (h : g.Matched) (s : Store) (c : Command) :
    (g.step s c).2.Matched := by
  intro x
  rcases g.poll_or_not c with hnot | ⟨consumer, limit, hp⟩
  · rw [cursors_step_of_not_poll hnot, partitions_step, mem_start_iff, h x, List.map_append,
      List.mem_append]
  · rw [step_poll hp]
    exact (h.mem_pollWithin hd s consumer limit x).trans (h x)

/-! ## Polls and lag that need every cursor -/

/-- As `ConsumerGroup.deliver`; `none` at a partition without a cursor. -/
def deliverTracked (s : Store) :
    List PartitionRef → Cursors → Limit → Option (List Delivery × Cursors)
  | [], cs, _ => some ([], cs)
  | r :: rest, cs, limit =>
    if limit.spent then some ([], cs)
    else do
      let consumed ← cs[r.id]?
      let batch := (s r).read (consumed + 1) limit
      let last := (batch.getLast?.map (·.offset)).getD consumed
      let (ds, cs') ← deliverTracked s rest (cs.modify r.id fun _ => last)
        (limit.after batch.length)
      return (⟨r, batch⟩ :: ds, cs')

/-- As `ConsumerGroup.pollWithin`. -/
def pollWithinTracked (g : ConsumerGroup) (s : Store) (consumer : String) (limit : Limit) :
    Option (List Delivery × ConsumerGroup) := do
  let (ds, cs) ← deliverTracked s (g.owned consumer) g.cursors limit
  return (ds, { g with cursors := cs })

/-- As `ConsumerGroup.lag`; `none` if a partition has no cursor. -/
def lagTracked (g : ConsumerGroup) (s : Store) (consumer : String) : Option Int :=
  (g.owned consumer).foldrM (fun r behind => do
    let consumed ← g.cursors[r.id]?
    return (s r).watermark - 1 - consumed + behind) 0

theorem deliverTracked_eq (s : Store) {rs : List PartitionRef} {cs : Cursors}
    (h : ∀ r ∈ rs, r.id ∈ cs) (limit : Limit) :
    deliverTracked s rs cs limit = some (deliver s rs cs limit) := by
  induction rs generalizing cs limit with
  | nil => rfl
  | cons r rest ih =>
    have hr : r.id ∈ cs := h r List.mem_cons_self
    rw [deliverTracked, deliver]
    split
    · rfl
    · -- a cursor that is there is moved or set all the same, and the others are still there
      have hrest (o : Offset) : ∀ r' ∈ rest, r'.id ∈ cs.insert r.id o := fun r' hr' =>
        ExtTreeMap.mem_insert.2 (Or.inr (h r' (List.mem_cons_of_mem _ hr')))
      simp only [Bench.getElem?_of_getD hr, TreeMap.modify_of_mem hr, Option.bind_eq_bind,
        Option.bind_some, ih (hrest _)]
      rfl

/-- Where the cursor is missing there is nothing to read from. -/
example : deliverTracked .fresh [⟨"x", "t", 0⟩] ∅ none = none := by decide

/-- Where every partition that a consumer owns has a cursor, no poll of the consumer misses one. -/
theorem pollWithinTracked_eq {consumer : String} (h : ∀ r ∈ g.owned consumer, r.id ∈ g.cursors)
    (s : Store) (limit : Limit) :
    g.pollWithinTracked s consumer limit = some (g.pollWithin s consumer limit) := by
  rw [pollWithinTracked, deliverTracked_eq s h]
  rfl

/-- Nor does its lag. -/
theorem lagTracked_eq {consumer : String} (h : ∀ r ∈ g.owned consumer, r.id ∈ g.cursors)
    (s : Store) : g.lagTracked s consumer = some (g.lag s consumer) := by
  unfold lagTracked lag
  generalize g.owned consumer = rs at h
  induction rs with
  | nil => rfl
  | cons r rest ih =>
    rw [List.foldrM_cons, ih fun r' hr' => h r' (List.mem_cons_of_mem _ hr')]
    simp only [Option.bind_eq_bind, Option.bind_some,
      Bench.getElem?_of_getD (h r List.mem_cons_self)]
    rfl

end ConsumerGroup

namespace Bench
open ConsumerGroup

theorem matched_run (id : String) (d : Distribution) (cap : Limit) (cs : List Command) :
    (Run.last step (fresh id d cap) cs).group.Matched := by
  refine (Run.invariant_commands (fun (b : Bench) _ => b.group.Dealt ∧ b.group.Matched)
    (fun b _ c h => ?_) ⟨dealt_new id d cap, fun x => ?_⟩ cs).2
  · cases c with
    | partition r c => exact h
    | group c => exact ⟨dealt_step h.1 b.store c, matched_step h.1 h.2 b.store c⟩
  · simp [fresh]

theorem isSome_consumedOffset (g : ConsumerGroup) (x : String) :
    (g.consumedOffset x).isSome ↔ x ∈ g.cursors :=
  Std.ExtTreeMap.mem_iff_isSome_getElem?.symm

/-- A cursor is one less than a number of messages. -/
theorem Ordered.le_consumedOffset {b : Bench} {ds : List Delivery} (h : Ordered b ds) {x : String}
    {o : Offset} (ho : b.group.consumedOffset x = some o) : -1 ≤ o := by
  have hlength := h.cursor x
  rw [Std.ExtTreeMap.getD_eq_getD_getElem?, ← ConsumerGroup.consumedOffset, ho,
    Option.getD_some] at hlength
  lia

/-- **A cursor for each partition.** After any run of a group, with whatever topics and partitions
it was offered, the ids with a cursor are those of the partitions that came with the first offer of
each topic. What a consumer owns is among these partitions, and no cursor is below -1. Hence no poll
and no lag, of any consumer and whatever the partitions hold, counts on a cursor that is not there;
and a poll leaves the same ids with a cursor. -/
theorem cursors_match_partitions (id : String) (d : Distribution) (cap : Limit)
    (cs : List Command) :
    let g := ((fresh id d cap).run cs).2.group
    let subscribed := (firsts (offers cs)).flatMap Prod.snd
    (∀ x, (g.consumedOffset x).isSome ↔ x ∈ subscribed.map (·.id)) ∧
    (∀ consumer, ∀ r ∈ g.owned consumer, r ∈ subscribed) ∧
    (∀ x o, g.consumedOffset x = some o → -1 ≤ o) ∧
    ∀ (s : Store) (consumer : String),
      g.lagTracked s consumer = some (g.lag s consumer) ∧
      ∀ limit,
        g.pollWithinTracked s consumer limit = some (g.pollWithin s consumer limit) ∧
        ∀ x, ((g.pollWithin s consumer limit).2.consumedOffset x).isSome =
          (g.consumedOffset x).isSome := by
  rw [run_eq]
  intro g subscribed
  have hmatched : g.Matched := matched_run id d cap cs
  have hdealt : g.Dealt := (current_run id d cap cs).dealt
  have hparts : g.partitions = subscribed := (supplied_run id d cap cs).partitions
  have hcursor (consumer : String) : ∀ r ∈ g.owned consumer, r.id ∈ g.cursors :=
    fun _ hr => hmatched.mem_of_owned hdealt hr
  refine ⟨?_, ?_, ?_, fun s consumer => ⟨lagTracked_eq (hcursor consumer) s, fun limit => ⟨?_, ?_⟩⟩⟩
  · intro x
    rw [isSome_consumedOffset, hmatched x, hparts]
  · intro consumer r hr
    rw [← hparts]
    exact (hdealt.of_owned hr).2
  · intro x o ho
    have hordered := ordered_run id d cap cs
    rw [run_eq] at hordered
    exact hordered.le_consumedOffset ho
  · exact pollWithinTracked_eq (hcursor consumer) s limit
  · intro x
    rw [Bool.eq_iff_iff, isSome_consumedOffset, isSome_consumedOffset]
    exact hmatched.mem_pollWithin hdealt s consumer limit x

/-- One topic has no partitions, and one is offered again with others. Two partitions share an id.
Somebody polls before joining. -/
def unevenlyOffered : List Command :=
  [.group (.subscribe "e" []), .group (.addConsumer "b"),
    .group (.subscribe "t" [⟨"x", "t", 0⟩, ⟨"x", "t", 1⟩]),
    .group (.subscribe "t" [⟨"x", "z", 7⟩]), .group (.subscribe "u" [⟨"y", "t", 1⟩]),
    .partition ⟨"y", "t", 1⟩ (.append ⟨none, [1]⟩), .group (.poll "a"), .group (.pollMax "b" 1),
    .group (.addConsumer "a"), .partition ⟨"y", "t", 1⟩ (.append ⟨none, [2]⟩)]

theorem cursors_match_partitions_unevenly :
    let b := ((fresh "g" .roundRobin none).run unevenlyOffered).2
    let subscribed := (firsts (offers unevenlyOffered)).flatMap Prod.snd
    subscribed = [⟨"x", "t", 0⟩, ⟨"x", "t", 1⟩, ⟨"y", "t", 1⟩] ∧
    (b.group.consumedOffset "t-part-1").isSome ∧
    ¬ (b.group.consumedOffset "z-part-7").isSome ∧
    ⟨"y", "t", 1⟩ ∈ b.group.owned "a" ∧ ⟨"y", "t", 1⟩ ∈ subscribed ∧
    b.group.consumedOffset "t-part-0" = some (-1) ∧ (-1 : Offset) ≤ -1 ∧
    b.group.lagTracked b.store "a" = some 1 ∧
    (b.group.pollWithinTracked b.store "a" none).map (·.1) =
      some [⟨⟨"x", "t", 0⟩, []⟩, ⟨⟨"y", "t", 1⟩, [⟨1, none, [2]⟩]⟩] ∧
    (b.group.pollWithin b.store "a" none).2.consumedOffset "z-part-7" = none := by
  intro b subscribed
  have hsubscribed : subscribed = [⟨"x", "t", 0⟩, ⟨"x", "t", 1⟩, ⟨"y", "t", 1⟩] := by decide
  have howned : ⟨"y", "t", 1⟩ ∈ b.group.owned "a" := by decide
  have hconsumed : b.group.consumedOffset "t-part-0" = some (-1) := by decide
  have hlag : b.group.lag b.store "a" = 1 := by decide
  have hpoll : (b.group.pollWithin b.store "a" none).1 =
      [⟨⟨"x", "t", 0⟩, []⟩, ⟨⟨"y", "t", 1⟩, [⟨1, none, [2]⟩]⟩] := by decide
  obtain ⟨hids, hamong, hfloor, htracked⟩ :=
    cursors_match_partitions "g" .roundRobin none unevenlyOffered
  have hforeign : ¬ (b.group.consumedOffset "z-part-7").isSome := by
    rw [hids]
    decide
  obtain ⟨hlagTracked, hpolls⟩ := htracked b.store "a"
  obtain ⟨hpollTracked, hsame⟩ := hpolls none
  refine ⟨hsubscribed, (hids "t-part-1").2 (by decide), hforeign, howned, hamong "a" _ howned,
    hconsumed, hfloor _ _ hconsumed, hlagTracked.trans (congrArg some hlag), ?_, ?_⟩
  · rw [hpollTracked, Option.map_some, hpoll]
  · rw [← Option.isNone_iff_eq_none, ← Option.not_isSome, hsame]
    simpa using hforeign

end Bench
end LogBroker
