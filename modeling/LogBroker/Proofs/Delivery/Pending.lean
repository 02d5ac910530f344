import Mathlib
import LogBroker.Proofs.Bench

/-!
# What a poll has still to deliver

`ConsumerGroup.pending` lists what lies ahead of the cursors of some partitions: from each in turn
the messages that follow its cursor up to the first empty offset, each with its source. Where no two
of the partitions share an id, a poll is a cut through this list. It delivers as much of it as its
limit lets through (`deliver_take`) and leaves the rest pending (`deliver_drop`).

Polls one after the other are therefore runs of a machine whose state are the cursors and whose
commands are limits, and their pieces make up what was pending (`pieces_append_pending`). By how
much a cursor moved is read off the pieces (`getD_run`), so it does not matter where the cuts were
made (`run_eq_of_entries_eq`).

Empty polls are about any partitions, whether they share ids or not. A poll whose limit lets
something through is empty just when nothing follows any of the cursors (`deliver_empty_iff`). Each
other poll brings the cursors past some message, of which there are finitely many
(`ahead_deliver_lt`).
-/
namespace LogBroker

namespace Limit
variable {α β : Type}

/-- The first items of a list, as many as the limit lets through. -/
def take : Limit → List α → List α
  | none, xs => xs
  | some cap, xs => xs.take cap

/-- The items of a list that the limit does not let through. -/
def drop : Limit → List α → List α
  | none, _ => []
  | some cap, xs => xs.drop cap

theorem length_take_le (limit : Limit) (xs : List α) : (limit.take xs).length ≤ xs.length := by
  cases limit with
  | none => exact Nat.le_refl _
  | some cap => exact List.length_take_le' cap xs

theorem take_append_drop (limit : Limit) (xs : List α) : limit.take xs ++ limit.drop xs = xs := by
  cases limit with
  | none => exact List.append_nil xs
  | some cap => exact List.take_append_drop cap xs

theorem map_take (f : α → β) (limit : Limit) (xs : List α) :
    (limit.take xs).map f = limit.take (xs.map f) := by
  cases limit with
  | none => rfl
  | some cap => exact List.map_take

theorem map_drop (f : α → β) (limit : Limit) (xs : List α) :
    (limit.drop xs).map f = limit.drop (xs.map f) := by
  cases limit with
  | none => rfl
  | some cap => exact List.map_drop

/-- The limit that is left after a first part cuts the second part. -/
theorem take_append (limit : Limit) (xs ys : List α) :
    limit.take (xs ++ ys) = limit.take xs ++ (limit.after (limit.take xs).length).take ys := by
  cases limit with
  | none => rfl
  | some cap =>
    simp only [take, after, List.take_append, List.length_take]
    congr 2
    omega

theorem drop_append (limit : Limit) (xs ys : List α) :
    limit.drop (xs ++ ys) = limit.drop xs ++ (limit.after (limit.take xs).length).drop ys := by
  cases limit with
  | none => rfl
  | some cap =>
    simp only [take, drop, after, List.drop_append, List.length_take]
    congr 2
    omega

theorem after_zero (limit : Limit) : limit.after 0 = limit := by
  cases limit <;> rfl

theorem drop_eq (limit : Limit) (xs : List α) : limit.drop xs = xs.drop (limit.take xs).length := by
  cases limit with
  | none => exact (List.drop_length).symm
  | some cap =>
    simp only [take, drop, List.length_take]
    rcases Nat.le_total cap xs.length with h | h
    · rw [Nat.min_eq_left h]
    · rw [Nat.min_eq_right h, List.drop_length, List.drop_of_length_le h]

theorem take_of_spent {limit : Limit} (h : limit.spent) (xs : List α) : limit.take xs = [] := by
  rw [h, take, List.take_zero]

theorem drop_of_spent {limit : Limit} (h : limit.spent) (xs : List α) : limit.drop xs = xs := by
  rw [h, drop, List.drop_zero]

theorem eq_nil_of_take {limit : Limit} (h : ¬ limit.spent) {xs : List α}
    (hxs : limit.take xs = []) : xs = [] := by
  cases limit with
  | none => exact hxs
  | some cap =>
    rcases List.take_eq_nil_iff.1 hxs with rfl | hxs
    · exact absurd rfl h
    · exact hxs

end Limit

/-! ## Reading on -/

namespace Partition

/-- A read within a limit is the beginning of a read without one. -/
theorem read_eq_take (p : Partition) (start : Offset) (limit : Limit) :
    p.read start limit = limit.take (p.read start none) := by
  cases limit with
  | none => rfl
  | some cap =>
    have hlen : (p.log.run p.size start).length ≤ p.size := Log.run_length_le_size p.log _ start
    simp only [read, Limit.clip, Limit.take]
    rw [← Log.take_run p.log (Nat.min_le_right cap p.size) start, List.take_eq_take_iff]
    omega

theorem read_cons {p : Partition} {start : Offset} {m : Message} (h : p.get? start = some m) :
    p.read start none = m :: p.read (start + 1) none := by
  have hm : p.log[start]? = some m := h
  simp only [read, Limit.clip]
  rw [size, ← Log.run_of_size_le (Nat.le_succ p.log.size) start, Log.run]
  simp only [hm]

/-- A read whose limit lets something through is empty just when it starts at an empty offset. -/
theorem read_eq_nil_iff {p : Partition} {start : Offset} {limit : Limit} (hl : ¬ limit.spent) :
    p.read start limit = [] ↔ p.get? start = none := by
  refine ⟨fun h => ?_, fun h => read_of_get?_none h limit⟩
  cases hm : p.get? start with
  | none => rfl
  | some m =>
    rw [read_eq_take] at h
    have hread := Limit.eq_nil_of_take hl h
    rw [read_cons hm] at hread
    cases hread

/-- To read on is to leave out what was read. -/
theorem read_drop {p : Partition} {start : Offset} {n : Nat}
    (h : n ≤ (p.read start none).length) :
    p.read (start + n) none = (p.read start none).drop n := by
  induction n generalizing start with
  | zero => simp
  | succ n ih =>
    cases hm : p.get? start with
    | none =>
      rw [read_of_get?_none hm] at h
      cases h
    | some m =>
      rw [read_cons hm] at h ⊢
      rw [List.drop_succ_cons, ← ih (Nat.le_of_succ_le_succ h), Nat.cast_succ,
        Int.add_right_comm, Int.add_assoc]

end Partition

namespace Delivery

/-- All messages of a poll in order, each with its source. -/
def entries (ds : List Delivery) : List (PartitionRef × Message) :=
  ds.flatMap fun d => d.messages.map (d.source, ·)

@[simp] theorem entries_nil : entries [] = [] := rfl

@[simp] theorem entries_append (ds es : List Delivery) :
    entries (ds ++ es) = entries ds ++ entries es := List.flatMap_append

theorem entries_cons (d : Delivery) (ds : List Delivery) :
    entries (d :: ds) = d.messages.map (d.source, ·) ++ entries ds := rfl

theorem all_eq_map_entries (ds : List Delivery) : all ds = (entries ds).map Prod.snd := by
  simp [all, entries, List.map_flatMap, Function.comp_def]

theorem length_entries (ds : List Delivery) : (entries ds).length = (all ds).length := by
  rw [all_eq_map_entries, List.length_map]

theorem ofId_eq_map_entries (x : String) (ds : List Delivery) :
    ofId x ds = ((entries ds).filter (·.1.id = x)).map Prod.snd := by
  induction ds with
  | nil => rfl
  | cons d ds ih =>
    rw [ofId_cons, entries_cons, List.filter_append, List.map_append, ih, List.filter_map]
    by_cases h : d.source.id = x <;> simp [h, Function.comp_def]

theorem length_ofId (x : String) (ds : List Delivery) :
    (ofId x ds).length = (entries ds).countP (·.1.id = x) := by
  rw [ofId_eq_map_entries, List.length_map, List.countP_eq_length_filter]

end Delivery

namespace ConsumerGroup
open Delivery

variable {s : Store}

/-- What lies ahead of the cursors: from each partition in turn the messages that follow its cursor,
each with its source. -/
def pending (s : Store) (cs : Cursors) (rs : List PartitionRef) : List (PartitionRef × Message) :=
  rs.flatMap fun r => ((s r).read (cs.consumed r + 1) none).map (r, ·)

theorem pending_cons (cs : Cursors) (r : PartitionRef) (rest : List PartitionRef) :
    pending s cs (r :: rest) =
      ((s r).read (cs.consumed r + 1) none).map (r, ·) ++ pending s cs rest := rfl

theorem pending_congr {cs cs' : Cursors} {rs : List PartitionRef}
    (h : ∀ r ∈ rs, cs.consumed r = cs'.consumed r) : pending s cs rs = pending s cs' rs :=
  List.flatMap_congr fun r hr => by rw [h r hr]

/-- A poll leaves the cursors of other ids alone. -/
theorem consumed_deliver (hs : s.Stamped) {rs : List PartitionRef} {r : PartitionRef}
    (h : r.id ∉ rs.map (·.id)) (cs : Cursors) (limit : Limit) :
    (deliver s rs cs limit).2.consumed r = cs.consumed r := by
  have hnone : ofId r.id (deliver s rs cs limit).1 = [] := by
    rw [ofId, List.filter_eq_nil_iff.2, List.flatMap_nil]
    intro d hd he
    exact h (List.mem_map.2 ⟨d.source, source_mem_of_deliver hd, of_decide_eq_true he⟩)
  have hcur := (deliver_consumes hs rs cs limit r.id).2
  rw [hnone] at hcur
  exact hcur.trans (Int.add_zero _)

theorem consumed_insert_self (cs : Cursors) (r : PartitionRef) (o : Offset) :
    Cursors.consumed (cs.insert r.id o) r = o := by
  rw [Cursors.consumed, getD_insert_eq, if_pos rfl]

theorem consumed_insert_of_ne (cs : Cursors) {r r' : PartitionRef} (o : Offset) (h : r.id ≠ r'.id) :
    Cursors.consumed (cs.insert r.id o) r' = cs.consumed r' := by
  rw [Cursors.consumed, getD_insert_eq, if_neg h]
  rfl

/-- To set a cursor to its own value changes no value. -/
theorem consumed_insert_consumed (cs : Cursors) (r r' : PartitionRef) :
    Cursors.consumed (cs.insert r.id (cs.consumed r)) r' = cs.consumed r' := by
  rw [Cursors.consumed, getD_insert_eq]
  split
  · rename_i h
    rw [Cursors.consumed, h]
    rfl
  · rfl

/-- The cursor of a partition is no concern of the partitions with other ids. -/
theorem pending_insert (cs : Cursors) {r : PartitionRef} {rs : List PartitionRef} (o : Offset)
    (h : r.id ∉ rs.map (·.id)) : pending s (cs.insert r.id o) rs = pending s cs rs := by
  apply pending_congr
  intro r' hr'
  apply consumed_insert_of_ne
  intro he
  exact h (List.mem_map.2 ⟨r', hr', he.symm⟩)

/-! ## One poll cuts what is pending -/

/-- A poll delivers as much of what is pending as its limit lets through. -/
theorem deliver_take (hs : s.Stamped) {rs : List PartitionRef} (hd : (rs.map (·.id)).Nodup)
    (cs : Cursors) (limit : Limit) :
    entries (deliver s rs cs limit).1 = limit.take (pending s cs rs) := by
  induction rs generalizing cs limit with
  | nil => cases limit <;> simp [deliver, pending, Limit.take]
  | cons r rest ih =>
    obtain ⟨hr, hd⟩ := List.nodup_cons.1 hd
    by_cases hsp : limit.spent
    · rw [deliver_spent _ _ hsp, Limit.take_of_spent hsp]
      rfl
    · rw [deliver_cons hs r rest cs hsp]
      generalize hb : (s r).read (cs.consumed r + 1) limit = batch
      rw [Partition.read_eq_take] at hb
      rw [entries_cons, ih hd, pending_insert cs _ hr, pending_cons, Limit.take_append,
        ← Limit.map_take, hb, List.length_map]

/-- A poll leaves pending what its limit does not let through. -/
theorem deliver_drop (hs : s.Stamped) {rs : List PartitionRef} (hd : (rs.map (·.id)).Nodup)
    (cs : Cursors) (limit : Limit) :
    pending s (deliver s rs cs limit).2 rs = limit.drop (pending s cs rs) := by
  induction rs generalizing cs limit with
  | nil => cases limit <;> simp [pending, Limit.drop]
  | cons r rest ih =>
    obtain ⟨hr, hd⟩ := List.nodup_cons.1 hd
    by_cases hsp : limit.spent
    · rw [deliver_spent _ _ hsp, Limit.drop_of_spent hsp]
    · rw [deliver_cons hs r rest cs hsp]
      generalize hb : (s r).read (cs.consumed r + 1) limit = batch
      rw [Partition.read_eq_take] at hb
      have hle : batch.length ≤ ((s r).read (cs.consumed r + 1) none).length := by
        rw [← hb]
        exact Limit.length_take_le limit _
      -- the partition read first goes on behind its batch, whatever the others are read up to
      have hfirst : (s r).read (cs.consumed r + batch.length + 1) none =
          limit.drop ((s r).read (cs.consumed r + 1) none) := by
        rw [Limit.drop_eq, hb, ← Partition.read_drop hle, Int.add_right_comm]
      rw [pending_cons, ih hd, pending_insert cs _ hr, consumed_deliver hs hr,
        consumed_insert_self, hfirst, pending_cons, Limit.drop_append, ← Limit.map_take, hb,
        List.length_map, Limit.map_drop]

/-- The cursor of an id moves by the number of messages that were delivered under it. -/
theorem getD_deliver (hs : s.Stamped) (rs : List PartitionRef) (cs : Cursors) (limit : Limit)
    (x : String) :
    (deliver s rs cs limit).2.getD x nothingConsumed =
      cs.getD x nothingConsumed + (entries (deliver s rs cs limit).1).countP (·.1.id = x) := by
  rw [(deliver_consumes hs rs cs limit x).2, length_ofId]

/-- Where every partition has a cursor, a poll starts no new one. -/
theorem mem_deliver_iff {rs : List PartitionRef} {cs : Cursors} (h : ∀ r ∈ rs, r.id ∈ cs)
    (limit : Limit) (x : String) : x ∈ (deliver s rs cs limit).2 ↔ x ∈ cs := by
  induction rs generalizing cs limit with
  | nil => exact Iff.rfl
  | cons r rest ih =>
    by_cases hsp : limit.spent
    · rw [deliver_spent _ _ hsp]
    · have hr : r.id ∈ cs := h r List.mem_cons_self
      simp only [deliver, if_neg hsp]
      rw [ih fun r' hr' => Std.ExtTreeMap.mem_insert.2 (Or.inr (h r' (List.mem_cons_of_mem _ hr')))]
      rw [Std.ExtTreeMap.mem_insert]
      refine ⟨fun hx => ?_, Or.inr⟩
      rcases hx with he | hx
      · rwa [← Std.LawfulEqCmp.eq_of_compare he]
      · exact hx

/-! ## Polls one after the other -/

/-- What polls with the given limits deliver, one after the other. -/
def pieces (s : Store) (rs : List PartitionRef) (cs : Cursors) (limits : List Limit) :
    List (List Delivery) :=
  (Run.transcript (deliver s rs) cs limits).map Prod.snd

theorem pieces_cons (rs : List PartitionRef) (cs : Cursors) (limit : Limit) (limits : List Limit) :
    pieces s rs cs (limit :: limits) =
      (deliver s rs cs limit).1 :: pieces s rs (deliver s rs cs limit).2 limits := rfl

/-- The pieces and what is pending after them are what was pending before them. -/
theorem pieces_append_pending (hs : s.Stamped) {rs : List PartitionRef}
    (hd : (rs.map (·.id)).Nodup) (cs : Cursors) (limits : List Limit) :
    entries (pieces s rs cs limits).flatten ++ pending s (Run.last (deliver s rs) cs limits) rs =
      pending s cs rs := by
  induction limits generalizing cs with
  | nil => rfl
  | cons limit limits ih =>
    rw [pieces_cons, List.flatten_cons, entries_append, List.append_assoc, Run.last, ih,
      deliver_take hs hd, deliver_drop hs hd, Limit.take_append_drop]

/-- Under caps the pieces are as much of what was pending as the caps let through together. -/
theorem pieces_caps (hs : s.Stamped) {rs : List PartitionRef} (hd : (rs.map (·.id)).Nodup)
    (cs : Cursors) (caps : List Nat) :
    entries (pieces s rs cs (caps.map some)).flatten = (pending s cs rs).take caps.sum := by
  induction caps generalizing cs with
  | nil => rfl
  | cons cap caps ih =>
    rw [List.map_cons, pieces_cons, List.flatten_cons, entries_append, ih, deliver_take hs hd,
      deliver_drop hs hd, List.sum_cons, List.take_add]
    rfl

/-- No piece is longer than its cap. -/
theorem length_pieces_le (hs : s.Stamped) {rs : List PartitionRef} (hd : (rs.map (·.id)).Nodup)
    (cs : Cursors) (caps : List Nat) :
    List.Forall₂ (fun ds cap => (all ds).length ≤ cap) (pieces s rs cs (caps.map some)) caps := by
  induction caps generalizing cs with
  | nil => exact .nil
  | cons cap caps ih =>
    refine .cons ?_ (ih _)
    rw [← length_entries, deliver_take hs hd]
    exact List.length_take_le cap _

theorem getD_run (hs : s.Stamped) (rs : List PartitionRef) (cs : Cursors) (limits : List Limit)
    (x : String) :
    (Run.last (deliver s rs) cs limits).getD x nothingConsumed =
      cs.getD x nothingConsumed +
        (entries (pieces s rs cs limits).flatten).countP (·.1.id = x) := by
  induction limits generalizing cs with
  | nil => exact (Int.add_zero _).symm
  | cons limit limits ih =>
    rw [Run.last, ih, getD_deliver hs, pieces_cons, List.flatten_cons, entries_append,
      List.countP_append]
    push_cast
    lia

theorem mem_run_iff {rs : List PartitionRef} {cs : Cursors} (h : ∀ r ∈ rs, r.id ∈ cs)
    (limits : List Limit) (x : String) : x ∈ Run.last (deliver s rs) cs limits ↔ x ∈ cs := by
  induction limits generalizing cs with
  | nil => exact Iff.rfl
  | cons limit limits ih =>
    rw [Run.last, ih fun r hr => (mem_deliver_iff h limit r.id).2 (h r hr), mem_deliver_iff h]

/-- Where each partition has a cursor, polls that deliver the same in total leave the same cursors,
however it was cut. -/
theorem run_eq_of_entries_eq (hs : s.Stamped) {rs : List PartitionRef} {cs : Cursors}
    (h : ∀ r ∈ rs, r.id ∈ cs) {limits limits' : List Limit}
    (he : entries (pieces s rs cs limits).flatten = entries (pieces s rs cs limits').flatten) :
    Run.last (deliver s rs) cs limits = Run.last (deliver s rs) cs limits' := by
  apply Std.ExtTreeMap.ext_getElem?
  intro x
  by_cases hx : x ∈ cs
  · rw [Bench.getElem?_of_getD ((mem_run_iff h limits x).2 hx),
      Bench.getElem?_of_getD ((mem_run_iff h limits' x).2 hx), getD_run hs, getD_run hs, he]
  · rw [Std.ExtTreeMap.getElem?_eq_none fun hm => hx ((mem_run_iff h limits x).1 hm),
      Std.ExtTreeMap.getElem?_eq_none fun hm => hx ((mem_run_iff h limits' x).1 hm)]

/-! ## Empty polls -/

/-- A poll whose limit lets something through is empty just when no message follows a cursor. -/
theorem deliver_empty_iff (hs : s.Stamped) (rs : List PartitionRef) (cs : Cursors) {limit : Limit}
    (hl : ¬ limit.spent) :
    all (deliver s rs cs limit).1 = [] ↔ ∀ r ∈ rs, (s r).get? (cs.consumed r + 1) = none := by
  induction rs generalizing cs with
  | nil => simp [deliver, all]
  | cons r rest ih =>
    rw [deliver_cons hs r rest cs hl, List.forall_mem_cons, all, List.flatMap_cons,
      List.append_eq_nil_iff, Partition.read_eq_nil_iff hl]
    refine and_congr_right fun hnone => ?_
    -- an empty batch leaves the limit and the value of each cursor as they were
    rw [(Partition.read_eq_nil_iff hl).2 hnone, List.length_nil, Limit.after_zero, Nat.cast_zero,
      Int.add_zero]
    have hrest := ih (cs.insert r.id (cs.consumed r))
    simp only [consumed_insert_consumed] at hrest
    exact hrest

/-- How many messages the partitions hold ahead of their cursors. -/
def ahead (s : Store) (cs : Cursors) : List PartitionRef → Nat
  | [] => 0
  | r :: rest => (s r).log.keys.countP (cs.consumed r < ·) + ahead s cs rest

theorem ahead_le_stored (cs : Cursors) (rs : List PartitionRef) : ahead s cs rs ≤ stored s rs := by
  induction rs with
  | nil => exact Nat.le_refl 0
  | cons r rest ih =>
    have hle : (s r).log.keys.countP (cs.consumed r < ·) ≤ (s r).log.keys.length :=
      List.countP_le_length
    rw [Std.ExtTreeMap.length_keys] at hle
    exact Nat.add_le_add hle ih

/-- Cursors that moved forwards have no more ahead of them. -/
theorem ahead_le {cs cs' : Cursors} {rs : List PartitionRef}
    (h : ∀ r ∈ rs, cs.consumed r ≤ cs'.consumed r) : ahead s cs' rs ≤ ahead s cs rs := by
  induction rs with
  | nil => exact Nat.le_refl 0
  | cons r rest ih =>
    refine Nat.add_le_add (List.countP_mono_left fun o _ ho => ?_)
      (ih fun r' hr' => h r' (List.mem_cons_of_mem _ hr'))
    have := h r List.mem_cons_self
    simp only [decide_eq_true_eq] at ho ⊢
    lia

/-- Cursors that moved forwards past a message have less ahead of them. -/
theorem ahead_lt {cs cs' : Cursors} {rs : List PartitionRef}
    (h : ∀ r ∈ rs, cs.consumed r ≤ cs'.consumed r) {r : PartitionRef} (hr : r ∈ rs) {o : Offset}
    (ho : o ∈ (s r).log) (hlow : cs.consumed r < o) (hhigh : o ≤ cs'.consumed r) :
    ahead s cs' rs < ahead s cs rs := by
  induction rs with
  | nil => simp at hr
  | cons r' rest ih =>
    have hrest : ∀ r ∈ rest, cs.consumed r ≤ cs'.consumed r :=
      fun r hr => h r (List.mem_cons_of_mem _ hr)
    have hmono (r : PartitionRef) (hr : r ∈ r' :: rest) (os : List Offset) :
        os.countP (cs'.consumed r < ·) ≤ os.countP (cs.consumed r < ·) :=
      List.countP_mono_left fun o _ ho => by
        have := h r hr
        simp only [decide_eq_true_eq] at ho ⊢
        lia
    rcases List.mem_cons.1 hr with rfl | hr
    · refine Nat.add_lt_add_of_lt_of_le ?_ (ahead_le hrest)
      -- the message counts before, and not after
      obtain ⟨os, os', hos⟩ := List.append_of_mem (Std.ExtTreeMap.mem_keys.2 ho)
      have h₁ := hmono r List.mem_cons_self os
      have h₂ := hmono r List.mem_cons_self os'
      have hnot : ¬ cs'.consumed r < o := by lia
      simp only [hos, List.countP_append, List.countP_cons, hlow, hnot, decide_true, decide_false,
        if_true, Bool.false_eq_true, if_false]
      lia
    · refine Nat.add_lt_add_of_le_of_lt ?_ (ih hrest hr)
      exact hmono r' List.mem_cons_self _

/-- A poll that delivers something leaves less ahead. -/
theorem ahead_deliver_lt (hs : s.Stamped) {rs : List PartitionRef} {cs : Cursors} {limit : Limit}
    (he : all (deliver s rs cs limit).1 ≠ []) :
    ahead s (deliver s rs cs limit).2 rs < ahead s cs rs := by
  obtain ⟨m, hm⟩ := List.exists_mem_of_ne_nil _ he
  obtain ⟨d, hd, hm⟩ := List.mem_flatMap.1 hm
  have hstored := deliver_stored hs rs cs limit hd hm
  obtain ⟨hoff, hcur⟩ := deliver_consumes hs rs cs limit d.source.id
  have hmem : m.offset ∈ (ofId d.source.id (deliver s rs cs limit).1).map (·.offset) :=
    List.mem_map_of_mem (List.mem_flatMap.2 ⟨d, List.mem_filter.2 ⟨hd, decide_eq_true rfl⟩, hm⟩)
  rw [hoff, Offset.mem_upFrom] at hmem
  refine ahead_lt (fun r _ => le_deliver hs rs cs limit r.id) (source_mem_of_deliver hd)
    (o := m.offset) ?_ ?_ ?_
  · rw [Std.ExtTreeMap.mem_iff_isSome_getElem?]
    exact Option.isSome_of_eq_some hstored
  · simp only [Cursors.consumed]
    lia
  · simp only [Cursors.consumed]
    lia

/-- Polls with one limit come to an empty one, at the latest when as many were made as there are
messages ahead. -/
theorem exists_deliver_empty (hs : s.Stamped) (rs : List PartitionRef) (cs : Cursors)
    (limit : Limit) :
    ∃ n ≤ ahead s cs rs,
      all (deliver s rs (Run.last (deliver s rs) cs (List.replicate n limit)) limit).1 = [] := by
  induction hn : ahead s cs rs using Nat.strong_induction_on generalizing cs with
  | _ k ih =>
    by_cases he : all (deliver s rs cs limit).1 = []
    · exact ⟨0, Nat.zero_le k, he⟩
    · have hlt := ahead_deliver_lt hs he
      obtain ⟨n, hle, hempty⟩ := ih _ (hn ▸ hlt) _ rfl
      exact ⟨n + 1, by lia, hempty⟩

end ConsumerGroup
end LogBroker
