import Mathlib
import LogBroker.ConsumerGroup
import LogBroker.Proofs.Log

/-!
# One poll

A poll walks over partitions and reads from each what follows its cursor
(`ConsumerGroup.deliver`). Its account is kept by partition id, for that is how cursors are kept:
`Delivery.ofId x` are the messages of a list of deliveries that came from partitions with the id
`x`, whichever partitions those are.

* `deliver_consumes`: the messages under an id carry the offsets that follow its cursor, and the
  cursor moves by their number. Nothing is assumed about the partitions but that their messages are
  stamped: ids may be shared and a partition may be visited twice.
* `deliver_stored`: what is delivered is stored.
* `deliver_idle`: where nothing is left to deliver, a poll delivers nothing.
* `deliver_stops`: a poll that no cap cuts short takes the cursor of each partition that it visits
  up to an empty offset, or past it.
* `deliver_drains`: such a poll leaves nothing to deliver.

`deliver_idle` and `deliver_drains` are about a partition that is alone with its id, as far as
partitions with messages are concerned (`Store.Sole`).
-/
namespace LogBroker

namespace Limit

/-- The limit lets that many messages through. -/
def Allows : Limit → Nat → Prop
  | none, _ => True
  | some cap, n => n ≤ cap

instance : ∀ (limit : Limit) (n : Nat), Decidable (limit.Allows n)
  | none, _ => isTrue trivial
  | some cap, n => inferInstanceAs (Decidable (n ≤ cap))

theorem Allows.clip_eq {limit : Limit} {n : Nat} (h : limit.Allows n) : limit.clip n = n := by
  cases limit with
  | none => rfl
  | some cap => exact Nat.min_eq_right h

theorem Allows.mono {limit : Limit} {m n : Nat} (h : limit.Allows n) (hm : m ≤ n) :
    limit.Allows m := by
  cases limit with
  | none => trivial
  | some cap => exact Nat.le_trans hm h

/-- What is left after some of the messages still lets the others through. -/
theorem Allows.after {limit : Limit} {m n used : Nat} (h : limit.Allows (m + n)) (hu : used ≤ m) :
    (limit.after used).Allows n := by
  cases limit with
  | none => trivial
  | some cap =>
    simp only [Allows, Limit.after] at h ⊢
    omega

end Limit

namespace Partition

/-- Messages read from `start` on carry the offsets from there on. -/
theorem read_offsets {p : Partition} (hs : p.log.Stamped) (start : Offset) (limit : Limit) :
    (p.read start limit).map (·.offset) = Offset.upFrom start (p.read start limit).length :=
  Log.run_offsets hs _ start

theorem get?_of_mem_read {p : Partition} (hs : p.log.Stamped) {start : Offset} {limit : Limit}
    {m : Message} (h : m ∈ p.read start limit) : p.get? m.offset = some m :=
  Log.getElem?_of_mem_run hs h

theorem length_read_le_size (p : Partition) (start : Offset) (limit : Limit) :
    (p.read start limit).length ≤ p.size :=
  Log.run_length_le_size p.log _ start

/-- A read that no cap cuts short ends before an empty offset. -/
theorem read_stops {p : Partition} {limit : Limit} (h : limit.Allows p.size) (start : Offset) :
    p.get? (start + (p.read start limit).length) = none := by
  unfold read
  rw [h.clip_eq]
  exact Log.run_stops (Nat.le_refl _) start

theorem read_of_get?_none {p : Partition} {start : Offset} (h : p.get? start = none)
    (limit : Limit) : p.read start limit = [] := by
  unfold read
  cases limit.clip p.size with
  | zero => rfl
  | succ n => rw [Log.run]; simp only [show p.log[start]? = none from h]

/-- After a read from behind a cursor the last offset read is the cursor moved by the number of
messages. -/
theorem last_read {p : Partition} (hs : p.log.Stamped) (consumed : Offset) (limit : Limit) :
    ((p.read (consumed + 1) limit).getLast?.map (·.offset)).getD consumed =
      consumed + (p.read (consumed + 1) limit).length := by
  have hoff := read_offsets hs (consumed + 1) limit
  rcases List.eq_nil_or_concat (p.read (consumed + 1) limit) with h | ⟨ms, m, h⟩
  · simp [h]
  · rw [h] at hoff ⊢
    rw [List.concat_eq_append, List.length_append, List.length_singleton, Offset.upFrom_append,
      List.map_append] at hoff
    have hm := (List.append_inj' hoff rfl).2
    simp only [List.map_cons, List.map_nil, Offset.upFrom, List.cons.injEq, and_true] at hm
    simp only [List.concat_eq_append, List.getLast?_concat, Option.map_some, Option.getD_some,
      List.length_append, List.length_singleton]
    rw [hm]
    push_cast
    lia

/-- Messages read from zero on are the stored ones with offsets in between. -/
theorem mem_read_iff {p : Partition} (hs : p.log.Stamped) {ms : List Message} {n : Nat}
    (h : ms.map some = (Offset.upFrom 0 n).map p.get?) {m : Message} :
    m ∈ ms ↔ p.get? m.offset = some m ∧ 0 ≤ m.offset ∧ m.offset < n := by
  rw [← List.mem_map_of_injective (Option.some_injective Message), h, List.mem_map]
  constructor
  · rintro ⟨o, ho, hm⟩
    obtain rfl := hs o m hm
    have hin := Offset.mem_upFrom.1 ho
    exact ⟨hm, hin.1, by lia⟩
  · rintro ⟨hm, h0, hn⟩
    exact ⟨m.offset, Offset.mem_upFrom.2 ⟨h0, by lia⟩, hm⟩

/-- A message with no empty offset before it comes before the first empty offset. -/
theorem offset_lt_of_full {p : Partition} {n : Nat} (hn : p.get? n = none) {m : Message}
    (hm : p.get? m.offset = some m)
    (hfull : ∀ o : Offset, 0 ≤ o → o < m.offset → p.get? o ≠ none) : m.offset < n := by
  rcases Int.lt_trichotomy m.offset n with hlt | he | hgt
  · exact hlt
  · rw [he, hn] at hm
    cases hm
  · exact absurd hn (hfull n (Int.natCast_nonneg n) hgt)

/-- Messages read from zero on carry consecutive offsets. -/
theorem offsets_of_read {p : Partition} (hs : p.log.Stamped) {ms : List Message} {o : Offset} {n : Nat}
    (h : ms.map some = (Offset.upFrom o n).map p.get?) : ms.map (·.offset) = Offset.upFrom o n := by
  induction n generalizing ms o with
  | zero =>
    rw [Offset.upFrom, List.map_nil, List.map_eq_nil_iff] at h
    rw [h]
    rfl
  | succ n ih =>
    cases ms with
    | nil => cases h
    | cons m ms =>
      simp only [Offset.upFrom, List.map_cons, List.cons.injEq] at h ⊢
      exact ⟨hs o m h.1.symm, ih h.2⟩

end Partition

namespace Delivery

/-- The messages that came from partitions with an id. -/
def ofId (x : String) (ds : List Delivery) : List Message :=
  (ds.filter (·.source.id = x)).flatMap (·.messages)

/-- The messages that came from one partition. -/
def ofSource (r : PartitionRef) (ds : List Delivery) : List Message :=
  (ds.filter (·.source = r)).flatMap (·.messages)

@[simp] theorem ofId_nil (x : String) : ofId x [] = [] := rfl

theorem ofId_cons (x : String) (d : Delivery) (ds : List Delivery) :
    ofId x (d :: ds) = (if d.source.id = x then d.messages else []) ++ ofId x ds := by
  unfold ofId
  rw [List.filter_cons]
  by_cases h : d.source.id = x <;> simp [h]

@[simp] theorem ofId_append (x : String) (ds es : List Delivery) :
    ofId x (ds ++ es) = ofId x ds ++ ofId x es := by
  simp [ofId]

theorem ofSource_cons (r : PartitionRef) (d : Delivery) (ds : List Delivery) :
    ofSource r (d :: ds) = (if d.source = r then d.messages else []) ++ ofSource r ds := by
  unfold ofSource
  rw [List.filter_cons]
  by_cases h : d.source = r <;> simp [h]

/-- With an id that only one of the sources has, to ask for the id is to ask for the source. -/
theorem ofId_eq_ofSource {r : PartitionRef} {ds : List Delivery}
    (h : ∀ d ∈ ds, d.source.id = r.id → d.messages ≠ [] → d.source = r) :
    ofId r.id ds = ofSource r ds := by
  induction ds with
  | nil => rfl
  | cons d ds ih =>
    rw [ofId_cons, ofSource_cons, ih fun d' hd' => h d' (List.mem_cons_of_mem _ hd')]
    congr 1
    have hd := h d List.mem_cons_self
    by_cases he : d.source = r
    · rw [if_pos he, if_pos (by rw [he])]
    · rw [if_neg he]
      split
      · rename_i hid
        by_contra hne
        exact he (hd hid hne)
      · rfl

theorem mem_ofSource {r : PartitionRef} {ds : List Delivery} {m : Message} :
    m ∈ ofSource r ds ↔ ∃ d ∈ ds, d.source = r ∧ m ∈ d.messages := by
  simp [ofSource, List.mem_flatMap, and_assoc]

end Delivery

namespace Store

/-- Every partition holds its messages under their own offsets. -/
def Stamped (s : Store) : Prop := ∀ r, (s r).log.Stamped

/-- No other partition with the same id holds a message. -/
def Sole (s : Store) (r : PartitionRef) : Prop := ∀ r', r'.id = r.id → r' ≠ r → (s r').log = ∅

end Store

namespace ConsumerGroup
open Delivery

variable {s : Store}

/-- How many messages the partitions hold. -/
def stored (s : Store) : List PartitionRef → Nat
  | [] => 0
  | r :: rest => (s r).size + stored s rest

/-- Where nothing is stored, every single log is empty. -/
theorem log_eq_empty_of_stored {rs : List PartitionRef} (h : stored s rs = 0) {r : PartitionRef}
    (hr : r ∈ rs) : (s r).log = ∅ := by
  induction rs with
  | nil => simp at hr
  | cons r' rest ih =>
    simp only [stored, Nat.add_eq_zero_iff] at h
    rcases List.mem_cons.1 hr with rfl | hr
    · exact Std.ExtTreeMap.eq_empty_iff_size_eq_zero.2 h.1
    · exact ih h.2 hr

/-- One step of a poll that still has room. -/
theorem deliver_cons (hs : s.Stamped) (r : PartitionRef) (rest : List PartitionRef)
    (cs : Cursors) {limit : Limit} (h : ¬ limit.spent) :
    let batch := (s r).read (cs.consumed r + 1) limit
    let next := deliver s rest (cs.insert r.id (cs.consumed r + batch.length))
      (limit.after batch.length)
    deliver s (r :: rest) cs limit = (⟨r, batch⟩ :: next.1, next.2) := by
  simp only [deliver, if_neg h, Partition.last_read (hs r)]

theorem deliver_spent (rs : List PartitionRef) (cs : Cursors) {limit : Limit} (h : limit.spent) :
    deliver s rs cs limit = ([], cs) := by
  cases rs with
  | nil => rfl
  | cons r rest => simp only [deliver, if_pos h]

theorem getD_insert_eq (cs : Cursors) (x y : String) (o : Offset) :
    (cs.insert x o).getD y nothingConsumed = if x = y then o else cs.getD y nothingConsumed := by
  simp [Std.ExtTreeMap.getD_insert]

/-- **Cursor discipline.** What a poll delivers under an id carries the offsets that follow the
cursor of that id, and the cursor moves past just these. -/
theorem deliver_consumes (hs : s.Stamped) (rs : List PartitionRef) (cs : Cursors)
    (limit : Limit) (x : String) :
    (ofId x (deliver s rs cs limit).1).map (·.offset) =
        Offset.upFrom (cs.getD x nothingConsumed + 1) (ofId x (deliver s rs cs limit).1).length ∧
      (deliver s rs cs limit).2.getD x nothingConsumed =
        cs.getD x nothingConsumed + (ofId x (deliver s rs cs limit).1).length := by
  induction rs generalizing cs limit with
  | nil => simp [deliver, Offset.upFrom]
  | cons r rest ih =>
    by_cases hsp : limit.spent
    · rw [deliver_spent _ _ hsp]; simp [Offset.upFrom]
    · rw [deliver_cons hs r rest cs hsp]
      generalize hb : (s r).read (cs.consumed r + 1) limit = batch
      have hoff : batch.map (·.offset) = Offset.upFrom (cs.consumed r + 1) batch.length := by
        rw [← hb]; exact Partition.read_offsets (hs r) _ _
      obtain ⟨ih1, ih2⟩ := ih (cs.insert r.id (cs.consumed r + batch.length))
        (limit.after batch.length)
      simp only [ofId_cons]
      rw [getD_insert_eq] at ih1 ih2
      by_cases hx : r.id = x
      · -- the batch continues the cursor, what the rest delivers continues the batch
        have hc : cs.consumed r = cs.getD x nothingConsumed := by rw [← hx]; rfl
        rw [if_pos hx] at ih1 ih2 ⊢
        rw [List.map_append, List.length_append, Offset.upFrom_append, hoff, ih1, ih2, hc]
        refine ⟨?_, by push_cast; lia⟩
        congr 2; lia
      · rw [if_neg hx] at ih1 ih2 ⊢
        exact ⟨ih1, ih2⟩

/-- Cursors only move forwards. -/
theorem le_deliver (hs : s.Stamped) (rs : List PartitionRef) (cs : Cursors) (limit : Limit)
    (x : String) :
    cs.getD x nothingConsumed ≤ (deliver s rs cs limit).2.getD x nothingConsumed := by
  rw [(deliver_consumes hs rs cs limit x).2]
  lia

theorem source_mem_of_deliver {rs : List PartitionRef} {cs : Cursors} {limit : Limit} {d : Delivery}
    (hd : d ∈ (deliver s rs cs limit).1) : d.source ∈ rs := by
  induction rs generalizing cs limit with
  | nil => simp [deliver] at hd
  | cons r rest ih =>
    by_cases hsp : limit.spent
    · rw [deliver_spent _ _ hsp] at hd; simp at hd
    · simp only [deliver, if_neg hsp, List.mem_cons] at hd
      rcases hd with rfl | hd
      · exact List.mem_cons_self
      · exact List.mem_cons_of_mem _ (ih hd)

/-- Every message delivered is what its source holds at its offset. -/
theorem deliver_stored (hs : s.Stamped) (rs : List PartitionRef) (cs : Cursors)
    (limit : Limit) {d : Delivery} (hd : d ∈ (deliver s rs cs limit).1) {m : Message}
    (hm : m ∈ d.messages) : (s d.source).get? m.offset = some m := by
  induction rs generalizing cs limit with
  | nil => simp [deliver] at hd
  | cons r rest ih =>
    by_cases hsp : limit.spent
    · rw [deliver_spent _ _ hsp] at hd; simp at hd
    · simp only [deliver, if_neg hsp, List.mem_cons] at hd
      rcases hd with rfl | hd
      · exact Partition.get?_of_mem_read (hs r) hm
      · exact ih _ _ hd

/-- A poll removes no cursor. -/
theorem deliver_keeps (rs : List PartitionRef) {cs : Cursors} (limit : Limit) {x : String}
    (h : x ∈ cs) : x ∈ (deliver s rs cs limit).2 := by
  induction rs generalizing cs limit with
  | nil => exact h
  | cons r rest ih =>
    by_cases hsp : limit.spent
    · rw [deliver_spent _ _ hsp]; exact h
    · simp only [deliver, if_neg hsp]
      exact ih _ (Std.ExtTreeMap.mem_insert.2 (Or.inr h))

/-- Where nothing is left to deliver from a partition, a poll delivers nothing under its id, as no
other partition with this id holds a message. -/
theorem deliver_idle (hs : s.Stamped) {r : PartitionRef} (hr : s.Sole r) (rs : List PartitionRef)
    {cs : Cursors} (limit : Limit)
    (h : (s r).get? (cs.getD r.id nothingConsumed + 1) = none) :
    ofId r.id (deliver s rs cs limit).1 = [] := by
  induction rs generalizing cs limit with
  | nil => rfl
  | cons r' rest ih =>
    by_cases hsp : limit.spent
    · rw [deliver_spent _ _ hsp]; rfl
    · rw [deliver_cons hs r' rest cs hsp]
      simp only [ofId_cons]
      by_cases hx : r'.id = r.id
      · have hc : cs.consumed r' = cs.getD r.id nothingConsumed := by rw [← hx]; rfl
        have hread : (s r').read (cs.consumed r' + 1) limit = [] := by
          refine Partition.read_of_get?_none ?_ limit
          rw [hc]
          -- it is the partition itself, or one that holds no message
          by_cases he : r' = r
          · rw [he]; exact h
          · rw [Partition.get?, hr r' hx he]; simp
        rw [hread, if_pos hx, List.nil_append]
        apply ih _
        rw [getD_insert_eq, if_pos hx, hc, List.length_nil, Nat.cast_zero, Int.add_zero]
        exact h
      · rw [if_neg hx, List.nil_append]
        apply ih _
        rw [getD_insert_eq, if_neg hx]
        exact h

/-- A poll that no cap cuts short takes the cursor of each partition that it visits up to an offset
that holds no message, or past it. -/
theorem deliver_stops (hs : s.Stamped) {r : PartitionRef} {rs : List PartitionRef} (cs : Cursors)
    {limit : Limit} (hl : limit.Allows (stored s rs)) (hmem : r ∈ rs) :
    ∃ o, cs.getD r.id nothingConsumed < o ∧
      o ≤ (deliver s rs cs limit).2.getD r.id nothingConsumed + 1 ∧ (s r).get? o = none := by
  induction rs generalizing cs limit with
  | nil => simp at hmem
  | cons r' rest ih =>
    by_cases hsp : limit.spent
    · -- nothing is allowed, so nothing is stored
      have hzero : stored s (r' :: rest) = 0 := by
        rw [hsp] at hl; exact Nat.le_zero.1 hl
      rw [deliver_spent _ _ hsp]
      refine ⟨_, Int.lt_succ _, Int.le_refl _, ?_⟩
      rw [Partition.get?, log_eq_empty_of_stored hzero hmem]
      simp
    · rw [deliver_cons hs r' rest cs hsp]
      generalize hb : (s r').read (cs.consumed r' + 1) limit = batch
      have hlen : batch.length ≤ (s r').size := by
        rw [← hb]; exact Partition.length_read_le_size _ _ _
      rcases List.mem_cons.1 hmem with rfl | hmem
      · -- the visit reads up to an empty offset, and from there the cursor only moves on
        have hstop := Partition.read_stops (hl.mono (Nat.le_add_right _ _)) (cs.consumed r + 1)
        rw [hb] at hstop
        have hle := le_deliver hs rest (cs.insert r.id (cs.consumed r + batch.length))
          (limit.after batch.length) r.id
        rw [getD_insert_eq, if_pos rfl] at hle
        have hcur : cs.consumed r = cs.getD r.id nothingConsumed := rfl
        exact ⟨_, by lia, by simp only; lia, hstop⟩
      · obtain ⟨o, hlow, hhigh, hnone⟩ :=
          ih (cs.insert r'.id (cs.consumed r' + batch.length)) (hl.after hlen) hmem
        refine ⟨o, ?_, hhigh, hnone⟩
        rw [getD_insert_eq] at hlow
        split at hlow
        · rename_i hid
          rw [Cursors.consumed, hid] at hlow
          lia
        · exact hlow

/-- A poll that no cap cuts short leaves nothing behind the cursor of a partition it visits, as no
other partition with the same id holds a message. -/
theorem deliver_drains (hs : s.Stamped) {r : PartitionRef} (hr : s.Sole r) {rs : List PartitionRef}
    {cs : Cursors} {limit : Limit} (hl : limit.Allows (stored s rs)) (hmem : r ∈ rs) :
    (s r).get? ((deliver s rs cs limit).2.getD r.id nothingConsumed + 1) = none := by
  obtain ⟨o, hlow, hhigh, hnone⟩ := deliver_stops hs cs hl hmem
  obtain ⟨hoff, hcur⟩ := deliver_consumes hs rs cs limit r.id
  rcases Int.lt_or_eq_of_le hhigh with hlt | rfl
  · -- an offset that the cursor passed was delivered, and by no other partition than this
    have ho : o ∈ (ofId r.id (deliver s rs cs limit).1).map (·.offset) := by
      rw [hoff]
      exact Offset.mem_upFrom.2 ⟨by lia, by lia⟩
    obtain ⟨m, hm, rfl⟩ := List.mem_map.1 ho
    obtain ⟨d, hd, hmd⟩ := List.mem_flatMap.1 hm
    obtain ⟨hd, hid⟩ := List.mem_filter.1 hd
    have hstored := deliver_stored hs rs cs limit hd hmd
    by_cases he : d.source = r
    · rw [he, hnone] at hstored
      cases hstored
    · rw [Partition.get?, hr d.source (of_decide_eq_true hid) he] at hstored
      simp at hstored
  · exact hnone

end ConsumerGroup
end LogBroker
