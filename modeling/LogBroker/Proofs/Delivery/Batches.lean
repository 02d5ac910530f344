import Mathlib
import LogBroker.Proofs.Delivery.Pending

/-!
# Batches in one poll

A batch occupies consecutive offsets of one partition, all of them filled at once. A reader whose
next offset does not lie strictly inside the batch (`Batch.Clear`) either stops before the batch or
reads it to its end, since the first offset that can stop it lies behind. So what it gets is
undivided by the batch (`Undivided`): it has all of it, one message right after the other, or none.
Where it stops is outside the batch again.

* `Partition.read_undivided` says so of one read that no cap cuts short, `deliver_undivided` of a
  poll over any partitions in any order, one of them named twice included.
-/
namespace LogBroker

/-- A result has all of a batch, in order and with nothing in between, or none of it. -/
def Undivided {α : Type} (batch result : List α) : Prop :=
  batch <:+: result ∨ batch.Disjoint result

namespace Undivided
variable {α β : Type} {batch : List α}

theorem nil (batch : List α) : Undivided batch [] := Or.inr (List.disjoint_nil_right batch)

theorem append {xs ys : List α} (hx : Undivided batch xs) (hy : Undivided batch ys) :
    Undivided batch (xs ++ ys) := by
  rcases hx with hx | hx
  · exact Or.inl (hx.trans (List.infix_append' [] xs ys))
  · rcases hy with hy | hy
    · exact Or.inl (hy.trans (List.suffix_append xs ys).isInfix)
    · exact Or.inr (List.disjoint_append_right.2 ⟨hx, hy⟩)

theorem map {f : α → β} (hf : Function.Injective f) {result : List α} (h : Undivided batch result) :
    Undivided (batch.map f) (result.map f) :=
  h.imp (fun h => h.map f) (List.disjoint_map hf)

/-- Of a batch that is not divided, one message comes with all others. -/
theorem isInfix_of_mem {result : List α} (h : Undivided batch result) {x : α} (hx : x ∈ batch)
    (hr : x ∈ result) : batch <:+: result :=
  h.resolve_right fun hd => hd hx hr

end Undivided

/-- A batch as it is stored: records at consecutive offsets of one partition. -/
structure Batch where
  source : PartitionRef
  first : Offset
  records : List Record
  deriving DecidableEq

namespace Batch

/-- The messages of the batch. -/
def messages (x : Batch) : List Message := stamps x.first x.records

/-- The messages of the batch, each with its source. -/
def entries (x : Batch) : List (PartitionRef × Message) := x.messages.map (x.source, ·)

/-- The partition holds the batch. -/
def Stored (x : Batch) (p : Partition) : Prop := ∀ m ∈ x.messages, p.get? m.offset = some m

/-- A reader who goes on at an offset has yet to reach the batch, or is past it. -/
def Clear (x : Batch) (next : Offset) : Prop := next ≤ x.first ∨ x.first + x.records.length ≤ next

variable {x : Batch}

/-- The payloads of the batch, in order. -/
theorem payloads_entries (x : Batch) : x.entries.map (·.2.payload) = x.records.map (·.payload) := by
  have h := congrArg (List.map Record.payload) (stamps_records x.first x.records)
  rw [List.map_map] at h
  rw [entries, List.map_map]
  exact h

theorem exists_first (h : x.records ≠ []) : ∃ m ∈ x.messages, m.offset = x.first := by
  obtain ⟨r, rest, hr⟩ := List.exists_cons_of_ne_nil h
  refine ⟨r.stamp x.first, ?_, rfl⟩
  rw [messages, hr]
  exact List.mem_cons_self

/-- Offset by offset, the partition holds the batch. -/
theorem Stored.map_some {p : Partition} (h : x.Stored p) :
    x.messages.map some = (Offset.upFrom x.first x.records.length).map p.get? := by
  rw [← stamps_offsets, List.map_map]
  exact List.map_congr_left fun m hm => (h m hm).symm

/-- The offsets of the batch are not empty. -/
theorem Stored.ne_none {p : Partition} (h : x.Stored p) {o : Offset} (hlow : x.first ≤ o)
    (hhigh : o < x.first + x.records.length) : p.get? o ≠ none := by
  have ho : o ∈ x.messages.map (·.offset) := by
    rw [messages, stamps_offsets]
    exact Offset.mem_upFrom.2 ⟨hlow, hhigh⟩
  obtain ⟨m, hm, rfl⟩ := List.mem_map.1 ho
  rw [h m hm]
  exact Option.some_ne_none m

end Batch

theorem Offset.upFrom_isInfix {o o' : Offset} {m n : Nat} (hlow : o' ≤ o)
    (hhigh : o + m ≤ o' + n) : Offset.upFrom o m <:+: Offset.upFrom o' n := by
  obtain ⟨k, rfl⟩ := Int.le.dest hlow
  obtain ⟨l, hl⟩ := Int.le.dest hhigh
  obtain rfl : n = k + m + l := by lia
  rw [Nat.add_assoc, upFrom_append, upFrom_append, ← List.append_assoc]
  exact List.infix_append _ _ _

namespace Partition

/-- An uncapped read from outside a batch does not divide the batch, and stops outside it. -/
theorem read_undivided {p : Partition} (hs : p.log.Stamped) {x : Batch} (hx : x.Stored p)
    {start : Offset} (hclear : x.Clear start) :
    Undivided x.messages (p.read start none) ∧
      x.Clear (start + (p.read start none).length) := by
  have hoffsets := read_offsets hs start none
  have hstop : p.get? (start + (p.read start none).length) = none :=
    read_stops (show Limit.Allows none p.size from trivial) start
  have hread : (p.read start none).map some =
      (Offset.upFrom start (p.read start none).length).map p.get? :=
    Log.run_map_some p.log _ start
  generalize p.read start none = ms at hoffsets hstop hread
  have hbounds {m : Message} (hm : m ∈ ms) : start ≤ m.offset ∧ m.offset < start + ms.length := by
    have ho := List.mem_map_of_mem (f := (·.offset)) hm
    rw [hoffsets] at ho
    exact Offset.mem_upFrom.1 ho
  by_cases hreach : start ≤ x.first ∧ x.first < start + ms.length
  · -- the batch has no empty offset to stop at, so the read goes on to its end
    have hend : x.first + x.records.length ≤ start + ms.length := by
      by_contra hlt
      exact hx.ne_none (by lia) (by lia) hstop
    refine ⟨Or.inl ?_, Or.inr hend⟩
    have hsub := (Offset.upFrom_isInfix hreach.1 hend).map p.get?
    rw [← hx.map_some, ← hread, List.infix_map_iff] at hsub
    obtain ⟨ms', hms', he⟩ := hsub
    rwa [List.map_injective_iff.2 (Option.some_injective Message) he]
  · -- the read is over before the batch, or begins behind it
    refine ⟨Or.inr fun m hm hm' => ?_, ?_⟩
    · have hin := mem_stamps_bounds hm
      have hr := hbounds hm'
      rcases hclear with h | h <;> lia
    · unfold Batch.Clear at hclear ⊢
      lia

end Partition

namespace Delivery

theorem mem_entries_iff {e : PartitionRef × Message} {ds : List Delivery} :
    e ∈ entries ds ↔ e.2 ∈ ofSource e.1 ds := by
  rw [mem_ofSource, entries, List.mem_flatMap]
  refine exists_congr fun d => and_congr_right fun _ => ?_
  constructor
  · intro he
    obtain ⟨m, hm, rfl⟩ := List.mem_map.1 he
    exact ⟨rfl, hm⟩
  · rintro ⟨hr, hm⟩
    exact List.mem_map.2 ⟨e.2, hm, Prod.ext hr rfl⟩

end Delivery

namespace ConsumerGroup
open Delivery

variable {s : Store}

/-- An uncapped poll by a group whose cursor is not inside a batch does not divide the batch, and
leaves the cursor outside it. -/
theorem deliver_undivided (hs : s.Stamped) {x : Batch} (hx : x.Stored (s x.source))
    (hsole : s.Sole x.source) (rs : List PartitionRef) {cs : Cursors}
    (hclear : x.Clear (cs.consumed x.source + 1)) :
    Undivided x.entries (entries (deliver s rs cs none).1) ∧
      x.Clear ((deliver s rs cs none).2.consumed x.source + 1) := by
  induction rs generalizing cs with
  | nil => exact ⟨.nil _, hclear⟩
  | cons r rest ih =>
    have hlimit : ¬ Limit.spent none := nofun
    rw [deliver_cons hs r rest cs hlimit]
    simp only [entries_cons, Limit.after]
    by_cases hid : r.id = x.source.id
    · have hsame : cs.consumed x.source = cs.consumed r := by rw [Cursors.consumed, ← hid]; rfl
      rw [hsame] at hclear
      by_cases hr : r = x.source
      · subst hr
        obtain ⟨hread, hnext⟩ := Partition.read_undivided (hs x.source) hx hclear
        generalize (s x.source).read (cs.consumed x.source + 1) none = batch at hread hnext ⊢
        have hmoved : x.Clear (Cursors.consumed (cs.insert x.source.id
            (cs.consumed x.source + batch.length)) x.source + 1) := by
          rwa [consumed_insert_self, Int.add_right_comm]
        obtain ⟨hrest, hlast⟩ := ih hmoved
        exact ⟨(hread.map (Prod.mk_right_injective x.source)).append hrest, hlast⟩
      · -- a namesake of the source holds no message
        have hread : (s r).read (cs.consumed r + 1) none = [] := by
          apply Partition.read_of_get?_none
          rw [Partition.get?, hsole r hid hr]
          simp
        rw [hread, List.length_nil, Nat.cast_zero, Int.add_zero, List.map_nil, List.nil_append]
        apply ih
        rwa [consumed_insert_consumed, hsame]
    · have hne : r ≠ x.source := fun he => hid (he ▸ rfl)
      rw [← consumed_insert_of_ne cs (cs.consumed r +
        ((s r).read (cs.consumed r + 1) none).length) hid] at hclear
      obtain ⟨hrest, hlast⟩ := ih hclear
      refine ⟨.append (Or.inr fun e he he' => ?_) hrest, hlast⟩
      obtain ⟨m, -, rfl⟩ := List.mem_map.1 he
      obtain ⟨m', -, he'⟩ := List.mem_map.1 he'
      exact hne (congrArg Prod.fst he')

end ConsumerGroup
end LogBroker
