import Mathlib
import LogBroker.Proofs.Log
import LogBroker.Proofs.Partition.History

/-!
# Appends only

A partition that only appends hands out one offset after the other from its watermark on. Where the
counter may wrap around these are the `Offset.ticks` of a clock with 2^64 positions: distinct for as
many appends as there are positions (`nodup_ticks`), and consecutive numbers as long as nothing wraps
(`ticks_eq_upFrom`).

A batch is the same as its records one by one, as long as nothing wraps (`appendBatch_eq_appends`).

What is appended does not matter to the offsets. After equally many appends two copies of a
partition are `Alike`, with one watermark and messages at the same offsets.
-/
namespace LogBroker

namespace Offset

/-- What the counter of offsets shows after some steps. -/
def tick (o : Offset) (n : Nat) : Offset := (fun o => wrap (o + 1))^[n] o

/-- What the counter of offsets shows one after the other, before each of some steps. -/
def ticks (o : Offset) (n : Nat) : List Offset := (List.range n).map o.tick

theorem tick_succ (o : Offset) (n : Nat) : o.tick (n + 1) = wrap (o.tick n + 1) :=
  Function.iterate_succ_apply' _ n o

theorem ticks_succ (o : Offset) (n : Nat) : o.ticks (n + 1) = o.ticks n ++ [o.tick n] := by
  rw [ticks, List.range_succ, List.map_append]
  rfl

theorem ticks_cons (o : Offset) (n : Nat) : o.ticks (n + 1) = o :: (wrap (o + 1)).ticks n := by
  rw [ticks, List.range_succ_eq_map, List.map_cons, List.map_map]
  rfl

@[simp] theorem length_ticks (o : Offset) (n : Nat) : (o.ticks n).length = n := by
  rw [ticks, List.length_map, List.length_range]

/-- The counter agrees with the true sum up to multiples of 2^64. -/
theorem tick_emod (o : Offset) (n : Nat) :
    o.tick n % (UInt64.size : Int) = (o + n) % (UInt64.size : Int) := by
  induction n with
  | zero => rw [Nat.cast_zero, Int.add_zero]; rfl
  | succ n ih =>
    rw [tick_succ, wrap, Int.bmod_emod, Int.add_emod, ih, ← Int.add_emod, Nat.cast_succ n,
      Int.add_assoc]

theorem nodup_ticks (o : Offset) {n : Nat} (h : n ≤ UInt64.size) : (o.ticks n).Nodup := by
  refine List.nodup_range.map_on fun i hi j hj he => ?_
  have hi := List.mem_range.1 hi
  have hj := List.mem_range.1 hj
  have hmod := congrArg (· % (UInt64.size : Int)) he
  simp only [tick_emod] at hmod
  have hij : (i : Int) % UInt64.size = (j : Int) % UInt64.size :=
    Int.ModEq.add_left_cancel' o hmod
  rw [Int.emod_eq_of_lt (by lia) (by lia), Int.emod_eq_of_lt (by lia) (by lia)] at hij
  exact Int.ofNat.inj hij

theorem tick_eq_add {o : Offset} {n : Nat} (h0 : -0x8000000000000000 ≤ o)
    (h : o + n < 0x8000000000000000) : o.tick n = o + n := by
  induction n with
  | zero => exact (Int.add_zero o).symm
  | succ n ih =>
    push_cast at h ⊢
    rw [tick_succ, ih (by lia), wrap_eq_self (by lia) (by lia), Int.add_assoc]

/-- As long as nothing wraps, the counter counts. -/
theorem ticks_eq_upFrom {o : Offset} {n : Nat} (h0 : -0x8000000000000000 ≤ o)
    (h : o + n ≤ 0x8000000000000000) : o.ticks n = upFrom o n := by
  induction n with
  | zero => rfl
  | succ n ih =>
    push_cast at h
    rw [ticks_succ, ih (by lia), tick_eq_add h0 (by lia), upFrom_append]
    rfl

end Offset

namespace Partition

/-- Appending one record after the other, as requests and as operations. -/
theorem run_appends (p : Partition) (rs : List Record) :
    p.run (rs.map .append) =
      ((Run.transcript append p rs).map fun q => .offset q.2, Run.last append p rs) := by
  induction rs generalizing p with
  | nil => rfl
  | cons r rs ih =>
    simp only [List.map_cons, run, step, ih]
    rfl

theorem offsets_appends (p : Partition) (rs : List Record) :
    (Run.transcript append p rs).map Prod.snd = p.watermark.ticks rs.length := by
  induction rs generalizing p with
  | nil => rfl
  | cons r rs ih =>
    rw [Run.transcript, List.map_cons, ih, List.length_cons, Offset.ticks_cons]
    rfl

/-- Without overflow, appended records fill a block. -/
theorem last_appends {p : Partition} {rs : List Record} (h0 : -0x8000000000000000 ≤ p.watermark)
    (h : p.watermark + rs.length < 0x8000000000000000) :
    Run.last append p rs = { p with
      watermark := p.watermark + rs.length, log := p.log.store p.watermark rs } := by
  induction rs generalizing p with
  | nil => simp [Run.last, Log.store]
  | cons r rs ih =>
    push_cast [List.length_cons] at h ⊢
    have hw : (p.append r).2.watermark = p.watermark + 1 :=
      Offset.wrap_eq_self (by lia) (by lia)
    rw [Run.last, ih (by lia) (by lia), hw, Log.store]
    simp only [append]
    congr 1
    lia

/-- **A batch is its records.** Without overflow, a batch leaves the partition as its records do,
appended one after the other, and its range has the offsets that they get. -/
theorem appendBatch_eq_appends {p : Partition} {rs : List Record}
    (h0 : -0x8000000000000000 ≤ p.watermark)
    (h : p.watermark + rs.length < 0x8000000000000000) :
    (p.appendBatch rs).2 = Run.last append p rs ∧
      (p.appendBatch rs).1.offsets = (Run.transcript append p rs).map Prod.snd := by
  have hstop : Offset.wrap (p.watermark + rs.length) = p.watermark + rs.length :=
    Offset.wrap_eq_self (by lia) h
  rw [offsets_appends, Offset.ticks_eq_upFrom h0 h.le, last_appends h0 h]
  simp only [appendBatch, reserve, hstop, OffsetRange.offsets, true_and]
  congr 1
  lia

theorem watermark_appends (p : Partition) (rs : List Record) :
    (Run.last append p rs).watermark = p.watermark.tick rs.length := by
  induction rs generalizing p with
  | nil => rfl
  | cons r rs ih => rw [Run.last, ih]; rfl

/-- The same partition but for what the messages say. -/
structure Alike (p q : Partition) : Prop where
  topic : p.topic = q.topic
  index : p.index = q.index
  watermark : p.watermark = q.watermark
  offsets : ∀ o : Offset, o ∈ p.log ↔ o ∈ q.log

theorem Alike.refl (p : Partition) : Alike p p := ⟨rfl, rfl, rfl, fun _ => Iff.rfl⟩

theorem Alike.after_append {p q : Partition} (h : Alike p q) (r r' : Record) :
    Alike (p.append r).2 (q.append r').2 where
  topic := h.topic
  index := h.index
  watermark := congrArg (fun o => Offset.wrap (o + 1)) h.watermark
  offsets o := by
    simp only [Partition.append, Std.ExtTreeMap.mem_insert, h.watermark, h.offsets o]

theorem Alike.after_appends {p q : Partition} (h : Alike p q) {rs rs' : List Record}
    (hlen : rs.length = rs'.length) : Alike (Run.last append p rs) (Run.last append q rs') := by
  induction rs generalizing p q rs' with
  | nil => rwa [List.eq_nil_of_length_eq_zero hlen.symm]
  | cons r rs ih =>
    cases rs' with
    | nil => cases hlen
    | cons r' rs' => exact ih (h.after_append r r') (Nat.succ.inj hlen)

theorem Alike.size_eq {p q : Partition} (h : Alike p q) : p.size = q.size := by
  have hperm : p.log.keys.Perm q.log.keys :=
    (List.perm_ext_iff_of_nodup (TreeMap.nodup_keys p.log) (TreeMap.nodup_keys q.log)).2 fun o => by
      rw [Std.ExtTreeMap.mem_keys, Std.ExtTreeMap.mem_keys, h.offsets o]
  have hlen := hperm.length_eq
  rwa [Std.ExtTreeMap.length_keys, Std.ExtTreeMap.length_keys] at hlen

end Partition
end LogBroker
