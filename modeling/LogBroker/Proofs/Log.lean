import Mathlib
import LogBroker.Partition

/-!
# Reading and writing a log

`Offset.upFrom o n` lists `n` consecutive offsets from `o` on. Both ways in which a log is used in
bulk are described by it:

* `run_map_some`: a run is what the log holds at the offsets of its own length;
* `run_stops`: a run that may be as long as the log is large ends only before an empty offset, and
  does not get longer if it is allowed more (`run_of_size_le`, `run_min_size`);
* `getElem?_store`: storing a block changes the offsets of the block and no other.

A log is `Stamped` when each message carries the offset it is stored under. Then the messages of a
run carry consecutive offsets (`run_offsets`).
-/
namespace LogBroker

namespace Offset

/-- The `n` offsets from `o` on. -/
def upFrom : Offset → Nat → List Offset
  | _, 0 => []
  | o, n + 1 => o :: upFrom (o + 1) n

@[simp] theorem length_upFrom (o : Offset) (n : Nat) : (upFrom o n).length = n := by
  induction n generalizing o with
  | zero => rfl
  | succ n ih => rw [upFrom, List.length_cons, ih]

theorem mem_upFrom {o x : Offset} {n : Nat} : x ∈ upFrom o n ↔ o ≤ x ∧ x < o + n := by
  induction n generalizing o with
  | zero => simp only [upFrom, List.not_mem_nil, false_iff]; lia
  | succ n ih => rw [upFrom, List.mem_cons, ih]; push_cast; lia

theorem upFrom_append (o : Offset) (m n : Nat) :
    upFrom o (m + n) = upFrom o m ++ upFrom (o + m) n := by
  induction m generalizing o with
  | zero => simp [upFrom]
  | succ m ih =>
    rw [show m + 1 + n = (m + n) + 1 by lia, upFrom, upFrom, ih, List.cons_append]
    congr 3; push_cast; lia

theorem pairwise_upFrom (o : Offset) (n : Nat) : (upFrom o n).Pairwise (· < ·) := by
  induction n generalizing o with
  | zero => exact .nil
  | succ n ih =>
    refine List.pairwise_cons.2 ⟨fun x hx => ?_, ih (o + 1)⟩
    have := mem_upFrom.1 hx; lia

theorem nodup_upFrom (o : Offset) (n : Nat) : (upFrom o n).Nodup :=
  (pairwise_upFrom o n).imp fun h => by lia

end Offset

/-- The messages that a block from `o` on holds once the records are stored in it. -/
def stamps : Offset → List Record → List Message
  | _, [] => []
  | o, r :: rest => r.stamp o :: stamps (o + 1) rest

theorem stamps_offsets (o : Offset) (rs : List Record) :
    (stamps o rs).map (·.offset) = Offset.upFrom o rs.length := by
  induction rs generalizing o with
  | nil => rfl
  | cons r rest ih => rw [stamps, List.map_cons, ih, List.length_cons, Offset.upFrom]; rfl

theorem stamps_records (o : Offset) (rs : List Record) : (stamps o rs).map Message.record = rs := by
  induction rs generalizing o with
  | nil => rfl
  | cons r rest ih => rw [stamps, List.map_cons, ih]; rfl

/-- Every message of a block lies inside it. -/
theorem mem_stamps_bounds {o : Offset} {rs : List Record} {m : Message} (h : m ∈ stamps o rs) :
    o ≤ m.offset ∧ m.offset < o + rs.length := by
  have : m.offset ∈ Offset.upFrom o rs.length := by
    rw [← stamps_offsets]; exact List.mem_map_of_mem h
  exact Offset.mem_upFrom.1 this

namespace Log

/-- Each message is stored under the offset it carries. -/
def Stamped (log : Log) : Prop := ∀ (o : Offset) (m : Message), log[o]? = some m → m.offset = o

theorem stamped_empty : Stamped ∅ := by
  intro o m h; simp at h

theorem Stamped.insert {log : Log} (h : Stamped log) (o : Offset) (r : Record) :
    Stamped (log.insert o (r.stamp o)) := by
  intro o' m hm
  rw [Std.ExtTreeMap.getElem?_insert] at hm
  split at hm
  · rename_i he
    cases hm; exact Std.LawfulEqCmp.eq_of_compare he
  · exact h o' m hm

/-! ## Storing a block -/

theorem Stamped.store {log : Log} (h : Stamped log) (o : Offset) (rs : List Record) :
    Stamped (log.store o rs) := by
  induction rs generalizing log o with
  | nil => exact h
  | cons r rest ih => exact ih (h.insert o r) (o + 1)

theorem getElem?_insert_eq (log : Log) (o o' : Offset) (m : Message) :
    (log.insert o m)[o']? = if o = o' then some m else log[o']? := by
  simp [Std.ExtTreeMap.getElem?_insert]

/-- A block changes nothing outside itself. -/
theorem getElem?_store_of_lt {log : Log} {o o' : Offset} (rs : List Record)
    (h : o' < o ∨ o + rs.length ≤ o') : (log.store o rs)[o']? = log[o']? := by
  induction rs generalizing log o with
  | nil => rfl
  | cons r rest ih =>
    simp only [List.length_cons, Nat.cast_add, Nat.cast_one] at h
    rw [store, ih (by lia), getElem?_insert_eq, if_neg (by lia)]

/-- A block holds its records, each at its own offset. -/
theorem getElem?_store_of_mem (log : Log) {o : Offset} {rs : List Record} {m : Message}
    (h : m ∈ stamps o rs) : (log.store o rs)[m.offset]? = some m := by
  induction rs generalizing log o with
  | nil => simp [stamps] at h
  | cons r rest ih =>
    rw [stamps, List.mem_cons] at h
    rw [store]
    rcases h with rfl | h
    · have : (r.stamp o).offset = o := rfl
      rw [getElem?_store_of_lt _ (Or.inl (by rw [this]; lia)), getElem?_insert_eq, if_pos this.symm]
    · exact ih _ h

/-- What the log holds after a block was stored: the block's messages, and outside the block what
it held before. -/
theorem getElem?_store (log : Log) (o o' : Offset) (rs : List Record) (m : Message) :
    (log.store o rs)[o']? = some m ↔
      (m ∈ stamps o rs ∧ m.offset = o') ∨
        ((o' < o ∨ o + rs.length ≤ o') ∧ log[o']? = some m) := by
  by_cases hout : o' < o ∨ o + (rs.length : Int) ≤ o'
  · rw [getElem?_store_of_lt rs hout]
    refine ⟨fun h => Or.inr ⟨hout, h⟩, fun h => ?_⟩
    rcases h with ⟨hm, rfl⟩ | ⟨-, h⟩
    · have := mem_stamps_bounds hm; lia
    · exact h
  · -- inside the block some stamped record sits at the offset
    have hin : o' ∈ (stamps o rs).map (·.offset) := by
      rw [stamps_offsets, Offset.mem_upFrom]; lia
    obtain ⟨m', hm', rfl⟩ := List.mem_map.1 hin
    rw [getElem?_store_of_mem log hm']
    constructor
    · intro h
      cases h; exact Or.inl ⟨hm', rfl⟩
    · intro h
      rcases h with ⟨hm, he⟩ | ⟨hout', -⟩
      · have h1 := getElem?_store_of_mem log hm
        rw [he, getElem?_store_of_mem log hm'] at h1
        exact h1
      · exact absurd hout' hout

/-! ## Reading a run -/

theorem run_map_some (log : Log) (count : Nat) (o : Offset) :
    (log.run count o).map some = (Offset.upFrom o (log.run count o).length).map (log[·]?) := by
  induction count generalizing o with
  | zero => rfl
  | succ count ih =>
    rw [run]
    cases h : log[o]? with
    | none => rfl
    | some m => simp only [List.map_cons, List.length_cons, Offset.upFrom, h, ih]

theorem getElem?_of_mem_run {log : Log} (hs : Stamped log) {count : Nat} {o : Offset} {m : Message}
    (h : m ∈ log.run count o) : log[m.offset]? = some m := by
  have hm : some m ∈ (log.run count o).map some := List.mem_map_of_mem h
  rw [run_map_some, List.mem_map] at hm
  obtain ⟨o', -, ho'⟩ := hm
  rw [hs o' m ho', ho']

/-- A run from `o` on carries the offsets `o`, `o + 1` and so on. -/
theorem run_offsets {log : Log} (hs : Stamped log) (count : Nat) (o : Offset) :
    (log.run count o).map (·.offset) = Offset.upFrom o (log.run count o).length := by
  induction count generalizing o with
  | zero => rfl
  | succ count ih =>
    rw [run]
    cases h : log[o]? with
    | none => rfl
    | some m => simp only [List.map_cons, List.length_cons, Offset.upFrom, ih, hs o m h]

theorem run_stops_of_lt {log : Log} {count : Nat} {o : Offset} (h : (log.run count o).length < count) :
    log[o + (log.run count o).length]? = none := by
  induction count generalizing o with
  | zero => exact absurd h (Nat.not_lt_zero _)
  | succ count ih =>
    rw [run] at h ⊢
    cases hm : log[o]? with
    | none => simpa using hm
    | some m =>
      simp only [hm, List.length_cons, Nat.add_lt_add_iff_right] at h ⊢
      rw [← ih h]; congr 1; push_cast; lia

/-- Consecutive offsets that all hold a message are no more than there are messages. -/
theorem le_size_of_filled {log : Log} {o : Offset} {n : Nat}
    (h : ∀ x ∈ Offset.upFrom o n, x ∈ log) : n ≤ log.size := by
  have hsub : (Offset.upFrom o n).Subperm log.keys :=
    List.subperm_of_subset (Offset.nodup_upFrom o n) fun x hx => Std.ExtTreeMap.mem_keys.2 (h x hx)
  have hlen := hsub.length_le
  rwa [Offset.length_upFrom, Std.ExtTreeMap.length_keys] at hlen

theorem mem_of_mem_upFrom_run {log : Log} {count : Nat} {o x : Offset}
    (h : x ∈ Offset.upFrom o (log.run count o).length) : x ∈ log := by
  have hx : log[x]? ∈ (log.run count o).map some := by
    rw [run_map_some]; exact List.mem_map_of_mem h
  obtain ⟨m, -, hm⟩ := List.mem_map.1 hx
  rw [Std.ExtTreeMap.mem_iff_isSome_getElem?, ← hm]; rfl

theorem run_length_le_size (log : Log) (count : Nat) (o : Offset) :
    (log.run count o).length ≤ log.size :=
  le_size_of_filled fun _ hx => mem_of_mem_upFrom_run hx

theorem take_run (log : Log) {n count : Nat} (h : n ≤ count) (o : Offset) :
    (log.run count o).take n = log.run n o := by
  induction n generalizing count o with
  | zero => rw [List.take_zero, run]
  | succ n ih =>
    obtain ⟨count, rfl⟩ := Nat.exists_eq_add_of_lt h
    rw [run, run]
    cases log[o]? with
    | none => rfl
    | some m => rw [List.take_succ_cons, ih (by omega)]

/-- A run that may be as long as the log is large does not get longer. -/
theorem run_of_size_le {log : Log} {count : Nat} (h : log.size ≤ count) (o : Offset) :
    log.run count o = log.run log.size o := by
  rw [← take_run log h o, List.take_of_length_le (run_length_le_size log count o)]

theorem run_min_size (log : Log) (count : Nat) (o : Offset) :
    log.run (min count log.size) o = log.run count o := by
  rcases Nat.le_total count log.size with h | h
  · rw [Nat.min_eq_left h]
  · rw [Nat.min_eq_right h, run_of_size_le h]

/-- Runs are alike where logs hold the same from some offset on. -/
theorem run_congr {log log' : Log} {o : Offset} (h : ∀ x : Offset, o ≤ x → log[x]? = log'[x]?)
    (count : Nat) : log.run count o = log'.run count o := by
  induction count generalizing o with
  | zero => rfl
  | succ count ih =>
    rw [run, run, h o (Int.le_refl o), ih fun x hx => h x (by lia)]

/-- A run that is allowed as many messages as there are ends before an empty offset. -/
theorem run_stops {log : Log} {count : Nat} (h : log.size ≤ count) (o : Offset) :
    log[o + (log.run count o).length]? = none := by
  rcases Nat.lt_or_ge (log.run count o).length count with hlt | hge
  · exact run_stops_of_lt hlt
  · -- the run is as long as the log is large, so one more message would be one too many
    by_contra hne
    have hmem : o + ((log.run count o).length : Int) ∈ log := by
      rw [Std.ExtTreeMap.mem_iff_isSome_getElem?]; exact Option.isSome_iff_ne_none.2 hne
    have hle : (log.run count o).length + 1 ≤ log.size := by
      apply le_size_of_filled (o := o)
      intro x hx
      rw [Offset.upFrom_append, List.mem_append] at hx
      rcases hx with hx | hx
      · exact mem_of_mem_upFrom_run hx
      · rw [Offset.upFrom, Offset.upFrom, List.mem_singleton] at hx
        rw [hx]; exact hmem
    lia

end Log
end LogBroker
