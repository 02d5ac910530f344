import Mathlib
import LogBroker.Proofs.Delivery.Pending

/-!
# A read, offset by offset

A reader looks at one offset after the other. It stops when it has found as many messages as it may
return, or before an offset that holds none (`Reading.step`). No number says beforehand how often it
will look: the cap may be far beyond what is stored, and the log may start anywhere and have holes.

* `Reading.after_run`: reading on finds the run of messages from the next offset on, one with each
  look.
* `length_read_isGreatest`: a read returns as many messages as its cap and the first empty offset
  let it. So it ends before one of them (`read_over`).
* `read_add`: a read may be cut in two, wherever its first part is not cut short by an empty offset.

Since the messages of a run are no more than the log holds, every reading is over after finitely
many looks, at what `Partition.read` returns (`read_exact`).
-/
namespace LogBroker.Partition

/-- A read under way: the offset to look at next, and the messages found so far. -/
structure Reading where
  next : Offset
  found : List Message
  deriving DecidableEq

namespace Reading

/-- Looks at the next offset; `none` if the read is over. -/
def step (p : Partition) (max : Nat) (x : Reading) : Option Reading :=
  if x.found.length < max then (p.get? x.next).map fun m => ⟨x.next + 1, x.found ++ [m]⟩ else none

/-- The read after a number of looks; `none` if it is over by then. -/
def after (p : Partition) (max : Nat) : Nat → Reading → Option Reading
  | 0, x => some x
  | n + 1, x => (x.step p max).bind (after p max n)

variable {p : Partition} {max : Nat}

theorem after_succ (n : Nat) (x : Reading) :
    after p max (n + 1) x = (after p max n x).bind (step p max) := by
  induction n generalizing x with
  | zero => exact Option.bind_fun_some (x.step p max)
  | succ n ih =>
    calc (x.step p max).bind (after p max (n + 1))
        = (x.step p max).bind fun y => (after p max n y).bind (step p max) :=
          congrArg _ (funext ih)
      _ = ((x.step p max).bind (after p max n)).bind (step p max) := (Option.bind_assoc ..).symm

theorem step_of_found {x : Reading} {m : Message} (h : x.found.length < max)
    (hm : p.get? x.next = some m) : x.step p max = some ⟨x.next + 1, x.found ++ [m]⟩ := by
  rw [step, if_pos h, hm, Option.map_some]

theorem step_eq_none {x : Reading} (h : x.found.length < max → p.get? x.next = none) :
    x.step p max = none := by
  unfold step
  split
  · rename_i hlt
    rw [h hlt, Option.map_none]
  · rfl

/-- Reading on finds the messages of a run, one with each look. -/
theorem after_run (count : Nat) (x : Reading) (h : x.found.length + count ≤ max) :
    after p max (p.log.run count x.next).length x =
      some ⟨x.next + (p.log.run count x.next).length, x.found ++ p.log.run count x.next⟩ := by
  induction count generalizing x with
  | zero => simp [Log.run, after]
  | succ count ih =>
    rw [Log.run]
    cases hm : p.log[x.next]? with
    | none => simp [after]
    | some m =>
      have hstep := step_of_found (by omega : x.found.length < max) hm
      have hrest := ih ⟨x.next + 1, x.found ++ [m]⟩ (by rw [List.length_append]; simp; omega)
      simp only [List.length_cons, after, hstep, Option.bind_some, hrest, List.append_assoc,
        List.singleton_append]
      congr 2
      push_cast
      lia

end Reading

variable (p : Partition)

/-! ## How far a read goes -/

theorem read_some (start : Offset) (max : Nat) : p.read start (some max) = p.log.run max start :=
  Log.run_min_size p.log max start

theorem length_read_le (start : Offset) (max : Nat) : (p.read start (some max)).length ≤ max := by
  rw [read_eq_take]
  exact List.length_take_le max _

/-- A read with room for one message more ends before an empty offset. -/
theorem read_over {start : Offset} {max : Nat} (h : (p.read start (some max)).length < max) :
    p.get? (start + (p.read start (some max)).length) = none := by
  rw [read_some] at h ⊢
  exact Log.run_stops_of_lt h

/-- The messages of a read are what is stored at the offsets from its start on. -/
theorem read_map_some (start : Offset) (limit : Limit) :
    (p.read start limit).map some =
      (Offset.upFrom start (p.read start limit).length).map p.get? :=
  Log.run_map_some p.log _ start

/-- A read returns as many messages as possible: within the cap, from the start on, and with a
message at each offset. -/
theorem length_read_isGreatest (start : Offset) (max : Nat) :
    IsGreatest {n : Nat | n ≤ max ∧ ∀ o ∈ Offset.upFrom start n, (p.get? o).isSome}
      (p.read start (some max)).length := by
  refine ⟨⟨p.length_read_le start max, fun o ho => ?_⟩, fun n hn => ?_⟩
  · have hget : p.get? o ∈ (p.read start (some max)).map some := by
      rw [read_map_some]
      exact List.mem_map_of_mem ho
    obtain ⟨m, -, hm⟩ := List.mem_map.1 hget
    rw [← hm]
    rfl
  · -- with more messages there would be one at the offset before which the read ended
    by_contra hlt
    rw [not_le] at hlt
    have hnone := p.read_over (hlt.trans_le hn.1)
    have hin : start + ((p.read start (some max)).length : Int) ∈ Offset.upFrom start n :=
      Offset.mem_upFrom.2 ⟨by lia, by lia⟩
    have hsome := hn.2 _ hin
    rw [hnone] at hsome
    cases hsome

/-! ## Two reads for one -/

/-- A read in two parts. The second part goes on where the first is at its end, if the first part is
complete. -/
theorem read_add (start : Offset) (a b : Nat) :
    p.read start (some (a + b)) =
      if (p.read start (some a)).length = a
      then p.read start (some a) ++ p.read (start + a) (some b)
      else p.read start (some a) := by
  have ha : p.read start (some a) = (p.read start none).take a := read_eq_take p start (some a)
  have hb : p.read (start + a) (some b) = (p.read (start + a) none).take b := read_eq_take ..
  have hab : p.read start (some (a + b)) = (p.read start none).take (a + b) := read_eq_take ..
  rw [hab, ha, hb, List.length_take]
  split
  · rename_i h
    rw [read_drop (by omega), List.take_add]
  · rename_i h
    rw [List.take_of_length_le (by omega), List.take_of_length_le (by omega)]

/-! ## All together -/

/-- **Exact reads.** Whatever a partition holds and wherever a read starts: with a cap the read is
over after finitely many looks, one for each message that it returns and a last one that finds
nothing or is not made. It returns what is stored at consecutive offsets from the start on, and as
much of it as possible: it ends at its cap or before an empty offset, and so without a cap if the
cap is large enough. Two reads, one after the other, return what one read does. -/
theorem read_exact (start : Offset) (max : Nat) :
    let ms := p.read start (some max)
    Reading.after p max ms.length ⟨start, []⟩ = some ⟨start + ms.length, ms⟩ ∧
    Reading.after p max (ms.length + 1) ⟨start, []⟩ = none ∧
    ms.map some = (Offset.upFrom start ms.length).map p.get? ∧
    IsGreatest {n : Nat | n ≤ max ∧ ∀ o ∈ Offset.upFrom start n, (p.get? o).isSome} ms.length ∧
    (ms.length = max ∨ p.get? (start + ms.length) = none) ∧
    ms.length ≤ p.size ∧
    (p.size ≤ max → p.read start none = ms) ∧
    ∀ a b, p.read start (some (a + b)) =
      if (p.read start (some a)).length = a
      then p.read start (some a) ++ p.read (start + a) (some b)
      else p.read start (some a) := by
  intro ms
  have hlast : Reading.after p max ms.length ⟨start, []⟩ = some ⟨start + ms.length, ms⟩ := by
    have hrun := Reading.after_run (p := p) max ⟨start, []⟩ (Nat.zero_add max).le
    rw [← read_some] at hrun
    exact hrun
  have hover : ms.length < max → p.get? (start + ms.length) = none := p.read_over
  refine ⟨hlast, ?_, p.read_map_some start (some max), p.length_read_isGreatest start max, ?_,
    p.length_read_le_size start (some max), fun h => ?_, p.read_add start⟩
  · rw [Reading.after_succ, hlast]
    exact Reading.step_eq_none hover
  · rcases (p.length_read_le start max).eq_or_lt with he | hlt
    · exact Or.inl he
    · exact Or.inr (hover hlt)
  · exact ((read_some p start max).trans (Log.run_of_size_le h start)).symm

/-- A log that has holes and was filled out of order: offsets 2, 0 and 3 are stored, and 1 is
reserved. -/
def scattered : Partition :=
  ((new "t" 0).run [.reserve 3, .fill 2 ⟨none, [2]⟩, .fill 0 ⟨none, [0]⟩, .append ⟨none, [3]⟩]).2

/-- With the largest cap there is, a read over the end is at its end after two messages. -/
theorem read_exact_scattered :
    scattered.size ≤ 0xFFFFFFFFFFFFFFFF ∧
    Reading.after scattered 0xFFFFFFFFFFFFFFFF 3 ⟨2, []⟩ = none ∧
    scattered.read 2 none = scattered.read 2 (some 0xFFFFFFFFFFFFFFFF) ∧
    scattered.read 2 (some 0xFFFFFFFFFFFFFFFF) = [⟨2, none, [2]⟩, ⟨3, none, [3]⟩] := by
  have hms : scattered.read 2 none = [⟨2, none, [2]⟩, ⟨3, none, [3]⟩] := by decide
  have hsize : scattered.size ≤ 0xFFFFFFFFFFFFFFFF := by decide
  obtain ⟨-, hover, -, -, -, -, hnone, -⟩ := read_exact scattered 2 0xFFFFFFFFFFFFFFFF
  have hread := hnone hsize
  rw [hread] at hms
  rw [hms] at hover
  exact ⟨hsize, hover, hread, hms⟩

end LogBroker.Partition
