import Mathlib
import LogBroker.Proofs.Partition
import LogBroker.Proofs.Run
import LogBroker.Proofs.TreeMap

/-!
# A partition and its history

Five requests share one watermark and one log. What they did is read off the transcript of a run,
each request with its answer:

* `granted`: the ranges of offsets that were handed out;
* `appended`, `reserved`, `filled`: the offsets that were handed out together with their messages,
  those handed out ahead of them, and the reserved ones that were filled later;
* `writes`: the messages that were stored; `vacant`: the offsets still to be filled.

`History` ties a partition to the transcript of the run that led to it, provided that offsets fit.
The granted ranges tile the offsets below the watermark (`OffsetRange.Tile`). These offsets are
therefore those appended and those reserved, each once (`History.handedOut_perm`), or those
appended, those filled and those vacant (`History.accounted`). The log holds what was written.
-/
namespace LogBroker

namespace OffsetRange

/-- The offsets of a range, in order. -/
def offsets (r : OffsetRange) : List Offset := Offset.upFrom r.first (r.stop - r.first).toNat

/-- The ranges follow each other from `low` to `high` without gap and without overlap. -/
def Tile : Offset → List OffsetRange → Offset → Prop
  | low, [], high => low = high
  | low, r :: rest, high => r.first = low ∧ r.first ≤ r.stop ∧ Tile r.stop rest high

theorem tile_append {low high : Offset} (xs ys : List OffsetRange) :
    Tile low (xs ++ ys) high ↔ ∃ mid, Tile low xs mid ∧ Tile mid ys high := by
  induction xs generalizing low with
  | nil => simp [Tile]
  | cons r xs ih => simp only [List.cons_append, Tile, ih]; grind

theorem Tile.le {low high : Offset} {rs : List OffsetRange} (h : Tile low rs high) :
    low ≤ high := by
  induction rs generalizing low with
  | nil => exact Int.le_of_eq h
  | cons r rs ih =>
    obtain ⟨rfl, hle, hrest⟩ := h
    exact Int.le_trans hle (ih hrest)

/-- What tiles two offsets makes up all the offsets in between. -/
theorem Tile.offsets_eq {low high : Offset} {rs : List OffsetRange} (h : Tile low rs high) :
    rs.flatMap offsets = Offset.upFrom low (high - low).toNat := by
  induction rs generalizing low with
  | nil => simp only [Tile] at h; simp [h, Offset.upFrom]
  | cons r rs ih =>
    obtain ⟨rfl, hle, hrest⟩ := h
    have hle' := hrest.le
    rw [List.flatMap_cons, ih hrest, offsets,
      show (high - r.first).toNat = (r.stop - r.first).toNat + (high - r.stop).toNat by lia,
      Offset.upFrom_append]
    congr 2
    lia

end OffsetRange

namespace Partition

/-- The commands of a run, each with its answer. -/
def transcript (p : Partition) (cs : List Command) : List (Command × Answer) :=
  Run.transcript step p cs

theorem run_eq (p : Partition) (cs : List Command) :
    p.run cs = ((p.transcript cs).map Prod.snd, Run.last step p cs) := by
  induction cs generalizing p with
  | nil => rfl
  | cons c cs ih => simp only [run, ih]; rfl

/-! ## What a request did -/

/-- The range of offsets that a request handed out. -/
def granted : Command × Answer → List OffsetRange
  | (.append _, .offset o) | (.reserveOne, .offset o) => [⟨o, o + 1⟩]
  | (.appendBatch _, .range range) | (.reserve _, .range range) => [range]
  | _ => []

/-- The offsets that a request handed out together with their messages. -/
def appended : Command × Answer → List Offset
  | (.append _, .offset o) => [o]
  | (.appendBatch _, .range range) => range.offsets
  | _ => []

/-- The offsets that a request handed out ahead of their messages. -/
def reserved : Command × Answer → List Offset
  | (.reserveOne, .offset o) => [o]
  | (.reserve _, .range range) => range.offsets
  | _ => []

/-- The offset that a request filled. -/
def filled : Command × Answer → List Offset
  | (.fill o _, .filled) => [o]
  | _ => []

/-- All messages that were stored during a run. -/
def writes (t : List (Command × Answer)) : List Message := t.flatMap fun q => written q.1 q.2

/-- The offsets that were reserved during a run and not filled. -/
def vacant (t : List (Command × Answer)) : List Offset :=
  (t.flatMap reserved).filter (· ∉ t.flatMap filled)

theorem offsets_granted (q : Command × Answer) :
    (granted q).flatMap OffsetRange.offsets = appended q ++ reserved q := by
  obtain ⟨c, a⟩ := q
  cases c <;> cases a <;> simp [granted, appended, reserved, OffsetRange.offsets, Offset.upFrom]

variable {p : Partition} {c : Command}

/-- A request that fits hands out nothing, or what lies between the watermark before and after. -/
theorem granted_step (h0 : 0 ≤ p.watermark) (hf : p.Fits c) :
    (granted (c, (p.step c).1) = [] ∧ (p.step c).2.watermark = p.watermark) ∨
      granted (c, (p.step c).1) = [⟨p.watermark, (p.step c).2.watermark⟩] := by
  have hw := watermark_step h0 hf
  unfold Fits at hf
  cases c with
  | append r => exact Or.inr (by rw [hw]; rfl)
  | appendBatch rs =>
    refine Or.inr ?_
    rw [hw]
    simp only [step, appendBatch_fits rs h0 hf, granted, Command.handedOut]
  | reserveOne => exact Or.inr (by rw [hw]; rfl)
  | reserve count =>
    refine Or.inr ?_
    rw [hw]
    simp only [step, reserve_fits count h0 hf, granted, Command.handedOut]
  | get o => exact Or.inl ⟨rfl, rfl⟩
  | fill o r =>
    refine Or.inl ⟨?_, by simpa [Command.handedOut] using hw⟩
    simp only [step]
    split <;> rfl
  | read start limit => exact Or.inl ⟨rfl, rfl⟩

/-- The messages that a request stores carry the offsets that it appends or fills. -/
theorem offsets_written (h0 : 0 ≤ p.watermark) (hf : p.Fits c) :
    (written c (p.step c).1).map (·.offset) =
      appended (c, (p.step c).1) ++ filled (c, (p.step c).1) := by
  unfold Fits at hf
  cases c with
  | append r => rfl
  | appendBatch rs =>
    simp only [step, appendBatch_fits rs h0 hf, written, appended, filled, List.append_nil,
      OffsetRange.offsets, stamps_offsets]
    congr 1
    lia
  | get o => rfl
  | reserveOne => rfl
  | reserve count => rfl
  | fill o r =>
    simp only [step]
    split <;> rfl
  | read start limit => rfl

/-- A request fills nothing, or an offset below the watermark that was empty. -/
theorem filled_step (p : Partition) (c : Command) :
    filled (c, (p.step c).1) = [] ∨ ∃ o, filled (c, (p.step c).1) = [o] ∧
      0 ≤ o ∧ o < p.watermark ∧ p.get? o = none := by
  cases c with
  | fill o r =>
    simp only [step]
    split
    · rename_i q hq
      obtain ⟨hlo, hhi, hnone, -⟩ := fill_ok hq
      exact Or.inr ⟨o, rfl, hlo, hhi, hnone⟩
    · exact Or.inl rfl
  | _ => exact Or.inl rfl

/-! ## A run -/

/-- A partition and the transcript of the run that led to it from an empty one. -/
structure History (p : Partition) (t : List (Command × Answer)) : Prop where
  bounded : p.Bounded
  stamped : p.log.Stamped
  tiles : OffsetRange.Tile 0 (t.flatMap granted) p.watermark
  stored : ∀ m, m ∈ writes t ↔ p.get? m.offset = some m
  offsets : ((writes t).map (·.offset)).Perm (t.flatMap appended ++ t.flatMap filled)
  filled_nodup : (t.flatMap filled).Nodup
  filled_reserved : ∀ o ∈ t.flatMap filled, o ∈ t.flatMap reserved

namespace History
variable {t : List (Command × Answer)}

theorem new (topic : String) (index : Nat) : History (Partition.new topic index) [] where
  bounded := bounded_new topic index
  stamped := stamped_new topic index
  tiles := rfl
  stored m := by simp [writes, Partition.new, get?]
  offsets := .nil
  filled_nodup := .nil
  filled_reserved _ h := h

/-- The offsets below the watermark were appended or reserved, each once. -/
theorem handedOut_perm (h : History p t) :
    (t.flatMap appended ++ t.flatMap reserved).Perm (Offset.upFrom 0 p.watermark.toNat) := by
  have hsplit := List.flatMap_append_perm t appended reserved
  have hall := h.tiles.offsets_eq
  rw [List.flatMap_assoc, Int.sub_zero] at hall
  simp only [offsets_granted] at hall
  rwa [hall] at hsplit

theorem mem_writes_of_offset (h : History p t) {o : Offset}
    (ho : o ∈ t.flatMap appended ++ t.flatMap filled) : ∃ m, p.get? o = some m := by
  obtain ⟨m, hm, rfl⟩ := List.mem_map.1 (h.offsets.mem_iff.2 ho)
  exact ⟨m, (h.stored m).1 hm⟩

theorem step (h : History p t) (hf : p.Fits c) :
    History (p.step c).2 (t ++ [(c, (p.step c).1)]) where
  bounded := bounded_step h.bounded hf
  stamped := stamped_step h.stamped c
  tiles := by
    rw [List.flatMap_append, List.flatMap_singleton, OffsetRange.tile_append]
    refine ⟨p.watermark, h.tiles, ?_⟩
    rcases granted_step h.bounded.nonneg hf with ⟨hg, hw⟩ | hg
    · rw [hg, hw]
      rfl
    · have hw := watermark_step h.bounded.nonneg hf
      rw [hg]
      exact ⟨rfl, by simp only; lia, rfl⟩
  stored m := by
    rw [get?_step h.bounded hf, writes, List.flatMap_append, List.mem_append, ← writes, h.stored]
    simp
  offsets := by
    have hold := List.perm_iff_count.1 h.offsets
    rw [List.perm_iff_count]
    intro o
    specialize hold o
    simp only [writes, List.flatMap_append, List.flatMap_singleton, List.map_append,
      offsets_written h.bounded.nonneg hf, List.count_append] at hold ⊢
    omega
  filled_nodup := by
    rw [List.flatMap_append, List.flatMap_singleton]
    rcases filled_step p c with hnone | ⟨o, ho, -, -, hempty⟩
    · rw [hnone, List.append_nil]
      exact h.filled_nodup
    · -- what was filled before is stored
      have hnew : o ∉ t.flatMap filled := by
        intro hold
        obtain ⟨m, hm⟩ := h.mem_writes_of_offset (List.mem_append_right _ hold)
        rw [hempty] at hm
        cases hm
      rw [ho]
      exact List.nodup_append.2 ⟨h.filled_nodup, List.nodup_singleton o, fun x hx y hy he => by
        rw [List.mem_singleton.1 hy] at he
        exact hnew (he ▸ hx)⟩
  filled_reserved := by
    intro x hx
    rw [List.flatMap_append, List.flatMap_singleton, List.mem_append] at hx ⊢
    rcases hx with hx | hx
    · exact Or.inl (h.filled_reserved x hx)
    · rcases filled_step p c with hnone | ⟨o, ho, hlo, hhi, hempty⟩
      · rw [hnone] at hx
        cases hx
      · rw [ho, List.mem_singleton] at hx
        subst hx
        -- below the watermark an empty offset was reserved, for what was appended is stored
        have hmem : x ∈ t.flatMap appended ++ t.flatMap reserved :=
          h.handedOut_perm.mem_iff.2 (Offset.mem_upFrom.2 ⟨hlo, by lia⟩)
        rcases List.mem_append.1 hmem with happ | hres
        · obtain ⟨m, hm⟩ := h.mem_writes_of_offset (List.mem_append_left _ happ)
          rw [hempty] at hm
          cases hm
        · exact Or.inl hres

/-- A reserved offset was filled or is vacant. -/
theorem reserved_perm (h : History p t) :
    (t.flatMap reserved).Perm (t.flatMap filled ++ vacant t) := by
  have hnodup : (t.flatMap reserved).Nodup :=
    (List.nodup_append.1 (h.handedOut_perm.nodup_iff.2 (Offset.nodup_upFrom _ _))).2.1
  have hfilled : ((t.flatMap reserved).filter (· ∈ t.flatMap filled)).Perm (t.flatMap filled) := by
    rw [List.perm_ext_iff_of_nodup (hnodup.filter _) h.filled_nodup]
    intro o
    rw [List.mem_filter, decide_eq_true_eq]
    exact ⟨And.right, fun ho => ⟨h.filled_reserved o ho, ho⟩⟩
  have hsplit := List.filter_append_perm (fun o => decide (o ∈ t.flatMap filled))
    (t.flatMap reserved)
  simp only [← decide_not] at hsplit
  exact hsplit.symm.trans (hfilled.append_right _)

/-- An offset below the watermark was appended, or reserved and filled, or is vacant. -/
theorem accounted (h : History p t) :
    (t.flatMap appended ++ t.flatMap filled ++ vacant t).Perm
      (Offset.upFrom 0 p.watermark.toNat) := by
  rw [List.append_assoc]
  exact (h.reserved_perm.symm.append_left _).trans h.handedOut_perm

theorem offsets_nodup (h : History p t) : ((writes t).map (·.offset)).Nodup :=
  h.offsets.nodup_iff.2
    (List.nodup_append.1 (h.accounted.nodup_iff.2 (Offset.nodup_upFrom _ _))).1

theorem keys_perm (h : History p t) : p.log.keys.Perm ((writes t).map (·.offset)) := by
  rw [List.perm_ext_iff_of_nodup (TreeMap.nodup_keys p.log) h.offsets_nodup]
  intro o
  rw [Std.ExtTreeMap.mem_keys, Std.ExtTreeMap.mem_iff_isSome_getElem?, Option.isSome_iff_exists,
    List.mem_map]
  constructor
  · rintro ⟨m, hm⟩
    obtain rfl := h.stamped o m hm
    exact ⟨m, (h.stored m).2 hm, rfl⟩
  · rintro ⟨m, hm, rfl⟩
    exact ⟨m, (h.stored m).1 hm⟩

/-- The watermark is ahead of the number of messages by the number of vacant offsets. -/
theorem watermark_sub_size (h : History p t) : p.watermark - p.size = (vacant t).length := by
  have hsize : p.size = (t.flatMap appended).length + (t.flatMap filled).length := by
    rw [size, ← Std.ExtTreeMap.length_keys, h.keys_perm.length_eq, h.offsets.length_eq,
      List.length_append]
  have hlen := h.accounted.length_eq
  rw [List.length_append, List.length_append, Offset.length_upFrom] at hlen
  have h0 := h.bounded.nonneg
  lia

end History

theorem history_run {topic : String} {index : Nat} {cs : List Command}
    (hf : Run.Along Partition.step Fits (new topic index) cs) :
    History (Run.last Partition.step (new topic index) cs) ((new topic index).transcript cs) :=
  Run.invariant History (fun _ _ _ hc h => h.step hc) (.new topic index) hf

/-- **Tiling.** Over any run in which offsets fit, the ranges handed out follow each other from zero
up to the watermark. The log holds the messages of the appends and batches and those that filled
reserved offsets, each under its own offset. An offset below the watermark that holds none is
reserved and vacant, and no other offset holds any. -/
theorem log_is_history {topic : String} {index : Nat} {cs : List Command}
    (hf : Run.Along step Fits (new topic index) cs) :
    let p := ((new topic index).run cs).2
    let t := (new topic index).transcript cs
    OffsetRange.Tile 0 (t.flatMap granted) p.watermark ∧
    (t.flatMap granted).flatMap OffsetRange.offsets = Offset.upFrom 0 p.watermark.toNat ∧
    (∀ (o : Offset) (m : Message), p.get? o = some m ↔ m.offset = o ∧ m ∈ writes t) ∧
    ((writes t).map (·.offset)).Perm (t.flatMap appended ++ t.flatMap filled) ∧
    (∀ o ∈ t.flatMap filled, o ∈ t.flatMap reserved) ∧
    (t.flatMap appended ++ t.flatMap filled ++ vacant t).Perm
      (Offset.upFrom 0 p.watermark.toNat) ∧
    p.watermark - p.size = (vacant t).length := by
  rw [run_eq]
  have h := history_run hf
  refine ⟨h.tiles, ?_, ?_, h.offsets, h.filled_reserved, h.accounted, h.watermark_sub_size⟩
  · rw [h.tiles.offsets_eq, Int.sub_zero]
  · intro o m
    rw [h.stored]
    constructor
    · intro hm
      obtain rfl := h.stamped o m hm
      exact ⟨rfl, hm⟩
    · rintro ⟨rfl, hm⟩
      exact hm

/-- Blocks of all kinds, empty ones included; one reserved offset is filled, out of order and once,
and an offset that was never handed out is refused. -/
def mixed : List Command :=
  [.reserve 2, .append ⟨some "k", [1]⟩, .appendBatch [], .reserve 0, .fill 1 ⟨none, [2]⟩,
    .fill 1 ⟨none, [3]⟩, .appendBatch [⟨none, [4]⟩, ⟨none, [5]⟩], .fill 9 ⟨none, [6]⟩, .reserveOne]

theorem log_is_history_mixed :
    let p := ((new "t" 0).run mixed).2
    let t := (new "t" 0).transcript mixed
    Run.Along step Fits (new "t" 0) mixed ∧
    t.flatMap granted = [⟨0, 2⟩, ⟨2, 3⟩, ⟨3, 3⟩, ⟨3, 3⟩, ⟨3, 5⟩, ⟨5, 6⟩] ∧ vacant t = [0, 5] ∧
    p.get? 1 = some ⟨1, none, [2]⟩ ∧ p.watermark - p.size = 2 := by
  intro p t
  have hfit : Run.Along step Fits (new "t" 0) mixed := by decide
  have hvacant : vacant t = [0, 5] := by decide
  obtain ⟨-, -, hlog, -, -, -, hsize⟩ := log_is_history hfit
  refine ⟨hfit, by decide, hvacant, (hlog 1 _).2 ⟨rfl, by decide⟩, hsize.trans ?_⟩
  rw [hvacant]
  rfl

end Partition
end LogBroker
