import Mathlib
import LogBroker.Proofs.Partition.History
import LogBroker.Proofs.Run.Insertion

/-!
# Reserving a block and filling it

To reserve a block of offsets and to fill it later, one offset at a time and in any order, comes to
the same as to append a batch at once. What the two partitions differ in is the messages that were
not filled yet: the one `Lacks` them, the other has them.

* Filling one of them is accepted, and one message less is lacking (`Lacks.fill`).
* Anything else is answered alike and leaves the same messages lacking, provided that it does not
  ask for their offsets (`Command.Avoids`) and that the watermark does not fall back
  (`Lacks.step`).

So the partition that fills is ahead by its fillings and otherwise keeps pace with the other; when
nothing is lacking they are the same (`Lacks.run`). The induction is on the run, with the messages
still lacking as a list from which each filling takes one.
-/
namespace LogBroker

/-- The request that stores the message at a reserved offset. -/
def Message.filling (m : Message) : Partition.Command := .fill m.offset m.record

namespace Partition

/-- The requests that fill a block from `o` on with records, in order. -/
def fills : Offset → List Record → List Command
  | _, [] => []
  | o, r :: rest => .fill o r :: fills (o + 1) rest

theorem fills_eq_map (o : Offset) (rs : List Record) :
    fills o rs = (stamps o rs).map Message.filling := by
  induction rs generalizing o with
  | nil => rfl
  | cons r rest ih => rw [fills, stamps, List.map_cons, ih]; rfl

theorem offsets_reserve {p : Partition} {count : Nat} (h0 : 0 ≤ p.watermark)
    (hf : p.Fits (.reserve count)) :
    (p.reserve count).1.offsets = Offset.upFrom p.watermark count := by
  rw [reserve_fits count h0 hf, OffsetRange.offsets]
  congr 1
  lia

/-- The request asks for none of the offsets: it neither fills nor looks at them. -/
def Command.Avoids (block : List Offset) : Command → Prop
  | .fill o _ | .get o => o ∉ block
  | .read start _ => ∀ o ∈ block, o < start
  | .append _ | .appendBatch _ | .reserveOne | .reserve _ => True

instance (block : List Offset) : ∀ c : Command, Decidable (c.Avoids block)
  | .fill o _ | .get o => inferInstanceAs (Decidable (o ∉ block))
  | .read start _ => inferInstanceAs (Decidable (∀ o ∈ block, o < start))
  | .append _ | .appendBatch _ | .reserveOne | .reserve _ => isTrue trivial

theorem Command.Avoids.mono {c : Command} {xs ys : List Offset} (h : c.Avoids ys) (hxy : xs ⊆ ys) :
    c.Avoids xs := by
  cases c with
  | fill o r => exact fun ho => h (hxy ho)
  | get o => exact fun ho => h (hxy ho)
  | read start limit => exact fun o ho => h o (hxy ho)
  | _ => trivial

/-- A read sees nothing below its start. -/
theorem read_congr {p q : Partition} {start : Offset}
    (h : ∀ o, start ≤ o → p.get? o = q.get? o) (limit : Limit) :
    p.read start limit = q.read start limit := by
  cases limit with
  | none =>
    calc p.log.run p.log.size start = p.log.run (max p.log.size q.log.size) start :=
          (Log.run_of_size_le (Nat.le_max_left _ _) start).symm
      _ = q.log.run (max p.log.size q.log.size) start := Log.run_congr h _
      _ = q.log.run q.log.size start := Log.run_of_size_le (Nat.le_max_right _ _) start
  | some cap =>
    calc p.log.run (min cap p.log.size) start = p.log.run cap start := Log.run_min_size _ _ _
      _ = q.log.run cap start := Log.run_congr h cap
      _ = q.log.run (min cap q.log.size) start := (Log.run_min_size _ _ _).symm

/-- Two partitions are the same, but that some messages are not yet stored in the one and their
offsets reserved there. -/
structure Lacks (missing : List Message) (p q : Partition) : Prop where
  topic : p.topic = q.topic
  index : p.index = q.index
  watermark : p.watermark = q.watermark
  nodup : missing.Nodup
  reserved : ∀ m ∈ missing, 0 ≤ m.offset ∧ m.offset < p.watermark
  empty : ∀ m ∈ missing, p.get? m.offset = none
  stored : ∀ m ∈ missing, q.get? m.offset = some m
  same : ∀ o, o ∉ missing.map (·.offset) → p.get? o = q.get? o

/-- A partition with a reserved block lacks the messages of the batch. -/
theorem lacks_reserve {p : Partition} (hb : p.Bounded) {rs : List Record}
    (hf : p.Fits (.reserve rs.length)) :
    Lacks (stamps p.watermark rs) (p.reserve rs.length).2 (p.appendBatch rs).2 := by
  rw [reserve_fits rs.length hb.nonneg hf, appendBatch_fits rs hb.nonneg hf]
  have hoffsets := stamps_offsets p.watermark rs
  have h0 := hb.nonneg
  refine
    { topic := rfl, index := rfl, watermark := rfl,
      nodup := ?nodup, reserved := ?reserved, empty := ?empty, stored := ?stored, same := ?same }
  case nodup =>
    refine List.Nodup.of_map (·.offset) ?_
    rw [hoffsets]
    exact Offset.nodup_upFrom _ _
  case reserved =>
    intro m hm
    have := mem_stamps_bounds hm
    exact ⟨by lia, this.2⟩
  case empty => exact fun m hm => get?_watermark hb (mem_stamps_bounds hm).1
  case stored => exact fun m hm => Log.getElem?_store_of_mem p.log hm
  case same =>
    intro o ho
    rw [hoffsets, Offset.mem_upFrom] at ho
    exact (Log.getElem?_store_of_lt rs (by lia)).symm

namespace Lacks
variable {missing : List Message} {p q : Partition}

theorem eq (h : Lacks [] p q) : p = q := by
  obtain ⟨topic, index, watermark, log⟩ := p
  obtain ⟨topic', index', watermark', log'⟩ := q
  obtain rfl : topic = topic' := h.topic
  obtain rfl : index = index' := h.index
  obtain rfl : watermark = watermark' := h.watermark
  obtain rfl : log = log' := Std.ExtTreeMap.ext_getElem? fun {o} => h.same o List.not_mem_nil
  rfl

theorem id_eq (h : Lacks missing p q) : p.id = q.id := by
  rw [id, id, h.topic, h.index]

/-! ## What is lacking is filled -/

theorem fill (h : Lacks missing p q) {m : Message} (hm : m ∈ missing) :
    (p.step m.filling).1 = .filled ∧ (p.step m.filling).2.watermark = p.watermark ∧
      Lacks (missing.erase m) (p.step m.filling).2 q := by
  have hfill := fill_of_empty (h.reserved m hm).1 (h.reserved m hm).2 (h.empty m hm) m.record
  have hstep : p.step m.filling = (.filled, { p with log := p.log.insert m.offset m }) := by
    simp only [Message.filling, step, hfill]
    rfl
  have hget (o : Offset) : ({ p with log := p.log.insert m.offset m } : Partition).get? o =
      if m.offset = o then some m else p.get? o := Log.getElem?_insert_eq p.log m.offset o m
  -- the offsets of two messages that the other partition holds differ
  have hother {m' : Message} (hm' : m' ∈ missing.erase m) :
      m' ∈ missing ∧ m.offset ≠ m'.offset := by
    obtain ⟨hne, hmem⟩ := h.nodup.mem_erase_iff.1 hm'
    refine ⟨hmem, fun he => hne ?_⟩
    have hstored := h.stored m' hmem
    rw [← he, h.stored m hm] at hstored
    exact (Option.some.inj hstored).symm
  rw [hstep]
  refine ⟨rfl, rfl,
    { topic := h.topic, index := h.index, watermark := h.watermark, nodup := h.nodup.erase m,
      reserved := fun m' hm' => h.reserved m' (hother hm').1,
      stored := fun m' hm' => h.stored m' (hother hm').1,
      empty := ?empty, same := ?same }⟩
  case empty =>
    intro m' hm'
    rw [hget, if_neg (hother hm').2]
    exact h.empty m' (hother hm').1
  case same =>
    intro o ho
    rw [hget]
    split
    · rename_i he
      rw [← he, h.stored m hm]
    · rename_i hne
      refine h.same o fun hmem => ho ?_
      obtain ⟨m', hm', rfl⟩ := List.mem_map.1 hmem
      have hm'' : m' ≠ m := fun he => hne (congrArg Message.offset he.symm)
      exact List.mem_map_of_mem ((List.mem_erase_of_ne hm'').2 hm')

/-! ## Everything else -/

theorem advance (h : Lacks missing p q) {w : Offset} (hw : p.watermark ≤ w) :
    Lacks missing { p with watermark := w } { q with watermark := w } where
  topic := h.topic
  index := h.index
  watermark := rfl
  nodup := h.nodup
  reserved m hm := ⟨(h.reserved m hm).1, Int.lt_of_lt_of_le (h.reserved m hm).2 hw⟩
  empty := h.empty
  stored := h.stored
  same := h.same

theorem insert (h : Lacks missing p q) {o : Offset} (ho : o ∉ missing.map (·.offset))
    (m : Message) :
    Lacks missing { p with log := p.log.insert o m } { q with log := q.log.insert o m } := by
  have hne {m' : Message} (hm' : m' ∈ missing) : ¬ o = m'.offset :=
    fun he => ho (he ▸ List.mem_map_of_mem hm')
  refine
    { topic := h.topic, index := h.index, watermark := h.watermark, nodup := h.nodup,
      reserved := h.reserved, empty := ?empty, stored := ?stored, same := ?same }
  case empty =>
    intro m' hm'
    exact (Log.getElem?_insert_eq ..).trans ((if_neg (hne hm')).trans (h.empty m' hm'))
  case stored =>
    intro m' hm'
    exact (Log.getElem?_insert_eq ..).trans ((if_neg (hne hm')).trans (h.stored m' hm'))
  case same =>
    intro o' ho'
    have hsame : p.log[o']? = q.log[o']? := h.same o' ho'
    simp only [get?, Log.getElem?_insert_eq, hsame]

theorem store (h : Lacks missing p q) {o : Offset} (ho : ∀ m ∈ missing, m.offset < o)
    (rs : List Record) :
    Lacks missing { p with log := p.log.store o rs } { q with log := q.log.store o rs } := by
  induction rs generalizing p q o with
  | nil => exact h
  | cons r rest ih =>
    have hout : o ∉ missing.map (·.offset) := fun hmem => by
      obtain ⟨m, hm, he⟩ := List.mem_map.1 hmem
      exact Int.ne_of_lt (ho m hm) he
    exact ih (h.insert hout (r.stamp o)) fun m hm => Int.lt_trans (ho m hm) (Int.lt_succ o)

theorem mem_log_iff (h : Lacks missing p q) {o : Offset} (ho : o ∉ missing.map (·.offset)) :
    o ∈ p.log ↔ o ∈ q.log := by
  have hsame : p.log[o]? = q.log[o]? := h.same o ho
  rw [Std.ExtTreeMap.mem_iff_isSome_getElem?, Std.ExtTreeMap.mem_iff_isSome_getElem?, hsame]

/-- A request that asks for nothing that is lacking makes no difference between the two. -/
theorem step (h : Lacks missing p q) {c : Command} (hc : c.Avoids (missing.map (·.offset)))
    (hw : p.watermark ≤ (p.step c).2.watermark) :
    (p.step c).1 = (q.step c).1 ∧ Lacks missing (p.step c).2 (q.step c).2 := by
  have hbelow : ∀ m ∈ missing, m.offset < p.watermark := fun m hm => (h.reserved m hm).2
  cases c with
  | append r =>
    have hnext := (h.store hbelow [r]).advance hw
    simp only [Partition.step, Partition.append, ← h.watermark]
    exact ⟨trivial, hnext⟩
  | appendBatch rs =>
    have hnext := (h.store hbelow rs).advance hw
    simp only [Partition.step, appendBatch, Partition.reserve, ← h.watermark]
    exact ⟨trivial, hnext⟩
  | get o => exact ⟨congrArg Answer.message (h.same o hc), h⟩
  | reserveOne =>
    have hnext := h.advance hw
    simp only [Partition.step, reserveOne, Partition.reserve, ← h.watermark]
    exact ⟨trivial, hnext⟩
  | reserve count =>
    have hnext := h.advance hw
    simp only [Partition.step, Partition.reserve, ← h.watermark]
    exact ⟨trivial, hnext⟩
  | fill o r =>
    have hnext := h.insert hc (r.stamp o)
    rw [← h.watermark] at hnext
    simp only [Partition.step, Partition.fill, ← h.watermark, ← h.id_eq, ← h.mem_log_iff hc]
    split_ifs
    · exact ⟨rfl, h⟩
    · exact ⟨rfl, h⟩
    · exact ⟨rfl, hnext⟩
  | read start limit =>
    refine ⟨congrArg Answer.messages (read_congr (fun o ho => h.same o fun hmem => ?_) limit), h⟩
    exact absurd (hc o hmem) (Int.not_lt.2 ho)

/-! ## A run -/

/-- A run in which all that is lacking is filled keeps pace with the other partition, which is not
asked for the fillings, and ends where that one ends. -/
theorem run (h : Lacks missing p q) (h0 : 0 ≤ p.watermark) {es : List (Run.Entry Command)}
    (hfits : Run.Along Partition.step Fits p (Run.whole es))
    (hput : (Run.put es).Perm (missing.map Message.filling))
    (hown : ∀ c ∈ Run.own es, c.Avoids (missing.map (·.offset))) :
    Run.putTranscript Partition.step p es = (Run.put es).map (·, .filled) ∧
      Run.ownTranscript Partition.step p es = q.transcript (Run.own es) ∧
      Run.last Partition.step p (Run.whole es) = Run.last Partition.step q (Run.own es) := by
  induction es generalizing p q missing with
  | nil =>
    obtain rfl : missing = [] := List.map_eq_nil_iff.1 hput.nil_eq.symm
    exact ⟨rfl, rfl, h.eq⟩
  | cons e es ih =>
    obtain ⟨c, inserted⟩ := e
    have hfit : p.Fits c := hfits.1
    cases inserted with
    | true =>
      -- one of the messages is filled; the other partition does nothing
      obtain ⟨m, hm, rfl⟩ := List.mem_map.1 (hput.subset List.mem_cons_self)
      obtain ⟨hanswer, hw, hnext⟩ := h.fill hm
      have hrest : (Run.put es).Perm ((missing.erase m).map Message.filling) :=
        List.Perm.cons_inv (hput.trans ((List.perm_cons_erase hm).map _))
      obtain ⟨hputs, howns, hlast⟩ := ih hnext (by rwa [hw]) hfits.2 hrest fun c hc =>
        (hown c hc).mono (List.map_subset _ List.erase_subset)
      refine ⟨?_, howns, hlast⟩
      change (m.filling, (p.step m.filling).1) :: Run.putTranscript Partition.step _ es =
        (m.filling, .filled) :: (Run.put es).map (·, .filled)
      rw [hputs, hanswer]
    | false =>
      have hw := watermark_step h0 hfit
      obtain ⟨hanswer, hnext⟩ := h.step (hown c List.mem_cons_self) (by lia)
      obtain ⟨hputs, howns, hlast⟩ := ih hnext (by lia) hfits.2 hput fun c hc =>
        hown c (List.mem_cons_of_mem _ hc)
      refine ⟨hputs, ?_, hlast⟩
      change (c, (p.step c).1) :: Run.ownTranscript Partition.step _ es =
        (c, (q.step c).1) :: (q.step c).2.transcript (Run.own es)
      rw [howns, hanswer]

end Lacks

/-- **Reserve, then fill.** Take any partition, reserve a block in it and fill the block with
records in any order, each once, with any requests in between that ask for no offset of the block.
Every filling is accepted, every other request is answered as if the records had been appended as a
batch in place of the reservation, and the partition in the end is the same. -/
theorem reserve_then_fill (topic : String) (index : Nat) (before : List Command)
    (rs : List Record) (es : List (Run.Entry Command)) :
    let p := ((new topic index).run before).2
    let block := (p.reserve rs.length).1
    let reserved := (p.reserve rs.length).2
    let batched := (p.appendBatch rs).2
    Run.Along step Fits (new topic index) (before ++ .reserve rs.length :: Run.whole es) →
    (Run.put es).Perm (fills block.first rs) →
    (∀ c ∈ Run.own es, c.Avoids block.offsets) →
    block = (p.appendBatch rs).1 ∧
    Run.putTranscript step reserved es = (Run.put es).map (·, .filled) ∧
    Run.ownTranscript step reserved es = batched.transcript (Run.own es) ∧
    (p.run (.reserve rs.length :: Run.whole es)).2 =
      (p.run (.appendBatch rs :: Run.own es)).2 := by
  intro p block reserved batched hfits hput hown
  rw [Run.along_append] at hfits
  obtain ⟨hbefore, hreserve, hrest⟩ := hfits
  have hp : p = Run.last step (new topic index) before := by
    change ((new topic index).run before).2 = _
    rw [run_eq]
  rw [← hp] at hreserve hrest
  have hb : p.Bounded := hp ▸ (history_run hbefore).bounded
  have hlacks : Lacks (stamps p.watermark rs) reserved batched := lacks_reserve hb hreserve
  have hblock : block.offsets = (stamps p.watermark rs).map (·.offset) := by
    rw [stamps_offsets]
    exact offsets_reserve hb.nonneg hreserve
  have hw : 0 ≤ reserved.watermark := by
    have := watermark_step hb.nonneg hreserve
    have h0 := hb.nonneg
    change reserved.watermark = _ at this
    lia
  rw [hblock] at hown
  obtain ⟨hputs, howns, hlast⟩ := hlacks.run hw hrest (fills_eq_map _ rs ▸ hput) hown
  refine ⟨rfl, hputs, howns, ?_⟩
  rw [run_eq, run_eq]
  exact hlast

/-- What comes before: one message, and one reserved offset. -/
def oneReserved : List Command := [.append ⟨none, [1]⟩, .reserveOne]

/-- Three records for a block. -/
def threeRecords : List Record := [⟨none, [2]⟩, ⟨some "k", [3]⟩, ⟨none, [4]⟩]

/-- The block is filled from its end on, while others append, reserve, read what lies beyond it, and
fill the offset that was reserved before, of which the second attempt is refused. -/
def backwards : List (Run.Entry Command) :=
  [⟨.fill 4 ⟨none, [4]⟩, true⟩, ⟨.append ⟨none, [5]⟩, false⟩, ⟨.fill 1 ⟨none, [6]⟩, false⟩,
    ⟨.fill 3 ⟨some "k", [3]⟩, true⟩, ⟨.reserve 2, false⟩, ⟨.fill 1 ⟨none, [7]⟩, false⟩,
    ⟨.read 5 none, false⟩, ⟨.fill 2 ⟨none, [2]⟩, true⟩, ⟨.appendBatch [⟨none, [8]⟩], false⟩]

theorem reserve_then_fill_backwards :
    let p := ((new "t" 0).run oneReserved).2
    Run.Along step Fits (new "t" 0)
      (oneReserved ++ .reserve threeRecords.length :: Run.whole backwards) ∧
    (Run.put backwards).Perm (fills (p.reserve threeRecords.length).1.first threeRecords) ∧
    (∀ c ∈ Run.own backwards, c.Avoids (p.reserve threeRecords.length).1.offsets) ∧
    (p.reserve threeRecords.length).1 = ⟨2, 5⟩ ∧
    Run.putTranscript step (p.reserve threeRecords.length).2 backwards =
      [(.fill 4 ⟨none, [4]⟩, .filled), (.fill 3 ⟨some "k", [3]⟩, .filled),
        (.fill 2 ⟨none, [2]⟩, .filled)] ∧
    (p.run (.reserve threeRecords.length :: Run.whole backwards)).2 =
      (p.run (.appendBatch threeRecords :: Run.own backwards)).2 := by
  intro p
  have hfits : Run.Along step Fits (new "t" 0)
      (oneReserved ++ .reserve threeRecords.length :: Run.whole backwards) := by decide
  have hput : (Run.put backwards).Perm
      (fills (p.reserve threeRecords.length).1.first threeRecords) := by decide
  have hown : ∀ c ∈ Run.own backwards, c.Avoids (p.reserve threeRecords.length).1.offsets := by
    decide
  obtain ⟨-, hputs, -, hlast⟩ :=
    reserve_then_fill "t" 0 oneReserved threeRecords backwards hfits hput hown
  exact ⟨hfits, hput, hown, by decide, hputs, hlast⟩

end Partition
end LogBroker
