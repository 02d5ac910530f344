import Mathlib
import LogBroker.Proofs.Partition.AppendOnly

/-!
# Who fills a reserved offset

To fill an offset, a client shows nothing but the offset. Whoever comes first gets it, and everybody
else is told why not. The answer can be told from the history of the partition
(`History.fill_cases`): an offset that nobody was handed yet cannot be filled, one that was appended
or filled before is taken, and any other is filled.

Over a run, the clients who try one offset are told (`verdicts`)

* that it is not reserved, as long as it was not handed out (`verdicts_of_ahead`), for the watermark
  does not fall;
* that it is written, once it holds a message (`verdicts_of_stored`), for messages stay;
* in between, the first of them that it is filled, and what it sent is what the offset holds from
  then on (`verdicts_of_vacant`), for nobody else writes there (`get?_step_of_no_attempt`).
-/
namespace LogBroker.Partition

/-- The record with which a request tries to fill an offset. -/
def attempt (o : Offset) : Command → Option Record
  | .fill o' r => if o' = o then some r else none
  | _ => none

/-- What the clients sent who tried to fill an offset. -/
def candidates (o : Offset) (cs : List Command) : List Record := cs.filterMap (attempt o)

/-- What these clients were told. -/
def verdicts (o : Offset) (t : List (Command × Answer)) : List Answer :=
  (t.filter fun q => (attempt o q.1).isSome).map Prod.snd

variable {p : Partition} {o : Offset}

theorem attempt_fill (o : Offset) (r : Record) : attempt o (.fill o r) = some r := if_pos rfl

theorem eq_fill_of_attempt {c : Command} {r : Record} (h : attempt o c = some r) :
    c = .fill o r := by
  cases c with
  | fill o' r' =>
    rw [attempt, Option.ite_none_right_eq_some] at h
    obtain ⟨rfl, he⟩ := h
    rw [Option.some.inj he]
  | _ => cases h

theorem verdicts_cons (o : Offset) (c : Command) (a : Answer) (t : List (Command × Answer)) :
    verdicts o ((c, a) :: t) =
      if (attempt o c).isSome then a :: verdicts o t else verdicts o t := by
  unfold verdicts
  rw [List.filter_cons]
  split <;> rfl

/-! ## One attempt -/

theorem step_fill_of_ahead (h : o < 0 ∨ p.watermark ≤ o) (r : Record) :
    p.step (.fill o r) = (.refused (.offsetNotReserved p.id o), p) := by
  simp only [step, fill, if_pos h]

theorem step_fill_of_stored (h0 : 0 ≤ o) (h : o < p.watermark) {m : Message}
    (hm : p.get? o = some m) (r : Record) :
    p.step (.fill o r) = (.refused (.offsetAlreadyWritten p.id o), p) := by
  have hmem : o ∈ p.log := Std.ExtTreeMap.mem_iff_isSome_getElem?.2 (Option.isSome_of_eq_some hm)
  have hin : ¬ (o < 0 ∨ p.watermark ≤ o) := by lia
  simp only [step, fill, if_neg hin, if_pos hmem]

theorem step_fill_of_empty (h0 : 0 ≤ o) (h : o < p.watermark) (hnone : p.get? o = none)
    (r : Record) :
    p.step (.fill o r) = (.filled, { p with log := p.log.insert o (r.stamp o) }) := by
  simp only [step, fill_of_empty h0 h hnone]

/-- Whoever does not try to fill an offset leaves it as it is, once it was handed out. -/
theorem get?_step_of_no_attempt (hb : p.Bounded) {c : Command} (hf : p.Fits c)
    (h : attempt o c = none) (ho : o < p.watermark) : (p.step c).2.get? o = p.get? o := by
  refine Option.ext fun m => ?_
  rw [get?_step hb hf]
  refine or_iff_left fun ⟨hm, hmo⟩ => ?_
  have h0 := hb.nonneg
  unfold Fits at hf
  cases c with
  | append r =>
    simp only [step, append_fits r h0 hf, written, List.mem_singleton] at hm
    subst hm
    exact absurd hmo (by simp only [Record.stamp]; lia)
  | appendBatch rs =>
    simp only [step, appendBatch_fits rs h0 hf, written] at hm
    have := (mem_stamps_bounds hm).1
    lia
  | fill o' r =>
    simp only [step] at hm
    split at hm
    · simp only [written, List.mem_singleton] at hm
      subst hm
      obtain rfl : o' = o := hmo
      rw [attempt_fill] at h
      cases h
    · cases hm
  | _ => cases hm

/-! ## Attempts in a run -/

theorem id_step (p : Partition) (c : Command) : (p.step c).2.id = p.id := by
  obtain ⟨htopic, hindex⟩ := name_step p c
  rw [id, htopic, hindex, id]

theorem id_last (p : Partition) (cs : List Command) : (Run.last step p cs).id = p.id := by
  induction cs generalizing p with
  | nil => rfl
  | cons c cs ih => exact (ih _).trans (id_step p c)

theorem bounded_last (hb : p.Bounded) {cs : List Command} (hf : Run.Along step Fits p cs) :
    (Run.last step p cs).Bounded :=
  Run.invariant (fun p _ => p.Bounded) (fun _ _ _ hc h => bounded_step h hc) hb hf

/-- A verdict is the answer to an attempt, as the partition was when it was made. -/
theorem exists_of_mem_verdicts {cs : List Command} {v : Answer}
    (h : v ∈ verdicts o (p.transcript cs)) :
    ∃ before after r, cs = before ++ .fill o r :: after ∧
      v = ((Run.last step p before).step (.fill o r)).1 := by
  obtain ⟨⟨c, a⟩, hq, rfl⟩ := List.mem_map.1 h
  obtain ⟨ht, hc⟩ := List.mem_filter.1 hq
  obtain ⟨r, hr⟩ := Option.isSome_iff_exists.1 hc
  obtain rfl := eq_fill_of_attempt hr
  obtain ⟨before, after, hcs, ha⟩ := Run.exists_of_mem_transcript ht
  exact ⟨before, after, r, hcs, ha⟩

/-- As long as an offset is not handed out, it is not reserved. -/
theorem verdicts_of_ahead (hb : p.Bounded) {cs : List Command} (hf : Run.Along step Fits p cs)
    (h : (Run.last step p cs).watermark ≤ o) :
    ∀ v ∈ verdicts o (p.transcript cs), v = .refused (.offsetNotReserved p.id o) := by
  intro v hv
  obtain ⟨before, after, r, rfl, rfl⟩ := exists_of_mem_verdicts hv
  rw [Run.along_append] at hf
  rw [Run.last_append] at h
  have hle := (kept_run (bounded_last hb hf.1) hf.2).2
  rw [step_fill_of_ahead (Or.inr (Int.le_trans hle h)), id_last]

/-- Once an offset holds a message, it is written. -/
theorem verdicts_of_stored (hb : p.Bounded) {cs : List Command} (hf : Run.Along step Fits p cs)
    {m : Message} (hm : p.get? o = some m) :
    ∀ v ∈ verdicts o (p.transcript cs), v = .refused (.offsetAlreadyWritten p.id o) := by
  intro v hv
  obtain ⟨before, after, r, rfl, rfl⟩ := exists_of_mem_verdicts hv
  rw [Run.along_append] at hf
  have hstill := (kept_run hb hf.1).1 o m hm
  obtain ⟨h0, hlt⟩ := (bounded_last hb hf.1).inside o m hstill
  rw [step_fill_of_stored h0 hlt hstill, id_last]

/-- Of those who try to fill a vacant offset the first does, and the offset holds what it sent. All
others come too late. -/
theorem verdicts_of_vacant (hb : p.Bounded) {cs : List Command} (hf : Run.Along step Fits p cs)
    (h0 : 0 ≤ o) (hlt : o < p.watermark) (hnone : p.get? o = none) :
    (∀ v vs, verdicts o (p.transcript cs) = v :: vs →
      v = .filled ∧ ∀ v' ∈ vs, v' = .refused (.offsetAlreadyWritten p.id o)) ∧
    (Run.last step p cs).get? o = (candidates o cs).head?.map (·.stamp o) := by
  induction cs generalizing p with
  | nil =>
    refine ⟨fun v vs h => ?_, hnone⟩
    cases h
  | cons c cs ih =>
    have hb' := bounded_step hb hf.1
    rw [transcript, Run.transcript, verdicts_cons, candidates]
    cases hc : attempt o c with
    | some r =>
      obtain rfl := eq_fill_of_attempt hc
      have hstep := step_fill_of_empty h0 hlt hnone r
      have hm : (p.step (.fill o r)).2.get? o = some (r.stamp o) := by
        rw [hstep]
        exact Std.ExtTreeMap.getElem?_insert_self
      rw [if_pos Option.isSome_some, List.filterMap_cons_some hc]
      constructor
      · intro v vs h
        obtain ⟨rfl, rfl⟩ := List.cons.inj h
        refine ⟨by rw [hstep], fun v' hv' => ?_⟩
        rw [← id_step p (.fill o r)]
        exact verdicts_of_stored hb' hf.2 hm v' hv'
      · exact (kept_run hb' hf.2).1 o _ hm
    | none =>
      have hw := watermark_step hb.nonneg hf.1
      have hsame := get?_step_of_no_attempt hb hf.1 hc hlt
      rw [Option.isSome_none, if_neg Bool.false_ne_true, List.filterMap_cons_none hc,
        ← id_step p c]
      exact ih hb' hf.2 (by rw [hw]; lia) (hsame.trans hnone)

/-! ## What history says -/

namespace History
variable {t : List (Command × Answer)}

theorem mem_handedOut_iff (h : History p t) :
    o ∈ t.flatMap appended ++ t.flatMap reserved ↔ 0 ≤ o ∧ o < p.watermark := by
  have h0 := h.bounded.nonneg
  rw [h.handedOut_perm.mem_iff, Offset.mem_upFrom]
  lia

theorem isSome_get?_iff (h : History p t) :
    (∃ m, p.get? o = some m) ↔ o ∈ t.flatMap appended ∨ o ∈ t.flatMap filled := by
  rw [← List.mem_append]
  refine ⟨?_, h.mem_writes_of_offset⟩
  rintro ⟨m, hm⟩
  obtain rfl := h.stamped o m hm
  exact h.offsets.subset (List.mem_map_of_mem ((h.stored m).2 hm))

/-- An attempt to fill an offset, told from the history: who was handed the offset, and whether it
was filled. -/
theorem fill_cases (h : History p t) (o : Offset) (r : Record) :
    let ahead := o < 0 ∨ o ∉ t.flatMap appended ++ t.flatMap reserved
    let taken := o ∈ t.flatMap appended ∨ o ∈ t.flatMap filled
    (ahead ∧ p.step (.fill o r) = (.refused (.offsetNotReserved p.id o), p)) ∨
    (¬ ahead ∧ taken ∧ p.step (.fill o r) = (.refused (.offsetAlreadyWritten p.id o), p)) ∨
    (¬ ahead ∧ ¬ taken ∧ p.get? o = none ∧
      p.step (.fill o r) = (.filled, { p with log := p.log.insert o (r.stamp o) })) := by
  intro ahead taken
  by_cases hin : 0 ≤ o ∧ o < p.watermark
  · have hmem := h.mem_handedOut_iff.2 hin
    have hnot : ¬ ahead := fun ha => ha.elim (by lia) fun hout => hout hmem
    cases hget : p.get? o with
    | some m =>
      exact Or.inr (Or.inl ⟨hnot, h.isSome_get?_iff.1 ⟨m, hget⟩,
        step_fill_of_stored hin.1 hin.2 hget r⟩)
    | none =>
      have hfree : ¬ taken := by
        intro htaken
        obtain ⟨m, hm⟩ := h.isSome_get?_iff.2 htaken
        rw [hget] at hm
        cases hm
      exact Or.inr (Or.inr ⟨hnot, hfree, rfl, step_fill_of_empty hin.1 hin.2 hget r⟩)
  · exact Or.inl ⟨Or.inr (mt h.mem_handedOut_iff.1 hin), step_fill_of_ahead (by lia) r⟩

end History

/-- What a request hands out lies from the watermark on, up to the watermark after it. -/
theorem bounds_of_mem_granted {c : Command} (hb : p.Bounded) (hf : p.Fits c)
    (h : o ∈ appended (c, (p.step c).1) ++ reserved (c, (p.step c).1)) :
    p.watermark ≤ o ∧ o < (p.step c).2.watermark := by
  have hw := watermark_step hb.nonneg hf
  rw [← offsets_granted] at h
  rcases granted_step hb.nonneg hf with ⟨hnone, -⟩ | hone
  · rw [hnone] at h
    cases h
  · rw [hone, List.flatMap_singleton, OffsetRange.offsets, Offset.mem_upFrom] at h
    lia

/-- What is reserved is left empty. -/
theorem get?_step_of_mem_reserved {c : Command} (hb : p.Bounded) (hf : p.Fits c)
    (h : o ∈ reserved (c, (p.step c).1)) : (p.step c).2.get? o = none := by
  have hlow := (bounds_of_mem_granted hb hf (List.mem_append_right _ h)).1
  have hlog : (p.step c).2.log = p.log := by
    cases c with
    | reserveOne => rfl
    | reserve count => rfl
    | fill o' r =>
      simp only [step] at h
      split at h <;> cases h
    | _ => cases h
  rw [get?, hlog]
  exact get?_watermark hb hlow

/-- What is appended is stored. -/
theorem exists_get?_step_of_mem_appended {c : Command} (hb : p.Bounded) (hf : p.Fits c)
    (h : o ∈ appended (c, (p.step c).1)) : ∃ m, (p.step c).2.get? o = some m := by
  have hmem : o ∈ (written c (p.step c).1).map (·.offset) := by
    rw [offsets_written hb.nonneg hf]
    exact List.mem_append_left _ h
  obtain ⟨m, hm, hmo⟩ := List.mem_map.1 hmem
  exact ⟨m, (get?_step hb hf o m).2 (Or.inr ⟨hm, hmo⟩)⟩

/-- **One winner.** Over any run in which offsets fit, an attempt to fill an offset is refused as
not reserved just when the offset is negative or was not handed out, otherwise as written just when
it was appended or filled before, and otherwise accepted. A refusal changes nothing, and what is
accepted adds its message and changes nothing else. So of all attempts at one offset those before it
is handed out are refused as not reserved. If it is reserved, the first attempt after that is
accepted and all others are refused as written, and the offset holds what the first one sent. If it
is appended, all later attempts are refused as written, and its message stays. -/
theorem first_filler_wins {topic : String} {index : Nat} {cs : List Command}
    (hf : Run.Along step Fits (new topic index) cs) :
    let p := ((new topic index).run cs).2
    let t := (new topic index).transcript cs
    (∀ (o : Offset) (r : Record),
      let q := p.step (.fill o r)
      let ahead := o < 0 ∨ o ∉ t.flatMap appended ++ t.flatMap reserved
      let taken := o ∈ t.flatMap appended ∨ o ∈ t.flatMap filled
      (q.1 = .refused (.offsetNotReserved (idOf topic index) o) ↔ ahead) ∧
      (¬ ahead → (q.1 = .refused (.offsetAlreadyWritten (idOf topic index) o) ↔ taken)) ∧
      (q.1 = .filled ↔ ¬ ahead ∧ ¬ taken) ∧
      (q.1 ≠ .filled → q.2 = p) ∧
      (q.1 = .filled → q.2 = { p with log := q.2.log } ∧
        p.get? o = none ∧ q.2.get? o = some ⟨o, r.key, r.payload⟩ ∧
        ∀ o', o' ≠ o → q.2.get? o' = p.get? o')) ∧
    ∀ (before : List Command) (c : Command) (after : List Command), cs = before ++ c :: after →
      let b := ((new topic index).run before).2
      let q := b.step c
      (∀ o ∈ appended (c, q.1) ++ reserved (c, q.1),
        ∀ v ∈ verdicts o ((new topic index).transcript before),
          v = .refused (.offsetNotReserved (idOf topic index) o)) ∧
      (∀ o ∈ reserved (c, q.1),
        (∀ v vs, verdicts o (q.2.transcript after) = v :: vs →
          v = .filled ∧ ∀ v' ∈ vs, v' = .refused (.offsetAlreadyWritten (idOf topic index) o)) ∧
        p.get? o = (candidates o after).head?.map fun r => ⟨o, r.key, r.payload⟩) ∧
      ∀ o ∈ appended (c, q.1),
        (∀ v ∈ verdicts o (q.2.transcript after),
          v = .refused (.offsetAlreadyWritten (idOf topic index) o)) ∧
        ∃ m, q.2.get? o = some m ∧ p.get? o = some m := by
  simp only [run_eq]
  have hid : ∀ xs, (Run.last step (new topic index) xs).id = idOf topic index := id_last _
  constructor
  · intro o r
    have hcases := (history_run hf).fill_cases o r
    rw [hid cs] at hcases
    rcases hcases with ⟨hahead, hstep⟩ | ⟨hnot, htaken, hstep⟩ | ⟨hnot, hfree, hnone, hstep⟩
    · rw [hstep]
      exact ⟨iff_of_true rfl hahead, fun hnot => absurd hahead hnot,
        iff_of_false nofun fun h => h.1 hahead, fun _ => rfl, nofun⟩
    · rw [hstep]
      exact ⟨iff_of_false nofun hnot, fun _ => iff_of_true rfl htaken,
        iff_of_false nofun fun h => h.2 htaken, fun _ => rfl, nofun⟩
    · rw [hstep]
      refine ⟨iff_of_false nofun hnot, fun _ => iff_of_false nofun hfree,
        iff_of_true rfl ⟨hnot, hfree⟩, fun h => absurd rfl h, fun _ => ⟨rfl, hnone, ?_, ?_⟩⟩
      · exact Std.ExtTreeMap.getElem?_insert_self
      · intro o' ho'
        exact (Log.getElem?_insert_eq _ o o' _).trans (if_neg fun h => ho' h.symm)
  · rintro before c after rfl
    rw [Run.along_append] at hf
    have hb := (history_run hf.1).bounded
    have hb' := bounded_step hb hf.2.1
    rw [Run.last_append]
    refine ⟨fun o ho => ?_, fun o ho => ?_, fun o ho => ?_⟩
    · obtain ⟨hlow, -⟩ := bounds_of_mem_granted hb hf.2.1 ho
      exact verdicts_of_ahead (bounded_new topic index) hf.1 hlow
    · obtain ⟨hlow, hhigh⟩ := bounds_of_mem_granted hb hf.2.1 (List.mem_append_right _ ho)
      have hrace := verdicts_of_vacant hb' hf.2.2 (Int.le_trans hb.nonneg hlow) hhigh
        (get?_step_of_mem_reserved hb hf.2.1 ho)
      rw [id_step, hid before] at hrace
      exact hrace
    · obtain ⟨m, hm⟩ := exists_get?_step_of_mem_appended hb hf.2.1 ho
      have htaken := verdicts_of_stored hb' hf.2.2 hm
      rw [id_step, hid before] at htaken
      exact ⟨htaken, m, hm, (kept_run hb' hf.2.2).1 o m hm⟩

/-- Three clients try the second of two reserved offsets, one of them too early; another one tries
an offset that was appended. -/
def racing : List Command :=
  [.fill 1 ⟨none, [1]⟩, .append ⟨none, [0]⟩, .reserve 2, .fill 1 ⟨some "k", [2]⟩,
    .append ⟨none, [9]⟩, .fill 1 ⟨none, [3]⟩, .fill 3 ⟨none, [4]⟩]

theorem first_filler_wins_racing :
    let p := ((new "t" 0).run racing).2
    let early : Answer := .refused (.offsetNotReserved "t-part-0" 1)
    let late : Answer := .refused (.offsetAlreadyWritten "t-part-0" 1)
    Run.Along step Fits (new "t" 0) racing ∧
    (p.step (.fill 2 ⟨none, [5]⟩)).1 = .filled ∧ p.get? 2 = none ∧
    ((p.step (.fill 2 ⟨none, [5]⟩)).2.get? 2 = some ⟨2, none, [5]⟩) ∧
    racing = racing.take 2 ++ .reserve 2 :: racing.drop 3 ∧
    (1 : Offset) ∈ reserved (.reserve 2, .range ⟨1, 3⟩) ∧
    verdicts 1 ((new "t" 0).transcript (racing.take 2)) = [early] ∧
    (((new "t" 0).run (racing.take 2)).2.step (.reserve 2)).1 = .range ⟨1, 3⟩ ∧
    verdicts 1 ((((new "t" 0).run (racing.take 2)).2.step (.reserve 2)).2.transcript
      (racing.drop 3)) = [.filled, late] ∧
    p.get? 1 = (candidates 1 (racing.drop 3)).head?.map fun r => ⟨1, r.key, r.payload⟩ := by
  have hfit : Run.Along step Fits (new "t" 0) racing := by decide
  obtain ⟨hone, hrun⟩ := first_filler_wins hfit
  have hsplit : racing = racing.take 2 ++ .reserve 2 :: racing.drop 3 := rfl
  have hreserved : (1 : Offset) ∈ reserved (.reserve 2, .range ⟨1, 3⟩) := by decide
  have haccepted : (((new "t" 0).run racing).2.step (.fill 2 ⟨none, [5]⟩)).1 = .filled :=
    (hone 2 ⟨none, [5]⟩).2.2.1.2 (by decide)
  obtain ⟨-, hempty, hheld, -⟩ := (hone 2 ⟨none, [5]⟩).2.2.2.2 haccepted
  exact ⟨hfit, haccepted, hempty, hheld, hsplit, hreserved, by decide, by decide, by decide,
    ((hrun _ _ _ hsplit).2.1 1 hreserved).2⟩

end LogBroker.Partition
