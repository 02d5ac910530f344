import Mathlib
import LogBroker.Partition.Command
import LogBroker.Proofs.Log

/-!
# What a partition keeps

One request to a partition moves the watermark and stores messages. `Partition.written` reads off
a request and its answer what was stored.

Two invariants hold at every partition that started out empty.

* `Log.Stamped`: messages carry the offset they are stored under. No request can break it
  (`stamped_step`), not even one that moves the watermark backwards.
* `Bounded`: messages lie between zero and the watermark. It needs that no sum of offsets leaves
  the signed range (`Fits`), which also keeps reservations below 2^63.

Together they make the log append-only: after a request that fits, the log holds what it held and
what was written (`get?_step`).

No two partitions share an id, whatever their topics are called (`idOf_inj`).
-/
namespace LogBroker.Partition

/-- How many offsets a request hands out. -/
def Command.handedOut : Command → Nat
  | .append _ => 1
  | .appendBatch rs => rs.length
  | .reserveOne => 1
  | .reserve count => count
  | .get _ | .fill _ _ | .read _ _ => 0

/-- The offsets that the request hands out end within the signed range. -/
def Fits (p : Partition) (c : Command) : Prop := p.watermark + c.handedOut < 0x8000000000000000

instance (p : Partition) (c : Command) : Decidable (p.Fits c) :=
  inferInstanceAs (Decidable (p.watermark + c.handedOut < 0x8000000000000000))

/-- The messages that a request stored, given its answer. -/
def written : Command → Answer → List Message
  | .append r, .offset o => [r.stamp o]
  | .appendBatch rs, .range range => stamps range.first rs
  | .fill o r, .filled => [r.stamp o]
  | _, _ => []

/-- Every message lies between zero and the watermark. -/
structure Bounded (p : Partition) : Prop where
  nonneg : 0 ≤ p.watermark
  inside : ∀ (o : Offset) (m : Message), p.get? o = some m → 0 ≤ o ∧ o < p.watermark

theorem bounded_new (topic : String) (index : Nat) : (new topic index).Bounded :=
  ⟨Int.le_refl 0, fun o m h => by simp [new, get?] at h⟩

theorem stamped_new (topic : String) (index : Nat) : (new topic index).log.Stamped :=
  Log.stamped_empty

/-! ## The single operations -/

theorem fill_ok {p q : Partition} {o : Offset} {r : Record} (h : p.fill o r = .ok q) :
    0 ≤ o ∧ o < p.watermark ∧ p.get? o = none ∧
      q = { p with log := p.log.insert o (r.stamp o) } := by
  unfold fill at h
  split at h
  · cases h
  · rename_i hout
    split at h
    · cases h
    · rename_i hmem
      cases h
      exact ⟨by lia, by lia, Std.ExtTreeMap.getElem?_eq_none hmem, rfl⟩

theorem fill_of_empty {p : Partition} {o : Offset} (h0 : 0 ≤ o) (h : o < p.watermark)
    (hnone : p.get? o = none) (r : Record) :
    p.fill o r = .ok { p with log := p.log.insert o (r.stamp o) } := by
  have hmem : o ∉ p.log := fun hin => by
    rw [Std.ExtTreeMap.mem_iff_isSome_getElem?, show p.log[o]? = none from hnone] at hin
    cases hin
  rw [fill, if_neg (by lia), if_neg hmem]

/-- A block that fits moves the watermark by its length. -/
theorem reserve_fits {p : Partition} (count : Nat) (h0 : 0 ≤ p.watermark)
    (h : p.watermark + count < 0x8000000000000000) :
    p.reserve count = (⟨p.watermark, p.watermark + count⟩,
      { p with watermark := p.watermark + count }) := by
  unfold reserve
  rw [Offset.wrap_eq_self (by lia) h]

theorem append_fits {p : Partition} (r : Record) (h0 : 0 ≤ p.watermark)
    (h : p.watermark + 1 < 0x8000000000000000) :
    p.append r = (p.watermark, { p with
      watermark := p.watermark + 1, log := p.log.insert p.watermark (r.stamp p.watermark) }) := by
  unfold append
  rw [Offset.wrap_eq_self (by lia) h]

theorem appendBatch_fits {p : Partition} (rs : List Record) (h0 : 0 ≤ p.watermark)
    (h : p.watermark + rs.length < 0x8000000000000000) :
    p.appendBatch rs = (⟨p.watermark, p.watermark + rs.length⟩, { p with
      watermark := p.watermark + rs.length, log := p.log.store p.watermark rs }) := by
  unfold appendBatch
  rw [reserve_fits rs.length h0 h]

/-! ## One request -/

/-- No request breaks the agreement of a message's offset with its place. -/
theorem stamped_step {p : Partition} (h : p.log.Stamped) (c : Command) :
    (p.step c).2.log.Stamped := by
  cases c with
  | append r => exact h.insert p.watermark r
  | appendBatch rs => exact h.store p.watermark rs
  | get o => exact h
  | reserveOne => exact h
  | reserve count => exact h
  | fill o r =>
    simp only [step]
    split
    · rename_i q hq
      obtain ⟨-, -, -, rfl⟩ := fill_ok hq
      exact h.insert o r
    · exact h
  | read start limit => exact h

/-- No request moves a partition to another topic or place. -/
theorem name_step (p : Partition) (c : Command) :
    (p.step c).2.topic = p.topic ∧ (p.step c).2.index = p.index := by
  cases c with
  | fill o r =>
    simp only [step]
    split
    · rename_i q hq
      obtain ⟨-, -, -, rfl⟩ := fill_ok hq
      exact ⟨rfl, rfl⟩
    · exact ⟨rfl, rfl⟩
  | _ => exact ⟨rfl, rfl⟩

theorem watermark_step {p : Partition} {c : Command} (h0 : 0 ≤ p.watermark) (hf : p.Fits c) :
    (p.step c).2.watermark = p.watermark + c.handedOut := by
  unfold Fits at hf
  cases c with
  | append r => simp only [step, append_fits r h0 hf, Command.handedOut, Nat.cast_one]
  | appendBatch rs => simp only [step, appendBatch_fits rs h0 hf, Command.handedOut]
  | get o => simp [step, Command.handedOut]
  | reserveOne =>
    simp only [step, reserveOne, reserve_fits 1 h0 hf, Command.handedOut, Nat.cast_one]
  | reserve count => simp only [step, reserve_fits count h0 hf, Command.handedOut]
  | fill o r =>
    simp only [step, Command.handedOut]
    split
    · rename_i q hq
      obtain ⟨-, -, -, rfl⟩ := fill_ok hq
      simp
    · simp
  | read start limit => simp [step, Command.handedOut]

/-- Writing one record at an offset that was empty adds its message and nothing else. -/
theorem get?_insert_stamp {log : Log} {o : Offset} (r : Record) (hnew : log[o]? = none) (o' : Offset)
    (m : Message) : (log.insert o (r.stamp o))[o']? = some m ↔
      log[o']? = some m ∨ (m ∈ [r.stamp o] ∧ m.offset = o') := by
  rw [Log.getElem?_insert_eq, List.mem_singleton]
  by_cases h : o = o'
  · subst h
    rw [if_pos rfl, hnew, Option.some.injEq]
    exact ⟨fun e => Or.inr ⟨e.symm, by rw [← e]; rfl⟩, fun e => by
      rcases e with e | ⟨e, -⟩
      · cases e
      · exact e.symm⟩
  · rw [if_neg h]
    refine ⟨Or.inl, fun e => ?_⟩
    rcases e with e | ⟨rfl, e⟩
    · exact e
    · exact absurd e h

theorem get?_watermark {p : Partition} (hb : p.Bounded) {o : Offset} (h : p.watermark ≤ o) :
    p.get? o = none := by
  by_contra hne
  obtain ⟨m, hm⟩ := Option.ne_none_iff_exists'.1 hne
  have := (hb.inside o m hm).2
  lia

/-- **Append-only.** After a request that fits, the log holds what it held before and what the
request wrote. -/
theorem get?_step {p : Partition} {c : Command} (hb : p.Bounded) (hf : p.Fits c) (o : Offset)
    (m : Message) : (p.step c).2.get? o = some m ↔
      p.get? o = some m ∨ (m ∈ written c (p.step c).1 ∧ m.offset = o) := by
  have h0 := hb.nonneg
  unfold Fits at hf
  cases c with
  | append r =>
    simp only [step, append_fits r h0 hf, written]
    exact get?_insert_stamp r (get?_watermark hb (Int.le_refl _)) o m
  | appendBatch rs =>
    simp only [step, appendBatch_fits rs h0 hf, written]
    change (p.log.store p.watermark rs)[o]? = some m ↔ _
    rw [Log.getElem?_store]
    -- an offset that held a message lies below the block
    have hbelow : p.get? o = some m → o < p.watermark := fun h => (hb.inside o m h).2
    exact ⟨fun h => h.elim Or.inr fun h => Or.inl h.2,
      fun h => h.elim (fun h => Or.inr ⟨Or.inl (hbelow h), h⟩) Or.inl⟩
  | get o' => simp [step, written]
  | reserveOne => simp [step, written, reserveOne, reserve, get?]
  | reserve count => simp [step, written, reserve, get?]
  | fill o' r =>
    simp only [step]
    split
    · rename_i q hq
      obtain ⟨-, -, hnew, rfl⟩ := fill_ok hq
      exact get?_insert_stamp r hnew o m
    · simp [written]
  | read start limit => simp [step, written]

/-- What a request writes lies in the offsets it hands out, or in an offset handed out before. -/
theorem mem_written_bounds {p : Partition} {c : Command} (h0 : 0 ≤ p.watermark) (hf : p.Fits c)
    {m : Message} (h : m ∈ written c (p.step c).1) :
    0 ≤ m.offset ∧ m.offset < p.watermark + c.handedOut := by
  unfold Fits at hf
  cases c with
  | append r =>
    simp only [step, append_fits r h0 hf, written, List.mem_singleton] at h
    subst h
    exact ⟨h0, by simp [Record.stamp, Command.handedOut]⟩
  | appendBatch rs =>
    simp only [step, appendBatch_fits rs h0 hf, written] at h
    have hm := mem_stamps_bounds h
    exact ⟨by lia, hm.2⟩
  | fill o r =>
    simp only [step] at h
    split at h
    · rename_i q hq
      obtain ⟨hlo, hhi, -, -⟩ := fill_ok hq
      simp only [written, List.mem_singleton] at h
      subst h
      exact ⟨hlo, by simpa [Record.stamp, Command.handedOut] using hhi⟩
    · simp [written] at h
  | _ => simp [written] at h

theorem bounded_step {p : Partition} {c : Command} (hb : p.Bounded) (hf : p.Fits c) :
    (p.step c).2.Bounded := by
  have hw := watermark_step hb.nonneg hf
  refine ⟨by rw [hw]; have := hb.nonneg; lia, fun o m hm => ?_⟩
  rw [hw]
  rcases (get?_step hb hf o m).1 hm with h | ⟨h, rfl⟩
  · have := hb.inside o m h
    lia
  · exact mem_written_bounds hb.nonneg hf h

/-! ## Ids -/

theorem append_dash_inj {xs xs' ds ds' : List Char} (hd : '-' ∉ ds) (hd' : '-' ∉ ds')
    (h : xs ++ '-' :: ds = xs' ++ '-' :: ds') : xs = xs' ∧ ds = ds' := by
  rcases List.append_eq_append_iff.1 h with ⟨as, hx, he⟩ | ⟨as, hx, he⟩
  · cases as with
    | nil => simp_all
    | cons a as =>
      rw [List.cons_append, List.cons.injEq] at he
      exact absurd (he.2 ▸ List.mem_append_right _ List.mem_cons_self) hd
  · cases as with
    | nil => simp_all
    | cons a as =>
      rw [List.cons_append, List.cons.injEq] at he
      exact absurd (he.2 ▸ List.mem_append_right _ List.mem_cons_self) hd'

theorem dash_not_mem_toDigits (n : Nat) : '-' ∉ Nat.toDigits 10 n := by
  intro h
  have := Nat.isDigit_of_mem_toDigits (by decide) (by decide) h
  simp at this

/-- **An id names one partition.** Whatever the topics are called, equal ids have equal topics and
equal places. -/
theorem idOf_inj {topic topic' : String} {index index' : Nat}
    (h : idOf topic index = idOf topic' index') : topic = topic' ∧ index = index' := by
  have hlist := congrArg String.toList h
  simp only [idOf, String.toList_append, Nat.toString_eq_repr, Nat.toList_repr] at hlist
  have hsplit (t : String) (n : Nat) : t.toList ++ "-part-".toList ++ Nat.toDigits 10 n =
      (t.toList ++ "-part".toList) ++ '-' :: Nat.toDigits 10 n := by simp
  rw [hsplit, hsplit] at hlist
  obtain ⟨ht, hd⟩ := append_dash_inj (dash_not_mem_toDigits index) (dash_not_mem_toDigits index')
    hlist
  refine ⟨String.toList_inj.1 (List.append_cancel_right ht), ?_⟩
  have hn := congrArg (fun ds => Nat.ofDigitChars 10 ds 0) hd
  simpa using hn

end LogBroker.Partition
