import Mathlib
import LogBroker.Proofs.Partition.History

/-!
# When a partition is append-only

A reservation takes its count as a signed number of 64 bits. A count of 2^63 or more counts as
negative, so it moves the watermark backwards although no sum leaves the signed range
(`NoOverflow`), and the offsets behind it are handed out and stored a second time.

`AppendOnly` says of all states of a run that messages stay, that the watermark does not fall, and
that appends and batches never get an offset twice. Such a run is one that reserves blocks of less
than 2^63 offsets: then every request that does not overflow fits (`NoOverflow.fits`), and what fits
keeps what is there (`kept_run`).
-/
namespace LogBroker.Partition

/-- By how much a request moves the watermark: its count, as a signed number of 64 bits. -/
def Command.shift : Command → Int
  | .append _ | .reserveOne => 1
  | .appendBatch rs => Offset.wrap rs.length
  | .reserve count => Offset.wrap count
  | .get _ | .fill _ _ | .read _ _ => 0

/-- Counts are 64 bits wide, and a list in memory has fewer than 2^63 records. -/
def Command.Sized : Command → Prop
  | .appendBatch rs => rs.length < 0x8000000000000000
  | .reserve count => count < UInt64.size
  | _ => True

instance : ∀ c : Command, Decidable c.Sized
  | .appendBatch rs => inferInstanceAs (Decidable (rs.length < 0x8000000000000000))
  | .reserve count => inferInstanceAs (Decidable (count < UInt64.size))
  | .append _ | .reserveOne | .get _ | .fill _ _ | .read _ _ => isTrue trivial

/-- Moving the watermark does not leave the signed range. -/
def NoOverflow (p : Partition) (c : Command) : Prop :=
  -0x8000000000000000 ≤ p.watermark + c.shift ∧ p.watermark + c.shift < 0x8000000000000000

instance (p : Partition) (c : Command) : Decidable (p.NoOverflow c) :=
  inferInstanceAs (Decidable (_ ∧ _))

/-- Over all states of a run messages stay and the watermark does not fall, and appends and batches
get each offset once. -/
structure AppendOnly (p : Partition) (cs : List Command) : Prop where
  kept : ∀ xs ys, xs <+: ys → ys <+: cs → ∀ (o : Offset) (m : Message),
    (Run.last step p xs).get? o = some m → (Run.last step p ys).get? o = some m
  rising : ∀ xs ys, xs <+: ys → ys <+: cs →
    (Run.last step p xs).watermark ≤ (Run.last step p ys).watermark
  fresh : ((p.transcript cs).flatMap appended).Nodup

/-! ## Counts as signed numbers -/

theorem wrap_of_small {count : Nat} (h : count < 0x8000000000000000) : Offset.wrap count = count :=
  Offset.wrap_eq_self (by lia) (by lia)

theorem wrap_of_large {count : Nat} (hlow : 0x8000000000000000 ≤ count)
    (hhigh : count < UInt64.size) : Offset.wrap count = count - UInt64.size := by
  have hsize : UInt64.size = 0x10000000000000000 := rfl
  rw [hsize] at hhigh
  rw [Offset.wrap, Int.bmod_def, hsize]
  split <;> lia

/-- A sum that stays in the signed range is the sum of the signed number. -/
theorem wrap_add {w : Offset} {n : Int} (hlow : -0x8000000000000000 ≤ w + Offset.wrap n)
    (hhigh : w + Offset.wrap n < 0x8000000000000000) : Offset.wrap (w + n) = w + Offset.wrap n := by
  have h := Offset.wrap_eq_self hlow hhigh
  rwa [Offset.wrap, Offset.wrap, Int.add_bmod_bmod] at h

variable {p : Partition} {c : Command}

theorem reserve_watermark {count : Nat} (h : p.NoOverflow (.reserve count)) :
    (p.step (.reserve count)).2.watermark = p.watermark + Offset.wrap count :=
  wrap_add h.1 h.2

/-- Without blocks of half of all offsets, a request that does not overflow fits. -/
theorem NoOverflow.fits (h : p.NoOverflow c) (hs : c.Sized)
    (hc : ∀ count, c = .reserve count → count < 0x8000000000000000) : p.Fits c := by
  have hhigh := h.2
  cases c with
  | append r => exact hhigh
  | appendBatch rs =>
    rw [Command.shift, wrap_of_small hs] at hhigh
    exact hhigh
  | get o => exact hhigh
  | reserveOne => exact hhigh
  | reserve count =>
    rw [Command.shift, wrap_of_small (hc count rfl)] at hhigh
    exact hhigh
  | fill o r => exact hhigh
  | read start limit => exact hhigh

/-! ## Runs -/

/-- What fits keeps what is there. -/
theorem kept_run (hb : p.Bounded) {cs : List Command} (hf : Run.Along step Fits p cs) :
    (∀ (o : Offset) (m : Message), p.get? o = some m → (Run.last step p cs).get? o = some m) ∧
      p.watermark ≤ (Run.last step p cs).watermark := by
  induction cs generalizing p with
  | nil => exact ⟨fun _ _ h => h, Int.le_refl _⟩
  | cons c cs ih =>
    obtain ⟨hkept, hle⟩ := ih (bounded_step hb hf.1) hf.2
    have hw := watermark_step hb.nonneg hf.1
    refine ⟨fun o m h => hkept o m ((get?_step hb hf.1 o m).2 (Or.inl h)), ?_⟩
    exact Int.le_trans (by rw [hw]; lia) hle

theorem appendOnly_of_fits {topic : String} {index : Nat} {cs : List Command}
    (hf : Run.Along step Fits (new topic index) cs) : AppendOnly (new topic index) cs := by
  have hlater : ∀ xs ys, xs <+: ys → ys <+: cs →
      (∀ (o : Offset) (m : Message), (Run.last step (new topic index) xs).get? o = some m →
        (Run.last step (new topic index) ys).get? o = some m) ∧
      (Run.last step (new topic index) xs).watermark ≤
        (Run.last step (new topic index) ys).watermark := by
    rintro xs _ ⟨zs, rfl⟩ ⟨us, rfl⟩
    rw [Run.along_append, Run.along_append] at hf
    rw [Run.last_append]
    exact kept_run (history_run hf.1.1).bounded hf.1.2
  refine ⟨fun xs ys hx hy => (hlater xs ys hx hy).1, fun xs ys hx hy => (hlater xs ys hx hy).2, ?_⟩
  exact (List.nodup_append.1
    ((history_run hf).handedOut_perm.nodup_iff.2 (Offset.nodup_upFrom _ _))).1

/-- **Append-only.** A run in which no sum overflows is append-only if and only if it reserves no
block of 2^63 offsets or more. -/
theorem appendOnly_iff {topic : String} {index : Nat} {cs : List Command}
    (hsized : ∀ c ∈ cs, c.Sized) (hsum : Run.Along step NoOverflow (new topic index) cs) :
    AppendOnly (new topic index) cs ↔
      ∀ count, .reserve count ∈ cs → count < 0x8000000000000000 := by
  constructor
  · intro h count hc
    by_contra hlarge
    obtain ⟨xs, zs, rfl⟩ := List.append_of_mem hc
    have hrise := h.rising xs (xs ++ [.reserve count]) (List.prefix_append _ _)
      ⟨zs, by rw [List.append_assoc]; rfl⟩
    have hno := ((Run.along_append _ _ _).1 hsum).2.1
    have hwrap := wrap_of_large (by omega) (hsized _ hc)
    rw [Run.last_append, Run.last, Run.last, reserve_watermark hno, hwrap] at hrise
    have hsize : count < UInt64.size := hsized _ hc
    lia
  · intro hcount
    apply appendOnly_of_fits
    refine Run.along_imp (fun c hc q hq => hq.fits (hsized c hc) ?_) hsum
    rintro count rfl
    exact hcount count hc

/-- Offsets are reserved up to the last block that counts as positive. -/
def reserving : List Command :=
  [.append ⟨none, [1]⟩, .reserve 0x7ffffffffffffff0, .append ⟨none, [2]⟩, .fill 5 ⟨none, [3]⟩]

theorem appendOnly_iff_reserving :
    (∀ c ∈ reserving, c.Sized) ∧ Run.Along step NoOverflow (new "t" 0) reserving ∧
      AppendOnly (new "t" 0) reserving := by
  have hsized : ∀ c ∈ reserving, c.Sized := by decide
  have hsum : Run.Along step NoOverflow (new "t" 0) reserving := by decide
  exact ⟨hsized, hsum, (appendOnly_iff hsized hsum).2 (by simp [reserving])⟩

/-- The reservation counts as minus one, and the second append gets the offset of the first. -/
def overwriting : List Command :=
  [.append ⟨none, [97]⟩, .reserve 0xffffffffffffffff, .append ⟨none, [98]⟩]

theorem not_appendOnly_overwriting :
    (∀ c ∈ overwriting, c.Sized) ∧ Run.Along step NoOverflow (new "t" 0) overwriting ∧
    ((new "t" 0).run [.append ⟨none, [97]⟩]).2.get? 0 = some ⟨0, none, [97]⟩ ∧
    ((new "t" 0).run overwriting).2.get? 0 = some ⟨0, none, [98]⟩ ∧
    ((new "t" 0).transcript overwriting).flatMap appended = [0, 0] ∧
    ¬ AppendOnly (new "t" 0) overwriting := by
  have hfresh : ((new "t" 0).transcript overwriting).flatMap appended = [0, 0] := by decide
  refine ⟨by decide, by decide, by decide, by decide, hfresh, fun h => ?_⟩
  have hnodup := h.fresh
  rw [hfresh] at hnodup
  simp at hnodup

end LogBroker.Partition
