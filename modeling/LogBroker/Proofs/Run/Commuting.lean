import Mathlib
import LogBroker.Proofs.Run

/-!
# Commands of different parties

Some commands of a machine have a party that sends them. Parties do not notice each other if, of two
commands of two parties, the second is answered as if it were the first, and both orders lead to the
same state (`Commutes`).

Then in a run with one command of each party everybody is answered as if alone
(`transcript_of_parties`), and whoever comes first, the state in the end is the same (`last_perm`).
-/
namespace LogBroker.Run
variable {σ γ α κ : Type}

/-- Commands of different parties commute, as long as an invariant holds that they keep. -/
structure Commutes (step : σ → γ → α × σ) (party : γ → Option κ) (Inv : σ → Prop) : Prop where
  keep : ∀ s c, (party c).isSome → Inv s → Inv (step s c).2
  comm : ∀ s c d, (party c).isSome → (party d).isSome → party c ≠ party d → Inv s →
    (step (step s c).2 d).1 = (step s d).1 ∧ (step (step s c).2 d).2 = (step (step s d).2 c).2

variable {step : σ → γ → α × σ} {party : γ → Option κ} {Inv : σ → Prop}

/-- With one command of each party, every command is answered as if it were the only one. -/
theorem transcript_of_parties (h : Commutes step party Inv) {s : σ} (hs : Inv s) {cs : List γ}
    (hsome : ∀ c ∈ cs, (party c).isSome) (hd : (cs.map party).Nodup) :
    transcript step s cs = cs.map fun c => (c, (step s c).1) := by
  induction cs generalizing s with
  | nil => rfl
  | cons c cs ih =>
    obtain ⟨hc, hrest⟩ := List.forall_mem_cons.1 hsome
    obtain ⟨hnew, hd⟩ := List.nodup_cons.1 hd
    rw [transcript, List.map_cons, ih (h.keep s c hc hs) hrest hd]
    congr 1
    refine List.map_congr_left fun d hmem => ?_
    have hne : party c ≠ party d := fun he => hnew (he ▸ List.mem_map_of_mem hmem)
    rw [(h.comm s c d hc (hrest d hmem) hne hs).1]

/-- With one command of each party, the state in the end does not depend on the order. -/
theorem last_perm (h : Commutes step party Inv) {cs cs' : List γ} (hp : cs.Perm cs') {s : σ}
    (hs : Inv s) (hsome : ∀ c ∈ cs, (party c).isSome) (hd : (cs.map party).Nodup) :
    last step s cs = last step s cs' := by
  induction hp generalizing s with
  | nil => rfl
  | cons c _ ih =>
    obtain ⟨hc, hrest⟩ := List.forall_mem_cons.1 hsome
    exact ih (h.keep s c hc hs) hrest (List.nodup_cons.1 hd).2
  | swap c d cs =>
    simp only [List.forall_mem_cons] at hsome
    simp only [List.map_cons, List.nodup_cons, List.mem_cons, not_or] at hd
    simp only [last, (h.comm s d c hsome.1 hsome.2.1 hd.1.1 hs).2]
  | trans hp _ ih ih' =>
    rw [ih hs hsome hd]
    exact ih' hs (fun c hc => hsome c (hp.mem_iff.2 hc)) ((hp.map party).nodup_iff.1 hd)

end LogBroker.Run
