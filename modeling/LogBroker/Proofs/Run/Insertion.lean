import Mathlib
import LogBroker.Proofs.Run

/-!
# Commands put into a run

Two runs of one machine, where the second has all commands of the first and others in between. The
longer run is a list of entries, each a command and whether it was put in. `Run.whole` are all its
commands, `Run.own` those that were there before and `Run.put` those that were put in, and
`Run.ownTranscript` and `Run.putTranscript` are the answers that these get in the longer run.

`skip_run`: if what was put in leaves states related, and related states answer alike and stay
related (`Skips`), then the answers are those of the shorter run. `countP_own_le` counts commands of
a kind in both.
-/
namespace LogBroker.Run
variable {σ γ α : Type} (step : σ → γ → α × σ)

/-- A command of a run, and whether it was put in. -/
structure Entry (γ : Type) where
  command : γ
  inserted : Bool

/-- All commands. -/
def whole (es : List (Entry γ)) : List γ := es.map (·.command)

theorem whole_append (es fs : List (Entry γ)) : whole (es ++ fs) = whole es ++ whole fs :=
  List.map_append

/-- The commands that were not put in. -/
def own (es : List (Entry γ)) : List γ := (es.filter (!·.inserted)).map (·.command)

/-- The commands that were put in. -/
def put (es : List (Entry γ)) : List γ := (es.filter (·.inserted)).map (·.command)

/-- What the commands that were not put in are answered in the run of all commands. -/
def ownTranscript (s : σ) (es : List (Entry γ)) : List (γ × α) :=
  ((es.zip (transcript step s (whole es))).filter (!·.1.inserted)).map Prod.snd

/-- What the commands that were put in are answered in the run of all commands. -/
def putTranscript (s : σ) (es : List (Entry γ)) : List (γ × α) :=
  ((es.zip (transcript step s (whole es))).filter (·.1.inserted)).map Prod.snd

/-- Whatever was put in meets a condition in the state in which it is taken. -/
def Inserts (Ok : σ → γ → Prop) : σ → List (Entry γ) → Prop
  | _, [] => True
  | s, e :: rest => (e.inserted = true → Ok s e.command) ∧ Inserts Ok (step s e.command).2 rest

instance (Ok : σ → γ → Prop) [∀ s c, Decidable (Ok s c)] :
    ∀ (s : σ) (es : List (Entry γ)), Decidable (Inserts step Ok s es)
  | _, [] => isTrue trivial
  | s, e :: rest =>
    have := instDecidableInserts Ok (step s e.command).2 rest
    inferInstanceAs (Decidable ((e.inserted = true → Ok s e.command) ∧
      Inserts step Ok (step s e.command).2 rest))

variable {step}

theorem inserts_append {Ok : σ → γ → Prop} (s : σ) (es fs : List (Entry γ)) :
    Inserts step Ok s (es ++ fs) ↔
      Inserts step Ok s es ∧ Inserts step Ok (last step s (whole es)) fs := by
  induction es generalizing s with
  | nil => simp [Inserts, whole, last]
  | cons e es ih => simp only [List.cons_append, Inserts, ih, and_assoc, whole, List.map_cons, last]

/-- Related states answer alike and stay related, also when one of them takes a command alone that
meets the condition. -/
structure Skips (step : σ → γ → α × σ) (Ok : σ → γ → Prop) (R : σ → σ → Prop) : Prop where
  keep : ∀ s t c, R s t → (step s c).1 = (step t c).1 ∧ R (step s c).2 (step t c).2
  skip : ∀ s t c, Ok s c → R s t → R (step s c).2 t

section
variable {Ok : σ → γ → Prop} {R : σ → σ → Prop} (hskips : Skips step Ok R)
include hskips

/-- What was put in goes unnoticed, if it leaves the states related. -/
theorem skip_run {s t : σ} (h : R s t) {es : List (Entry γ)} (hes : Inserts step Ok s es) :
    ownTranscript step s es = transcript step t (own es) ∧
      R (last step s (whole es)) (last step t (own es)) := by
  induction es generalizing s t with
  | nil => exact ⟨rfl, h⟩
  | cons e es ih =>
    obtain ⟨hok, hes⟩ := hes
    obtain ⟨c, inserted⟩ := e
    cases inserted with
    | true => exact ih (hskips.skip s t c (hok rfl) h) hes
    | false =>
      obtain ⟨hanswer, hnext⟩ := hskips.keep s t c h
      obtain ⟨htrans, hlast⟩ := ih hnext hes
      refine ⟨?_, hlast⟩
      change (c, (step s c).1) :: ownTranscript step (step s c).2 es =
        (c, (step t c).1) :: transcript step (step t c).2 (own es)
      rw [htrans, hanswer]

/-- No more commands of a kind are in the shorter run. -/
theorem countP_own_le {p : σ → γ → Bool} (hp : ∀ s t c, R s t → p s c = p t c) {s t : σ}
    (h : R s t) {es : List (Entry γ)} (hes : Inserts step Ok s es) :
    countP step p t (own es) ≤ countP step p s (whole es) := by
  induction es generalizing s t with
  | nil => exact Nat.le_refl 0
  | cons e es ih =>
    obtain ⟨hok, hes⟩ := hes
    obtain ⟨c, inserted⟩ := e
    cases inserted with
    | true => exact (ih (hskips.skip s t c (hok rfl) h) hes).trans (Nat.le_add_left _ _)
    | false =>
      have hle := ih (hskips.keep s t c h).2 hes
      change (if p t c then 1 else 0) + countP step p (step t c).2 (own es) ≤
        (if p s c then 1 else 0) + countP step p (step s c).2 (whole es)
      rw [hp s t c h]
      omega

end

end LogBroker.Run
