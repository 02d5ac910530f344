import Mathlib

/-!
# Runs and their transcripts

Partitions, topics, groups and brokers are machines of one kind: a step takes a state and a command
to an answer and a state. This module holds what is true of the runs of any such machine.

* `Run.transcript` pairs each command of a run with its answer; what a run did is read off it.
* `Run.Along` asks a condition of every command, in the state in which it is taken; `Run.countP`
  counts the commands that meet one.
* `Run.invariant`: what each step preserves, of the state together with the transcript so far, a
  run preserves.
* `Run.last_expand`, `Run.along_expand` and `Run.flatMap_expand`: where each step of one machine is
  a run of another, so is each run, and what is read off the transcripts agrees.
-/
namespace LogBroker.Run
variable {σ γ α : Type} (step : σ → γ → α × σ)

/-- The state after a run. -/
def last : σ → List γ → σ
  | s, [] => s
  | s, c :: rest => last (step s c).2 rest

/-- The commands of a run, each with its answer. -/
def transcript : σ → List γ → List (γ × α)
  | _, [] => []
  | s, c :: rest => (c, (step s c).1) :: transcript (step s c).2 rest

/-- Every command of a run meets a condition in the state in which it is taken. -/
def Along (Ok : σ → γ → Prop) : σ → List γ → Prop
  | _, [] => True
  | s, c :: rest => Ok s c ∧ Along Ok (step s c).2 rest

/-- How many commands of a run meet a condition in the state in which they are taken. -/
def countP (p : σ → γ → Bool) : σ → List γ → Nat
  | _, [] => 0
  | s, c :: rest => (if p s c then 1 else 0) + countP p (step s c).2 rest

instance (Ok : σ → γ → Prop) [∀ s c, Decidable (Ok s c)] :
    ∀ (s : σ) (cs : List γ), Decidable (Along step Ok s cs)
  | _, [] => isTrue trivial
  | s, c :: rest =>
    have := instDecidableAlong Ok (step s c).2 rest
    inferInstanceAs (Decidable (Ok s c ∧ Along step Ok (step s c).2 rest))

variable {step}

theorem last_append (s : σ) (xs ys : List γ) :
    last step s (xs ++ ys) = last step (last step s xs) ys := by
  induction xs generalizing s with
  | nil => rfl
  | cons c xs ih => exact ih _

theorem transcript_append (s : σ) (xs ys : List γ) :
    transcript step s (xs ++ ys) = transcript step s xs ++ transcript step (last step s xs) ys := by
  induction xs generalizing s with
  | nil => rfl
  | cons c xs ih => rw [List.cons_append, transcript, ih]; rfl

theorem along_append {Ok : σ → γ → Prop} (s : σ) (xs ys : List γ) :
    Along step Ok s (xs ++ ys) ↔ Along step Ok s xs ∧ Along step Ok (last step s xs) ys := by
  induction xs generalizing s with
  | nil => simp [Along, last]
  | cons c xs ih => rw [List.cons_append, Along, Along, ih, and_assoc]; rfl

theorem countP_append (p : σ → γ → Bool) (s : σ) (xs ys : List γ) :
    countP step p s (xs ++ ys) = countP step p s xs + countP step p (last step s xs) ys := by
  induction xs generalizing s with
  | nil => exact (Nat.zero_add _).symm
  | cons c xs ih => rw [List.cons_append, countP, countP, ih, Nat.add_assoc]; rfl

theorem countP_le_length (p : σ → γ → Bool) (s : σ) (cs : List γ) :
    countP step p s cs ≤ cs.length := by
  induction cs generalizing s with
  | nil => exact Nat.le_refl 0
  | cons c cs ih =>
    have := ih (step s c).2
    rw [countP, List.length_cons]
    split <;> omega

theorem map_fst_transcript (s : σ) (cs : List γ) : (transcript step s cs).map Prod.fst = cs := by
  induction cs generalizing s with
  | nil => rfl
  | cons c cs ih => rw [transcript, List.map_cons, ih]

/-- The answer at a place of the transcript is that of the state after the commands before it. -/
theorem getElem?_transcript (s : σ) (cs : List γ) (i : Nat) :
    (transcript step s cs)[i]? = cs[i]?.map fun c => (c, (step (last step s (cs.take i)) c).1) := by
  induction cs generalizing s i with
  | nil => rfl
  | cons c cs ih =>
    cases i with
    | zero => rfl
    | succ i => exact ih (step s c).2 i

/-- An entry of the transcript is a command with its answer in the state that it was taken in. -/
theorem exists_of_mem_transcript {s : σ} {cs : List γ} {q : γ × α}
    (h : q ∈ transcript step s cs) :
    ∃ before after, cs = before ++ q.1 :: after ∧ q.2 = (step (last step s before) q.1).1 := by
  induction cs generalizing s with
  | nil => cases h
  | cons c cs ih =>
    rcases List.mem_cons.1 h with rfl | h
    · exact ⟨[], cs, rfl, rfl⟩
    · obtain ⟨before, after, hcs, ha⟩ := ih h
      exact ⟨c :: before, after, congrArg (c :: ·) hcs, ha⟩

theorem along_of_forall {Ok : σ → γ → Prop} {cs : List γ} (h : ∀ c ∈ cs, ∀ s, Ok s c) (s : σ) :
    Along step Ok s cs := by
  induction cs generalizing s with
  | nil => trivial
  | cons c cs ih =>
    exact ⟨h c List.mem_cons_self s, ih (fun c' hc' => h c' (List.mem_cons_of_mem _ hc')) _⟩

theorem along_imp {Ok Fine : σ → γ → Prop} {cs : List γ} (h : ∀ c ∈ cs, ∀ s, Ok s c → Fine s c)
    {s : σ} (hok : Along step Ok s cs) : Along step Fine s cs := by
  induction cs generalizing s with
  | nil => trivial
  | cons c cs ih =>
    exact ⟨h c List.mem_cons_self s hok.1,
      ih (fun c' hc' => h c' (List.mem_cons_of_mem _ hc')) hok.2⟩

/-- A run preserves what each of its steps preserves, whatever happened before. -/
theorem invariant_from {Ok : σ → γ → Prop} (Inv : σ → List (γ × α) → Prop)
    (hstep : ∀ s t c, Ok s c → Inv s t → Inv (step s c).2 (t ++ [(c, (step s c).1)]))
    {s : σ} {t : List (γ × α)} (h : Inv s t) {cs : List γ} (hok : Along step Ok s cs) :
    Inv (last step s cs) (t ++ transcript step s cs) := by
  induction cs generalizing s t with
  | nil => rwa [transcript, List.append_nil]
  | cons c cs ih =>
    have := ih (hstep s t c hok.1 h) hok.2
    rwa [List.append_assoc] at this

/-- A run preserves what each of its steps preserves. -/
theorem invariant {Ok : σ → γ → Prop} (Inv : σ → List (γ × α) → Prop)
    (hstep : ∀ s t c, Ok s c → Inv s t → Inv (step s c).2 (t ++ [(c, (step s c).1)]))
    {s : σ} (h : Inv s []) {cs : List γ} (hok : Along step Ok s cs) :
    Inv (last step s cs) (transcript step s cs) :=
  invariant_from Inv hstep h hok

/-- A run preserves what every step preserves. -/
theorem invariant_always (Inv : σ → List (γ × α) → Prop)
    (hstep : ∀ s t c, Inv s t → Inv (step s c).2 (t ++ [(c, (step s c).1)]))
    {s : σ} (h : Inv s []) (cs : List γ) : Inv (last step s cs) (transcript step s cs) :=
  invariant Inv (fun s t c _ => hstep s t c) h (along_of_forall (fun _ _ _ => trivial) s)

/-- A run preserves what every step preserves, of the state together with the commands so far. -/
theorem invariant_commands (Inv : σ → List γ → Prop)
    (hstep : ∀ s cs c, Inv s cs → Inv (step s c).2 (cs ++ [c])) {s : σ} (h : Inv s [])
    (cs : List γ) : Inv (last step s cs) cs := by
  have hrun := invariant_always (fun s t => Inv s (t.map Prod.fst))
    (fun s t c ht => by simpa using hstep s _ c ht) h cs
  rwa [map_fst_transcript] at hrun

/-- What is read off the transcript is part of what is read off the commands, if that is so for each
command. -/
theorem flatMap_sublist {ω : Type} {f : γ × α → List ω} {g : γ → List ω}
    (h : ∀ s c, (f (c, (step s c).1)).Sublist (g c)) (s : σ) (cs : List γ) :
    ((transcript step s cs).flatMap f).Sublist (cs.flatMap g) := by
  induction cs generalizing s with
  | nil => exact List.Sublist.refl _
  | cons c cs ih =>
    rw [transcript, List.flatMap_cons, List.flatMap_cons]
    exact (h s c).append (ih _)

/-- Commands whose answer shows that they left the state alone may be left out of a run. All other
answers stay, and so does the state in the end. -/
theorem drop_idle (busy : α → Bool) (h : ∀ s c, busy (step s c).1 = false → (step s c).2 = s)
    (s : σ) (cs : List γ) :
    let rest := (transcript step s cs).filter fun q => busy q.2
    transcript step s (rest.map Prod.fst) = rest ∧
      last step s (rest.map Prod.fst) = last step s cs := by
  induction cs generalizing s with
  | nil => exact ⟨rfl, rfl⟩
  | cons c cs ih =>
    cases hb : busy (step s c).1 with
    | false =>
      obtain ⟨iht, ihl⟩ := ih s
      simp only [transcript, last, hb, h s c hb, List.filter_cons, Bool.false_eq_true, if_false]
      exact ⟨iht, ihl⟩
    | true =>
      obtain ⟨iht, ihl⟩ := ih (step s c).2
      simp only [transcript, last, hb, List.filter_cons, if_true, List.map_cons]
      exact ⟨congrArg _ iht, ihl⟩

/-! ## One machine inside another -/

section
variable {τ δ β ω : Type} {inner : τ → δ → β × τ} (view : σ → τ) {parts : σ → γ → List δ}

/-- The commands to the inner machine that a run of the outer one makes. -/
def expand (step : σ → γ → α × σ) (parts : σ → γ → List δ) : σ → List γ → List δ
  | _, [] => []
  | s, c :: rest => parts s c ++ expand step parts (step s c).2 rest

/-- A command to the inner machine is made by some command of the run. -/
theorem exists_of_mem_expand {s : σ} {cs : List γ} {d : δ} (h : d ∈ expand step parts s cs) :
    ∃ c ∈ cs, ∃ s', d ∈ parts s' c := by
  induction cs generalizing s with
  | nil => cases h
  | cons c cs ih =>
    rcases List.mem_append.1 h with h | h
    · exact ⟨c, List.mem_cons_self, s, h⟩
    · obtain ⟨c', hc', s', hd⟩ := ih h
      exact ⟨c', List.mem_cons_of_mem _ hc', s', hd⟩

theorem last_expand {Inv : σ → Prop} (hinv : ∀ s c, Inv s → Inv (step s c).2)
    (hview : ∀ s c, Inv s → last inner (view s) (parts s c) = view (step s c).2) {s : σ}
    (h : Inv s) (cs : List γ) :
    last inner (view s) (expand step parts s cs) = view (last step s cs) := by
  induction cs generalizing s with
  | nil => rfl
  | cons c cs ih => rw [expand, last_append, hview s c h, ih (hinv s c h)]; rfl

theorem along_expand {Inv : σ → Prop} (hinv : ∀ s c, Inv s → Inv (step s c).2)
    (hview : ∀ s c, Inv s → last inner (view s) (parts s c) = view (step s c).2)
    {Ok : σ → γ → Prop} {Fine : τ → δ → Prop}
    (hok : ∀ s c, Inv s → Ok s c → Along inner Fine (view s) (parts s c)) {s : σ} (h : Inv s)
    {cs : List γ} (hcs : Along step Ok s cs) :
    Along inner Fine (view s) (expand step parts s cs) := by
  induction cs generalizing s with
  | nil => trivial
  | cons c cs ih =>
    rw [expand, along_append, hview s c h]
    exact ⟨hok s c h hcs.1, ih (hinv s c h) hcs.2⟩

/-- What is read off the transcripts of single steps in the same way is so of whole runs. The
order of what is read is kept up to `R`, say equality or permutation. -/
theorem flatMap_expand {R : List ω → List ω → Prop} (hnil : R [] [])
    (happ : ∀ a b c d, R a b → R c d → R (a ++ c) (b ++ d)) {Inv : σ → Prop}
    (hinv : ∀ s c, Inv s → Inv (step s c).2)
    (hview : ∀ s c, Inv s → last inner (view s) (parts s c) = view (step s c).2)
    {f : γ × α → List ω} {g : δ × β → List ω}
    (hobs : ∀ s c, Inv s → R ((transcript inner (view s) (parts s c)).flatMap g)
      (f (c, (step s c).1))) {s : σ} (h : Inv s) (cs : List γ) :
    R ((transcript inner (view s) (expand step parts s cs)).flatMap g)
      ((transcript step s cs).flatMap f) := by
  induction cs generalizing s with
  | nil => exact hnil
  | cons c cs ih =>
    rw [expand, transcript_append, List.flatMap_append, hview s c h]
    exact happ _ _ _ _ (hobs s c h) (ih (hinv s c h))

end

end LogBroker.Run
