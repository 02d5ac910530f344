import Mathlib
import LogBroker.Proofs.Bench.Generation
import LogBroker.Proofs.Run.Insertion

/-!
# Deals that nobody notices

To deal anew what is dealt already changes the number of the generation and nothing else: the
assignment is thrown away, and what is put in its place is the same (`Dealt.rebalance_eq`). No
request reads the number, so groups that differ in it answer alike (`step_withGeneration`). Hence
deals may be put into a run anywhere, and no other command is answered differently.

To add a member or a topic again changes nothing at all, the number included (`step_of_repeated`).

What does read the number is the state of the group. It tells whether there was a deal, and that is
told by members and partitions as well, as long as the deals can be numbered (`state_run`).
-/
namespace LogBroker

namespace ConsumerGroup

/-- The group with another number for its generation. -/
def withGeneration (g : ConsumerGroup) (n : UInt32) : ConsumerGroup := { g with generation := n }

theorem rebalance_withGeneration (g : ConsumerGroup) (n : UInt32) :
    ∃ m, (g.withGeneration n).rebalance = g.rebalance.withGeneration m := by
  by_cases h : g.members = [] ∨ g.partitions = []
  · exact ⟨n, by simp [rebalance, withGeneration, h]⟩
  · exact ⟨n + 1, by simp [rebalance, withGeneration, h]⟩

/-- No request reads the number of the generation. -/
theorem step_withGeneration (g : ConsumerGroup) (n : UInt32) (s : Store) (c : Command) :
    ∃ m, (g.withGeneration n).step s c = ((g.step s c).1, (g.step s c).2.withGeneration m) := by
  cases c with
  | rebalance =>
    obtain ⟨m, hm⟩ := rebalance_withGeneration g n
    exact ⟨m, by rw [step, hm]; rfl⟩
  | addConsumer consumer =>
    by_cases h : consumer ∈ g.members
    · exact ⟨n, by simp [step, addConsumer, withGeneration, h]⟩
    · obtain ⟨m, hm⟩ := rebalance_withGeneration { g with members := g.members ++ [consumer] } n
      refine ⟨m, ?_⟩
      simp only [step, addConsumer, if_neg h, ← hm]
      exact if_neg h ▸ rfl
  | subscribe topic rs =>
    by_cases h : topic ∈ g.topics
    · exact ⟨n, by simp [step, subscribe, withGeneration, h]⟩
    · obtain ⟨m, hm⟩ := rebalance_withGeneration
        { g with
          topics := g.topics ++ [topic]
          partitions := g.partitions ++ rs
          cursors := g.cursors.start rs } n
      refine ⟨m, ?_⟩
      simp only [step, subscribe, if_neg h, ← hm]
      exact if_neg h ▸ rfl
  | _ => exact ⟨n, rfl⟩

/-- To deal anew what is dealt changes the number of the generation only. -/
theorem Dealt.rebalance_eq {g : ConsumerGroup} (h : g.Dealt) :
    ∃ n, g.rebalance = g.withGeneration n := by
  by_cases hnone : g.members = [] ∨ g.partitions = []
  · exact ⟨g.generation, if_pos hnone⟩
  · rw [not_or] at hnone
    refine ⟨g.generation + 1, ?_⟩
    rw [rebalance, if_neg (not_or.2 hnone), ← h.deal hnone.1 hnone.2]
    rfl

theorem ready_withGeneration (g : ConsumerGroup) (n : UInt32) :
    (g.withGeneration n).Ready ↔ g.Ready := Iff.rfl

theorem deals_withGeneration (g : ConsumerGroup) (n : UInt32) (s : Store) (c : Command) :
    (g.withGeneration n).deals s c = g.deals s c := by
  obtain ⟨m, hm⟩ := step_withGeneration g n s c
  simp only [deals, hm, ready_withGeneration]

end ConsumerGroup

namespace Bench

/-- The command adds a member or a topic that the group has. -/
def Repeated (b : Bench) : Command → Prop
  | .group (.addConsumer consumer) => consumer ∈ b.group.members
  | .group (.subscribe topic _) => topic ∈ b.group.topics
  | _ => False

instance (b : Bench) : ∀ c : Command, Decidable (b.Repeated c)
  | .group (.addConsumer consumer) => inferInstanceAs (Decidable (consumer ∈ b.group.members))
  | .group (.subscribe topic _) => inferInstanceAs (Decidable (topic ∈ b.group.topics))
  | .group .rebalance | .group (.poll _) | .group (.pollMax _ _) | .group (.assignment _)
  | .group (.lag _) | .group (.consumedOffset _) | .group (.isSubscribed _)
  | .partition _ _ => isFalse id

/-- The command asks for a deal, or adds what the group has. -/
def Idle (b : Bench) (c : Command) : Prop := c = .group .rebalance ∨ b.Repeated c

instance (b : Bench) (c : Command) : Decidable (b.Idle c) :=
  inferInstanceAs (Decidable (c = .group .rebalance ∨ b.Repeated c))

theorem step_of_repeated {b : Bench} {c : Command} (h : b.Repeated c) : (b.step c).2 = b := by
  cases c with
  | partition r c => cases h
  | group c =>
    cases c with
    | addConsumer consumer =>
      have hmem : consumer ∈ b.group.members := h
      simp [step, ConsumerGroup.step, ConsumerGroup.addConsumer, hmem]
    | subscribe topic rs =>
      have hmem : topic ∈ b.group.topics := h
      simp [step, ConsumerGroup.step, ConsumerGroup.subscribe, hmem]
    | _ => cases h

/-- The second bench is the first, but for the number of the generation; the group has dealt. -/
def Renumbered (b b' : Bench) : Prop :=
  b.group.Dealt ∧ ∃ n, b' = { b with group := b.group.withGeneration n }

theorem renumbered_fresh (id : String) (d : Distribution) (cap : Limit) :
    Renumbered (fresh id d cap) (fresh id d cap) :=
  ⟨ConsumerGroup.dealt_new id d cap, 0, rfl⟩

theorem Renumbered.step {b b' : Bench} (h : Renumbered b b') (c : Command) :
    (b.step c).1 = (b'.step c).1 ∧ Renumbered (b.step c).2 (b'.step c).2 := by
  obtain ⟨hd, n, rfl⟩ := h
  cases c with
  | partition r c => exact ⟨rfl, hd, n, rfl⟩
  | group c =>
    obtain ⟨m, hm⟩ := ConsumerGroup.step_withGeneration b.group n b.store c
    simp only [step_group, hm]
    exact ⟨trivial, ConsumerGroup.dealt_step hd b.store c, m, rfl⟩

/-- A command that is idle leaves the bench the same, but for the number. -/
theorem Renumbered.skip {b b' : Bench} (h : Renumbered b b') {c : Command} (hc : b.Idle c) :
    Renumbered (b.step c).2 b' := by
  rcases hc with rfl | hc
  · obtain ⟨hd, n, rfl⟩ := h
    obtain ⟨m, hm⟩ := hd.rebalance_eq
    refine ⟨ConsumerGroup.dealt_step hd b.store .rebalance, n, ?_⟩
    change _ = { b with group := b.group.rebalance.withGeneration n }
    rw [hm]
    rfl
  · rwa [step_of_repeated hc]

theorem skips_renumbered : Run.Skips step Idle Renumbered :=
  ⟨fun _ _ c h => h.step c, fun _ _ _ hc h => h.skip hc⟩

/-- A command that repeats what was done changes nothing. -/
theorem skips_eq : Run.Skips step Repeated Eq where
  keep _ _ _ h := h ▸ ⟨rfl, rfl⟩
  skip _ _ _ hc h := (step_of_repeated hc).trans h

theorem Renumbered.deals_eq {b b' : Bench} (h : Renumbered b b') (c : Command) :
    b.deals c = b'.deals c := by
  obtain ⟨-, n, rfl⟩ := h
  cases c with
  | partition r c => rfl
  | group c => exact (ConsumerGroup.deals_withGeneration b.group n b.store c).symm

variable {id : String} {d : Distribution} {cap : Limit} {es : List (Run.Entry Command)}

/-- What is idle may be put into a run, and all other commands are answered as before. -/
theorem renumbered_run (h : Run.Inserts step Idle (fresh id d cap) es) :
    Run.ownTranscript step (fresh id d cap) es = (fresh id d cap).transcript (Run.own es) ∧
      Renumbered (Run.last step (fresh id d cap) (Run.whole es))
        (Run.last step (fresh id d cap) (Run.own es)) :=
  Run.skip_run skips_renumbered (renumbered_fresh id d cap) h

/-- The state of the group goes unchanged too, as long as the deals can be numbered. -/
theorem state_of_idle (h : Run.Inserts step Idle (fresh id d cap) es)
    (hdeals : Run.countP step deals (fresh id d cap) (Run.whole es) < 2 ^ 32) :
    (Run.last step (fresh id d cap) (Run.whole es)).group.state =
      (Run.last step (fresh id d cap) (Run.own es)).group.state := by
  have hle := Run.countP_own_le skips_renumbered (fun _ _ c hR => Renumbered.deals_eq hR c)
    (renumbered_fresh id d cap) h
  obtain ⟨-, -, n, hlast⟩ := renumbered_run h
  rw [state_run hdeals, state_run (Nat.lt_of_le_of_lt hle hdeals), hlast]
  simp only [ConsumerGroup.ready_withGeneration]

/-- **Deals go unnoticed.** Put deals into a run of a group, and members and topics that it has
already, anywhere and as many as you like. Every other command is answered as before, and at every
point of the run the group is what it would be otherwise, but for the number of its generation. Its
state is the same as well, as long as the deals can be numbered. If no deals are put in, but only
members and topics that the group has, then not even the number is another. -/
theorem deals_go_unnoticed (id : String) (d : Distribution) (cap : Limit)
    (es : List (Run.Entry Command)) :
    let b := fresh id d cap
    (Run.Inserts step Idle b es →
      Run.ownTranscript step b es = b.transcript (Run.own es) ∧
      ∀ es', es' <+: es →
        let during := (b.run (Run.whole es')).2
        let without := (b.run (Run.own es')).2
        during.store = without.store ∧
        during.group = { without.group with generation := during.group.generation } ∧
        (Run.countP step deals b (Run.whole es) < 2 ^ 32 →
          during.group.state = without.group.state)) ∧
    (Run.Inserts step Repeated b es →
      Run.ownTranscript step b es = b.transcript (Run.own es) ∧
      ∀ es', es' <+: es → (b.run (Run.whole es')).2 = (b.run (Run.own es')).2) := by
  intro b
  constructor
  · intro hes
    refine ⟨(renumbered_run hes).1, ?_⟩
    rintro es' ⟨rest, rfl⟩
    rw [Run.inserts_append] at hes
    rw [run_eq, run_eq, Run.whole_append, Run.countP_append]
    obtain ⟨-, -, n, hlast⟩ := renumbered_run hes.1
    refine ⟨by rw [hlast], by rw [hlast]; rfl, fun hdeals => ?_⟩
    exact state_of_idle hes.1 (Nat.lt_of_le_of_lt (Nat.le_add_right _ _) hdeals)
  · intro hes
    refine ⟨(Run.skip_run skips_eq rfl hes).1, ?_⟩
    rintro es' ⟨rest, rfl⟩
    rw [Run.inserts_append] at hes
    rw [run_eq, run_eq]
    exact (Run.skip_run skips_eq rfl hes.1).2

/-- A member and a topic come back while two members share two partitions. -/
def comingBack : List (Run.Entry Command) :=
  [⟨.group (.subscribe "t" [⟨"x", "t", 0⟩, ⟨"x", "t", 1⟩]), false⟩,
    ⟨.group (.addConsumer "b"), false⟩, ⟨.partition ⟨"x", "t", 0⟩ (.append ⟨none, [1]⟩), false⟩,
    ⟨.group (.addConsumer "b"), true⟩, ⟨.group (.poll "b"), false⟩,
    ⟨.group (.addConsumer "a"), false⟩, ⟨.group (.subscribe "t" [⟨"y", "t", 7⟩]), true⟩,
    ⟨.partition ⟨"x", "t", 1⟩ (.append ⟨none, [2]⟩), false⟩, ⟨.group (.poll "b"), false⟩]

/-- The same, with deals at all times: before there is anything to deal, and between the polls. -/
def dealingOften : List (Run.Entry Command) :=
  ⟨.group .rebalance, true⟩ :: comingBack.flatMap fun e => [e, ⟨.group .rebalance, true⟩]

theorem deals_go_unnoticed_dealing_often :
    let b := fresh "g" .range none
    Run.Inserts step Idle b dealingOften ∧
    Run.countP step deals b (Run.whole dealingOften) < 2 ^ 32 ∧
    (.group (.poll "b"), .group (.polled [⟨⟨"x", "t", 1⟩, [⟨0, none, [2]⟩]⟩])) ∈
      Run.ownTranscript step b dealingOften ∧
    (b.run (Run.whole dealingOften)).2.group.generation = 10 ∧
    (b.run (Run.own dealingOften)).2.group.generation = 2 ∧
    (b.run (Run.whole dealingOften)).2.group.state =
      (b.run (Run.own dealingOften)).2.group.state ∧
    Run.Inserts step Repeated b comingBack ∧
    (b.run (Run.whole comingBack)).2 = (b.run (Run.own comingBack)).2 := by
  have hidle : Run.Inserts step Idle (fresh "g" .range none) dealingOften := by decide
  have hdeals : Run.countP step deals (fresh "g" .range none) (Run.whole dealingOften) < 2 ^ 32 := by
    decide
  have hrep : Run.Inserts step Repeated (fresh "g" .range none) comingBack := by decide
  have hoften := (deals_go_unnoticed "g" .range none dealingOften).1 hidle
  have hback := (deals_go_unnoticed "g" .range none comingBack).2 hrep
  refine ⟨hidle, hdeals, ?_, by decide, by decide, ?_, hrep, hback.2 comingBack List.prefix_rfl⟩
  · rw [hoften.1]
    decide
  · exact (hoften.2 dealingOften List.prefix_rfl).2.2 hdeals

end Bench
end LogBroker
