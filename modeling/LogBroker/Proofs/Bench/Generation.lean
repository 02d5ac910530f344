import Mathlib
import LogBroker.Proofs.Bench

/-!
# Generations

A group numbers its deals. A request calls for a deal if it asks for one or brings in a member or a
topic that is new, and there is one if by then the group is `Ready`, with somebody to deal to and
something to deal (`ConsumerGroup.deals`).

* `generation_run`: the number of the generation is the number of deals, as far as 32 bits hold it.
* `ready_run`: a group is ready from its first deal on, and not before.
* `state_run`: so a group counts as assigned just when it is ready, unless the number of its deals
  came round to zero.
-/
namespace LogBroker

namespace ConsumerGroup

/-- There is somebody to deal to and something to deal. -/
def Ready (g : ConsumerGroup) : Prop := g.members ≠ [] ∧ g.partitions ≠ []

instance (g : ConsumerGroup) : Decidable g.Ready :=
  inferInstanceAs (Decidable (g.members ≠ [] ∧ g.partitions ≠ []))

/-- A request calls for a deal: it asks for one, or it brings in what is new. -/
def callsForDeal : Command → Answer → Bool
  | .rebalance, _ => true
  | _, .isNew new => new
  | _, _ => false

/-- A request makes the group deal its partitions out. -/
def deals (g : ConsumerGroup) (s : Store) (c : Command) : Bool :=
  callsForDeal c (g.step s c).1 && decide (g.step s c).2.Ready

theorem not_ready_iff {g : ConsumerGroup} : ¬ g.Ready ↔ g.members = [] ∨ g.partitions = [] := by
  rw [Ready, not_and_or, not_not, not_not]

theorem ready_rebalance (g : ConsumerGroup) : g.rebalance.Ready ↔ g.Ready := by
  obtain ⟨-, -, -, hm, -, hp, -⟩ := rebalance_frame g
  rw [Ready, Ready, hm, hp]

theorem generation_rebalance (g : ConsumerGroup) :
    g.rebalance.generation = g.generation + if g.Ready then 1 else 0 := by
  unfold rebalance
  by_cases h : g.Ready
  · rw [if_neg fun hnone => not_ready_iff.2 hnone h, if_pos h]
  · rw [if_pos (not_ready_iff.1 h), if_neg h]
    simp

/-- Deals are what the group counts. -/
theorem generation_step (g : ConsumerGroup) (s : Store) (c : Command) :
    (g.step s c).2.generation = g.generation + if g.deals s c then 1 else 0 := by
  cases c with
  | rebalance => simp [deals, step, callsForDeal, generation_rebalance, ready_rebalance]
  | addConsumer consumer =>
    by_cases h : consumer ∈ g.members
    · simp [deals, step, addConsumer, callsForDeal, h]
    · simp [deals, step, addConsumer, callsForDeal, h, generation_rebalance, ready_rebalance]
  | subscribe topic rs =>
    by_cases h : topic ∈ g.topics
    · simp [deals, step, subscribe, callsForDeal, h]
    · simp [deals, step, subscribe, callsForDeal, h, generation_rebalance, ready_rebalance]
  | _ => simp [deals, step, callsForDeal, poll, pollWithin]

/-- What calls for no deal brings in nothing. -/
theorem ready_step_of_not_calls {g : ConsumerGroup} {s : Store} {c : Command}
    (h : callsForDeal c (g.step s c).1 = false) : (g.step s c).2.Ready ↔ g.Ready := by
  have hjoined : joined c (g.step s c).1 = [] := by
    unfold joined
    split
    · rename_i ha
      rw [ha] at h
      cases h
    · rfl
  have hsub : subscription c (g.step s c).1 = [] := by
    unfold subscription
    split
    · rename_i ha
      rw [ha] at h
      cases h
    · rfl
  rw [Ready, members_step, partitions_step, hjoined, hsub]
  simp [Ready]

/-- A group that is ready stays so, and becomes so by a deal. -/
theorem ready_step (g : ConsumerGroup) (s : Store) (c : Command) :
    (g.step s c).2.Ready ↔ g.Ready ∨ g.deals s c = true := by
  constructor
  · intro h
    by_cases hc : callsForDeal c (g.step s c).1 = true
    · exact Or.inr (by simp [deals, hc, h])
    · exact Or.inl ((ready_step_of_not_calls (Bool.eq_false_iff.2 hc)).1 h)
  · rintro (h | h)
    · rw [Ready, members_step, partitions_step]
      exact ⟨List.append_ne_nil_of_left_ne_nil h.1 _, List.append_ne_nil_of_left_ne_nil h.2 _⟩
    · unfold deals at h
      simp only [Bool.and_eq_true, decide_eq_true_eq] at h
      exact h.2

end ConsumerGroup

namespace Bench

/-- A command makes the group deal its partitions out. -/
def deals (b : Bench) : Command → Bool
  | .group c => b.group.deals b.store c
  | .partition _ _ => false

theorem generation_run (b : Bench) (cs : List Command) :
    (Run.last step b cs).group.generation =
      b.group.generation + UInt32.ofNat (Run.countP step deals b cs) := by
  induction cs generalizing b with
  | nil => simp [Run.last, Run.countP]
  | cons c cs ih =>
    have hone : (b.step c).2.group.generation =
        b.group.generation + UInt32.ofNat (if b.deals c then 1 else 0) := by
      cases c with
      | partition r c => simp [deals, step]
      | group c =>
        refine (ConsumerGroup.generation_step b.group b.store c).trans ?_
        rw [deals]
        split <;> rfl
    rw [Run.last, Run.countP, ih, hone, UInt32.ofNat_add, UInt32.add_assoc]

theorem ready_run (b : Bench) (cs : List Command) :
    (Run.last step b cs).group.Ready ↔ b.group.Ready ∨ 0 < Run.countP step deals b cs := by
  induction cs generalizing b with
  | nil => simp [Run.last, Run.countP]
  | cons c cs ih =>
    have hone : (b.step c).2.group.Ready ↔ b.group.Ready ∨ b.deals c = true := by
      cases c with
      | partition r c => simp [deals, step]
      | group c => exact ConsumerGroup.ready_step b.group b.store c
    rw [Run.last, Run.countP, ih, hone]
    by_cases h : b.deals c = true <;> simp [h]

/-- A group is assigned just when it is ready, as long as its deals can be numbered. -/
theorem state_run {id : String} {d : Distribution} {cap : Limit} {cs : List Command}
    (h : Run.countP step deals (fresh id d cap) cs < 2 ^ 32) :
    (Run.last step (fresh id d cap) cs).group.state =
      if (Run.last step (fresh id d cap) cs).group.Ready then .assigned else .empty := by
  have hgen := generation_run (fresh id d cap) cs
  have hready := ready_run (fresh id d cap) cs
  generalize Run.countP step deals (fresh id d cap) cs = n at h hgen hready
  have hzero : (Run.last step (fresh id d cap) cs).group.generation = 0 ↔ n = 0 := by
    rw [hgen, ← UInt32.toNat_inj]
    simp only [fresh, UInt32.toNat_add, UInt32.toNat_ofNat', UInt32.toNat_zero]
    omega
  have hnew : ¬ (fresh id d cap).group.Ready := fun h => h.1 rfl
  rw [or_iff_right hnew] at hready
  rw [ConsumerGroup.state]
  by_cases hn : n = 0
  · rw [if_pos (hzero.2 hn), if_neg (by rw [hready]; omega)]
  · rw [if_neg (mt hzero.1 hn), if_pos (hready.2 (by omega))]

end Bench
end LogBroker
