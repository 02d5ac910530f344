import Mathlib
import LogBroker.Proofs.Ownership

/-!
# Groups that came together differently

Who owns what can be told from who is there. Two groups of one distribution, with the same members
and with the same topics in the same order, have the same assignment, however each of them came
together (`ownership_forgets_history`).

Two facts make the assignment canonical. The distribution ranks the members before it deals, so it
does not matter in which order they are listed, or how often (`Distribution.assign_congr`). And the
assignment is always that of the present members and partitions (`ConsumerGroup.Dealt`). The
partitions are those that came with the first offer of each topic (`Bench.Supplied`).
-/
namespace LogBroker

namespace ConsumerGroup

/-- The assignment can be told from the members, in whatever order, and the partitions. -/
theorem Dealt.assignment_congr {g g' : ConsumerGroup} (h : g.Dealt) (h' : g'.Dealt)
    (hd : g.distribution = g'.distribution) (hm : ∀ m, m ∈ g.members ↔ m ∈ g'.members)
    (hp : g.partitions = g'.partitions) : g.assignment = g'.assignment := by
  have hempty : g.members = [] ↔ g'.members = [] := by
    simp [List.eq_nil_iff_forall_not_mem, hm]
  by_cases hnone : g.members = [] ∨ g.partitions = []
  · rw [h.none hnone, h'.none (by rwa [← hempty, ← hp])]
  · rw [not_or] at hnone
    have hnone' : g'.members ≠ [] ∧ g'.partitions ≠ [] :=
      ⟨hnone.1 ∘ hempty.2, hp ▸ hnone.2⟩
    rw [h.deal hnone.1 hnone.2, h'.deal hnone'.1 hnone'.2, hd, hp, Distribution.assign_congr _ hm]

end ConsumerGroup

namespace Bench

/-! ## Offers and applications -/

/-- The topics that commands offer to the group, with their partitions. -/
def offers (cs : List Command) : List (String × List PartitionRef) :=
  cs.flatMap fun
    | .group c => ConsumerGroup.offered c
    | .partition _ _ => []

/-- The consumers that commands ask the group to take in. -/
def joins (cs : List Command) : List String :=
  cs.flatMap fun
    | .group c => ConsumerGroup.applicant c
    | .partition _ _ => []

@[simp] theorem offers_append (cs ds : List Command) : offers (cs ++ ds) = offers cs ++ offers ds :=
  List.flatMap_append

@[simp] theorem joins_append (cs ds : List Command) : joins (cs ++ ds) = joins cs ++ joins ds :=
  List.flatMap_append

@[simp] theorem offers_group (c : ConsumerGroup.Command) :
    offers [.group c] = ConsumerGroup.offered c :=
  List.flatMap_singleton ..

@[simp] theorem joins_group (c : ConsumerGroup.Command) :
    joins [.group c] = ConsumerGroup.applicant c :=
  List.flatMap_singleton ..

/-- The offers that are the first of their topic. -/
def firsts : List (String × List PartitionRef) → List (String × List PartitionRef)
  | [] => []
  | p :: rest => p :: (firsts rest).filter (·.1 ≠ p.1)

theorem firsts_append (ps qs : List (String × List PartitionRef)) :
    firsts (ps ++ qs) = firsts ps ++ (firsts qs).filter (·.1 ∉ ps.map Prod.fst) := by
  induction ps with
  | nil => simp [firsts]
  | cons p ps ih => simp [firsts, ih, List.filter_filter, List.mem_cons, -List.mem_map]

theorem firsts_offered (c : ConsumerGroup.Command) :
    firsts (ConsumerGroup.offered c) = ConsumerGroup.offered c := by
  cases c <;> rfl

/-- The group has the topics that it was offered, and of each the partitions that came first. -/
structure Supplied (g : ConsumerGroup) (os : List (String × List PartitionRef)) : Prop where
  topics : ∀ topic, topic ∈ g.topics ↔ topic ∈ os.map Prod.fst
  partitions : g.partitions = (firsts os).flatMap Prod.snd

theorem supplied_group {g : ConsumerGroup} {os : List (String × List PartitionRef)}
    (h : Supplied g os) (s : Store) (c : ConsumerGroup.Command) :
    Supplied (g.step s c).2 (os ++ ConsumerGroup.offered c) := by
  constructor
  · intro topic
    rw [ConsumerGroup.topics_step, ConsumerGroup.subscription_eq_filter, List.mem_append,
      List.map_append, List.mem_append, h.topics]
    -- an offer that the group turns down is of a topic that it has
    simp only [List.mem_map, List.mem_filter, decide_eq_true_eq, h.topics]
    grind
  · have hnew (p : String × List PartitionRef) : p.1 ∉ g.topics ↔ p.1 ∉ os.map Prod.fst :=
      not_congr (h.topics p.1)
    rw [ConsumerGroup.partitions_step, ConsumerGroup.subscription_eq_filter, h.partitions,
      firsts_append, firsts_offered, List.flatMap_append]
    simp only [hnew]

theorem supplied_step {b : Bench} {cs : List Command} (h : Supplied b.group (offers cs))
    (c : Command) : Supplied (b.step c).2.group (offers (cs ++ [c])) := by
  rw [offers_append]
  cases c with
  | group c =>
    rw [offers_group]
    exact supplied_group h b.store c
  | partition r c =>
    rw [show offers [.partition r c] = [] from rfl, List.append_nil]
    exact h

theorem supplied_run (id : String) (d : Distribution) (cap : Limit) (cs : List Command) :
    Supplied (Run.last step (fresh id d cap) cs).group (offers cs) :=
  Run.invariant_commands (fun (b : Bench) cs => Supplied b.group (offers cs))
    (fun _ _ c h => supplied_step h c) ⟨by simp [fresh, offers], rfl⟩ cs

end Bench

/-- **No history.** A distribution deals alike to two lists of members that have the same elements,
in whatever order and however often. Hence two groups that end with the same members, and were
offered the same topics with the same partitions first and in the same order, have the same
assignment, whatever else happened to them: when who joined, what was offered again, who polled. -/
theorem ownership_forgets_history :
    (∀ (α : Type) (d : Distribution) (ms ms' : List String) (xs : List α),
      (∀ m, m ∈ ms ↔ m ∈ ms') → d.assign ms xs = d.assign ms' xs) ∧
    ∀ (d : Distribution) (id id' : String) (cap cap' : Limit) (cs cs' : List Bench.Command),
      let b := ((Bench.fresh id d cap).run cs).2
      let b' := ((Bench.fresh id' d cap').run cs').2
      (∀ m, m ∈ b.group.members ↔ m ∈ b'.group.members) →
      Bench.firsts (Bench.offers cs) = Bench.firsts (Bench.offers cs') →
      b.group.assignment = b'.group.assignment ∧
        ∀ consumer, (b.group.step b.store (.assignment consumer)).1 =
          (b'.group.step b'.store (.assignment consumer)).1 := by
  refine ⟨fun _ d _ _ xs h => d.assign_congr h xs, ?_⟩
  intro d id id' cap cap' cs cs'
  rw [Bench.run_eq, Bench.run_eq]
  intro b b' hm ho
  have hcur := Bench.current_run id d cap cs
  have hcur' := Bench.current_run id' d cap' cs'
  have hparts : b.group.partitions = b'.group.partitions := by
    rw [(Bench.supplied_run id d cap cs).partitions, (Bench.supplied_run id' d cap' cs').partitions,
      ho]
  have hsame : b.group.assignment = b'.group.assignment :=
    hcur.dealt.assignment_congr hcur'.dealt (hcur.distribution.trans hcur'.distribution.symm) hm
      hparts
  refine ⟨hsame, fun consumer => ?_⟩
  simp only [ConsumerGroup.step, ConsumerGroup.owned, hsame]

/-- Members first: the topics come to a group of two, which is asked to deal again and polled. -/
def membersFirst : List Bench.Command :=
  [.group (.addConsumer "b"), .group (.addConsumer "a"),
    .group (.subscribe "t" [⟨"x", "t", 0⟩, ⟨"x", "t", 1⟩]), .group .rebalance,
    .partition ⟨"x", "t", 0⟩ (.append ⟨none, [1]⟩), .group (.poll "a"),
    .group (.subscribe "u" [⟨"y", "u", 0⟩])]

/-- Topics first: one is offered again with other partitions, and one member joins twice. -/
def topicsFirst : List Bench.Command :=
  [.group (.subscribe "t" [⟨"x", "t", 0⟩, ⟨"x", "t", 1⟩]), .group (.addConsumer "a"),
    .group (.subscribe "t" [⟨"y", "t", 0⟩]), .group (.subscribe "u" [⟨"y", "u", 0⟩]),
    .group (.addConsumer "a"), .group (.addConsumer "b")]

theorem ownership_forgets_history_two_ways :
    Distribution.roundRobin.assign ["b", "a", "b"] [1, 2, 3] =
      Distribution.roundRobin.assign ["a", "b"] [1, 2, 3] ∧
    let g := ((Bench.fresh "g" .range none).run membersFirst).2.group
    let g' := ((Bench.fresh "h" .range (some 1)).run topicsFirst).2.group
    (∀ m, m ∈ g.members ↔ m ∈ g'.members) ∧
    Bench.firsts (Bench.offers membersFirst) = Bench.firsts (Bench.offers topicsFirst) ∧
    g'.assignment = [("a", [⟨"x", "t", 0⟩, ⟨"x", "t", 1⟩]), ("b", [⟨"y", "u", 0⟩])] ∧
    g.assignment = g'.assignment := by
  have hm : ∀ m, m ∈ ((Bench.fresh "g" .range none).run membersFirst).2.group.members ↔
      m ∈ ((Bench.fresh "h" .range (some 1)).run topicsFirst).2.group.members := by
    intro m
    change m ∈ ["b", "a"] ↔ m ∈ ["a", "b"]
    simp [or_comm]
  have ho : Bench.firsts (Bench.offers membersFirst) = Bench.firsts (Bench.offers topicsFirst) := by
    decide
  refine ⟨?_, hm, ho, by decide, ?_⟩
  · exact ownership_forgets_history.1 Nat .roundRobin _ _ _ fun m => by simp; tauto
  · exact (ownership_forgets_history.2 .range "g" "h" none (some 1) _ _ hm ho).1

end LogBroker
