import Mathlib
import LogBroker.Proofs.Bench.Convergence
import LogBroker.Proofs.Distribution.Shares

/-!
# How much each member owns

Both distributions give a member the same number of items, its load (`Distribution.load_eq_load`),
and a load moves one way only, wherever the names of new members are ranked.

* A share has a `k`-th item just when the position of that item is in the list
  (`Distribution.lt_share_iff`). So shares are compared without a division: they shrink with the
  rank and with the number of members, and grow with the number of items
  (`Distribution.share_le_share`).
* New members are put between those who were there. So no rank falls (`Distribution.rank_le_rank`),
  and whoever was there gets no more (`Distribution.load_le`).
* A group has the deal of its present members and partitions, and loses neither
  (`Bench.grown_run`). So a run without subscriptions takes loads down, and one without joins takes
  them up (`Bench.load_run`).
-/
namespace LogBroker

/-- How many items a consumer owns. -/
def Assignment.load {α : Type} (a : Assignment α) (consumer : String) : Nat :=
  (a.owned consumer).length

namespace Distribution
variable {α : Type}

/-! ## Shares -/

/-- A share has more than `k` items just when the position of its `k`-th item, counted from zero,
is in the list. -/
theorem lt_share_iff {total count rank k : Nat} (h : rank < count) :
    k < share total count rank ↔ rank + k * count < total := by
  have hsplit := Nat.div_add_mod' total count
  have hmod := Nat.mod_lt total (Nat.zero_lt_of_lt h)
  unfold share
  rcases Nat.lt_trichotomy k (total / count) with hk | rfl | hk
  · have hround := Nat.mul_le_mul_right count (Nat.succ_le_of_lt hk)
    rw [Nat.succ_mul] at hround
    omega
  · split <;> omega
  · have hround := Nat.mul_le_mul_right count (Nat.succ_le_of_lt hk)
    rw [Nat.succ_mul] at hround
    split <;> omega

/-- A share does not grow when the rank or the number of members does, and it does not shrink when
the number of items grows. -/
theorem share_le_share {total total' count count' rank rank' : Nat} (hrank : rank ≤ rank')
    (hcount : count ≤ count') (htotal : total' ≤ total) (h : rank < count) (h' : rank' < count') :
    share total' count' rank' ≤ share total count rank := by
  refine le_of_forall_lt fun k hk => (lt_share_iff h).2 ?_
  have hlast := (lt_share_iff h').1 hk
  have hrounds := Nat.mul_le_mul_left k hcount
  omega

/-! ## Ranks -/

theorem sortedLT_ranked (members : List String) : (ranked members).SortedLT :=
  ((pairwise_ranked members).imp Text.Utf8.encode_lt_iff.1).sortedLT

/-- Members who are added are put between those who were there. -/
theorem ranked_sublist {members members' : List String} (h : members ⊆ members') :
    (ranked members).Sublist (ranked members') :=
  List.sublist_of_subperm_of_pairwise
    (List.subperm_of_subset (nodup_ranked members) fun _ hm =>
      mem_ranked.2 (h (mem_ranked.1 hm)))
    (sortedLT_ranked members).pairwise (sortedLT_ranked members').pairwise

/-- So nobody's rank falls. -/
theorem rank_le_rank {members members' : List String} (h : members ⊆ members') {rank rank' : Nat}
    {m : String} (hm : (ranked members)[rank]? = some m)
    (hm' : (ranked members')[rank']? = some m) : rank ≤ rank' := by
  obtain ⟨place, hplace⟩ :=
    List.sublist_iff_exists_orderEmbedding_getElem?_eq.1 (ranked_sublist h)
  rw [hplace rank] at hm
  obtain ⟨hlt, -⟩ := List.getElem?_eq_some_iff.1 hm
  have hsame : place rank = rank' :=
    (List.getElem?_inj hlt (nodup_ranked members')).1 (hm.trans hm'.symm)
  rw [← hsame]
  exact place.strictMono.le_apply

theorem exists_rank {members : List String} {m : String} (h : m ∈ members) :
    ∃ rank : Nat, (ranked members)[rank]? = some m :=
  List.mem_iff_getElem?.1 (mem_ranked.2 h)

/-! ## Loads -/

theorem load_of_rank (d : Distribution) {members : List String} {rank : Nat} {m : String}
    (h : (ranked members)[rank]? = some m) (items : List α) :
    (d.assign members items).load m = share items.length (ranked members).length rank :=
  length_owned d h items

/-- Who is no member owns nothing. -/
theorem load_of_not_mem (d : Distribution) {members : List String} {m : String} (h : m ∉ members)
    (items : List α) : (d.assign members items).load m = 0 := by
  refine List.length_eq_zero_iff.2 (List.eq_nil_iff_forall_not_mem.2 fun x hx => h ?_)
  have hkey := Assignment.mem_keys_of_owned hx
  rwa [keys_assign, mem_ranked] at hkey

/-- Both distributions put the same load on each consumer. -/
theorem load_eq_load (d d' : Distribution) (members : List String) (items : List α) (m : String) :
    (d.assign members items).load m = (d'.assign members items).load m := by
  by_cases h : m ∈ members
  · obtain ⟨rank, hrank⟩ := exists_rank h
    rw [load_of_rank d hrank, load_of_rank d' hrank]
  · rw [load_of_not_mem d h, load_of_not_mem d' h]

/-- With more members and no more items, nobody who was a member gets more. -/
theorem load_le (d : Distribution) {members members' : List String}
    (h : members ⊆ members') {items items' : List α}
    (hitems : items'.length ≤ items.length) {m : String} (hm : m ∈ members) :
    (d.assign members' items').load m ≤ (d.assign members items).load m := by
  obtain ⟨rank, hrank⟩ := exists_rank hm
  obtain ⟨rank', hrank'⟩ := exists_rank (h hm)
  rw [load_of_rank d hrank, load_of_rank d hrank']
  exact share_le_share (rank_le_rank h hrank hrank') (ranked_sublist h).length_le hitems
    (List.getElem?_eq_some_iff.1 hrank).1 (List.getElem?_eq_some_iff.1 hrank').1

/-- With the same members and no fewer items, nobody gets fewer. -/
theorem load_mono (d : Distribution) (members : List String) {items items' : List α}
    (hitems : items.length ≤ items'.length) (m : String) :
    (d.assign members items).load m ≤ (d.assign members items').load m := by
  by_cases hm : m ∈ members
  · exact load_le d (List.Subset.refl members) hitems hm
  · rw [load_of_not_mem d hm]
    exact Nat.zero_le _

end Distribution

/-! ## Loads in a group -/

namespace ConsumerGroup

/-- A group that has not dealt yet loads nobody, as a deal without members or without partitions
would. -/
theorem Dealt.load_eq {g : ConsumerGroup} (h : g.Dealt) (m : String) :
    g.assignment.load m = (g.distribution.assign g.members g.partitions).load m := by
  by_cases hm : g.members = []
  · rw [h.none (Or.inl hm), hm, Distribution.assign_nil]
  by_cases hp : g.partitions = []
  · have hempty := (Distribution.items_assign_perm g.distribution hm g.partitions).length_eq
    have hload := (Assignment.owned_sublist
      (g.distribution.assign g.members g.partitions) m).length_le
    rw [hempty] at hload
    have hzero : g.partitions.length = 0 := List.length_eq_zero_iff.2 hp
    rw [h.none (Or.inr hp)]
    show 0 = ((g.distribution.assign g.members g.partitions).owned m).length
    omega
  · rw [h.deal hm hp]

theorem Dealt.mem_members_of_mem_keys {g : ConsumerGroup} (h : g.Dealt) {m : String}
    (hm : m ∈ g.assignment.keys) : m ∈ g.members := by
  by_cases hnone : g.members = [] ∨ g.partitions = []
  · rw [h.none hnone] at hm
    cases hm
  · rw [not_or] at hnone
    exact (h.keys_perm hnone.1 hnone.2).2.subset hm

end ConsumerGroup

namespace Bench

/-- Who became a member had applied. -/
theorem joined_sublist (b : Bench) (cs : List Command) :
    (joined (Run.transcript step b cs)).Sublist (joins cs) := by
  refine Run.flatMap_sublist (fun b c => ?_) b cs
  cases c with
  | partition r c => exact List.Sublist.refl _
  | group c =>
    show (ConsumerGroup.joined c (b.group.step b.store c).1).Sublist (ConsumerGroup.applicant c)
    rw [ConsumerGroup.joined_eq_filter]
    exact List.filter_sublist

/-- What was subscribed to had been offered. -/
theorem subscriptions_sublist (b : Bench) (cs : List Command) :
    (subscriptions (Run.transcript step b cs)).Sublist (offers cs) := by
  refine Run.flatMap_sublist (fun b c => ?_) b cs
  cases c with
  | partition r c => exact List.Sublist.refl _
  | group c =>
    show (ConsumerGroup.subscription c (b.group.step b.store c).1).Sublist (ConsumerGroup.offered c)
    rw [ConsumerGroup.subscription_eq_filter]
    exact List.filter_sublist

theorem Current.load_eq {d : Distribution} {g : ConsumerGroup} {t : List (Command × Answer)}
    (h : Current d g t) (m : String) :
    g.assignment.load m = (d.assign g.members g.partitions).load m := by
  rw [h.dealt.load_eq, h.distribution]

/-- What the group has after more commands is what it had and what they brought in. -/
theorem grown_run (id : String) (d : Distribution) (cap : Limit) (cs more : List Command) :
    let b := Run.last step (fresh id d cap) cs
    let b' := Run.last step (fresh id d cap) (cs ++ more)
    b'.group.members = b.group.members ++ joined (Run.transcript step b more) ∧
    b'.group.partitions =
      b.group.partitions ++ (subscriptions (Run.transcript step b more)).flatMap Prod.snd := by
  intro b b'
  have h := current_run id d cap cs
  have h' := current_run id d cap (cs ++ more)
  rw [Run.transcript_append] at h'
  constructor
  · rw [h.members, h'.members]
    exact List.flatMap_append
  · rw [h.partitions, h'.partitions, ← List.flatMap_append]
    exact congrArg _ List.flatMap_append

/-- Without offers the load of who has a row does not grow. Without applications nobody's load
shrinks. -/
theorem load_run (id : String) (d : Distribution) (cap : Limit) (cs more : List Command) :
    let g := (Run.last step (fresh id d cap) cs).group
    let g' := (Run.last step (fresh id d cap) (cs ++ more)).group
    (offers more = [] → ∀ m ∈ g.assignment.keys, g'.assignment.load m ≤ g.assignment.load m) ∧
    (joins more = [] → ∀ m, g.assignment.load m ≤ g'.assignment.load m) := by
  intro g g'
  have h := current_run id d cap cs
  have h' := current_run id d cap (cs ++ more)
  obtain ⟨hmembers, hpartitions⟩ := grown_run id d cap cs more
  constructor
  · intro hoffers m hm
    have hsub := subscriptions_sublist (Run.last step (fresh id d cap) cs) more
    rw [hoffers, List.sublist_nil] at hsub
    rw [h.load_eq, h'.load_eq, hmembers, hpartitions]
    exact Distribution.load_le d (List.subset_append_left _ _) (by simp [hsub])
      (h.dealt.mem_members_of_mem_keys hm)
  · intro hjoins m
    have hjoined := joined_sublist (Run.last step (fresh id d cap) cs) more
    rw [hjoins, List.sublist_nil] at hjoined
    rw [h.load_eq, h'.load_eq, hmembers, hpartitions, hjoined, List.append_nil]
    exact Distribution.load_mono d _ (by simp) m

end Bench

/-- **Alike and one way.** Both distributions give each consumer the same number of items. With
either of them, members who are added take items from those who were there and never add to them,
whatever their names are; and items that are added at the end take nothing from anybody. So over any
run of a group, from any point on, a member that has a row gets no more partitions as long as no
topic is offered, and nobody gets fewer as long as nobody asks to join. -/
theorem loads_alike_and_one_way :
    (∀ (α : Type) (members : List String) (items : List α) (m : String),
      (Distribution.roundRobin.assign members items).load m =
        (Distribution.range.assign members items).load m) ∧
    (∀ (α : Type) (d : Distribution) (members members' : List String) (items : List α),
      members ⊆ members' → ∀ m ∈ members,
        (d.assign members' items).load m ≤ (d.assign members items).load m) ∧
    (∀ (α : Type) (d : Distribution) (members : List String) (items more : List α) (m : String),
      (d.assign members items).load m ≤ (d.assign members (items ++ more)).load m) ∧
    ∀ (id : String) (d : Distribution) (cap : Limit) (cs more : List Bench.Command),
      let g := ((Bench.fresh id d cap).run cs).2.group
      let g' := ((Bench.fresh id d cap).run (cs ++ more)).2.group
      (Bench.offers more = [] →
        ∀ m ∈ g.assignment.keys, g'.assignment.load m ≤ g.assignment.load m) ∧
      (Bench.joins more = [] → ∀ m, g.assignment.load m ≤ g'.assignment.load m) := by
  refine ⟨fun α => Distribution.load_eq_load .roundRobin .range, ?_, ?_, ?_⟩
  · intro α d members members' items h m hm
    exact Distribution.load_le d h (Nat.le_refl _) hm
  · intro α d members items more m
    exact Distribution.load_mono d members (by simp) m
  · intro id d cap cs more
    rw [Bench.run_eq, Bench.run_eq]
    exact Bench.load_run id d cap cs more

/-- Two members and five partitions, before "c" is put between them. -/
def pair : List Bench.Command :=
  [.group (.addConsumer "d"), .group (.addConsumer "b"),
    .group (.subscribe "t" [⟨"x", "t", 0⟩, ⟨"x", "t", 1⟩, ⟨"x", "t", 2⟩, ⟨"x", "t", 3⟩,
      ⟨"x", "t", 4⟩])]

theorem loads_alike_and_one_way_pair :
    ["d", "b"] ⊆ ["d", "c", "b"] ∧ "d" ∈ ["d", "b"] ∧
    (Distribution.range.assign ["d", "c", "b"] [1, 2, 3, 4, 5]).load "d" ≤
      (Distribution.range.assign ["d", "b"] [1, 2, 3, 4, 5]).load "d" ∧
    let g := ((Bench.fresh "g" .roundRobin none).run pair).2.group
    let after := ((Bench.fresh "g" .roundRobin none).run
      (pair ++ [.group (.addConsumer "c")])).2.group
    let more := ((Bench.fresh "g" .roundRobin none).run
      (pair ++ [.group (.subscribe "u" [⟨"x", "u", 0⟩])])).2.group
    "d" ∈ g.assignment.keys ∧ g.assignment.load "d" = 2 ∧
    after.assignment.load "d" = 1 ∧ after.assignment.load "d" ≤ g.assignment.load "d" ∧
    more.assignment.load "d" = 3 ∧ g.assignment.load "d" ≤ more.assignment.load "d" := by
  obtain ⟨-, hadd, -, hrun⟩ := loads_alike_and_one_way
  refine ⟨by simp, by simp, hadd Nat .range _ _ _ (by simp) "d" (by simp), ?_⟩
  refine ⟨by decide, by decide, by decide, ?_, by decide, ?_⟩
  · exact (hrun "g" .roundRobin none pair _).1 rfl "d" (by decide)
  · exact (hrun "g" .roundRobin none pair _).2 rfl "d"

end LogBroker
