import Mathlib
import LogBroker.Proofs.ConsumerGroup
import LogBroker.Proofs.Distribution

/-!
# What a poll reads and writes

A poll reads and writes the cursors of the partitions that it is given, and no others:

* `getElem?_deliver_of_not_mem`: the cursors of other ids stay.
* `deliver_congr`: cursors that agree on those ids give the same deliveries, and wherever they
  agree, the cursors after the polls agree.

So two polls over partitions with no id in common do not notice each other (`deliver_comm`).

Where ids are not shared, different consumers own such partitions (`Dealt.ownsApart`), and their
polls commute (`OwnsApart.pollWithin_comm`).
-/
namespace LogBroker

namespace ConsumerGroup

variable {s : Store} {rs rs' : List PartitionRef}

/-- A poll leaves alone the cursor of an id that none of its partitions has. -/
theorem getElem?_deliver_of_not_mem {x : String} (h : x ∉ rs.map (·.id)) (cs : Cursors)
    (limit : Limit) : (deliver s rs cs limit).2[x]? = cs[x]? := by
  induction rs generalizing cs limit with
  | nil => rfl
  | cons r rest ih =>
    simp only [List.map_cons, List.mem_cons, not_or] at h
    unfold deliver
    split
    · rfl
    · simp only [ih h.2, Std.ExtTreeMap.getElem?_insert]
      rw [if_neg]
      simpa using Ne.symm h.1

/-- A poll reads no other cursors than those of its partitions, and changes what it reads. -/
theorem deliver_congr {cs cs' : Cursors} (h : ∀ x ∈ rs.map (·.id), cs[x]? = cs'[x]?)
    (limit : Limit) :
    (deliver s rs cs limit).1 = (deliver s rs cs' limit).1 ∧
      ∀ x : String, cs[x]? = cs'[x]? →
        (deliver s rs cs limit).2[x]? = (deliver s rs cs' limit).2[x]? := by
  induction rs generalizing cs cs' limit with
  | nil => exact ⟨rfl, fun _ hx => hx⟩
  | cons r rest ih =>
    have hr : cs.consumed r = cs'.consumed r := by
      simp only [Cursors.consumed, Std.ExtTreeMap.getD_eq_getD_getElem?,
        h r.id (List.mem_map_of_mem List.mem_cons_self)]
    by_cases hsp : limit.spent
    · simp only [deliver, if_pos hsp, true_and]
      exact fun _ hx => hx
    · -- the same offset is written to both
      have hinsert (o : Offset) (x : String) (hx : cs[x]? = cs'[x]?) :
          (cs.insert r.id o)[x]? = (cs'.insert r.id o)[x]? := by
        simp only [Std.ExtTreeMap.getElem?_insert, hx]
      simp only [deliver, if_neg hsp, hr]
      obtain ⟨hsame, hnext⟩ := ih (fun x hx => hinsert _ x (h x (List.mem_cons_of_mem _ hx))) _
      exact ⟨by rw [hsame], fun x hx => hnext x (hinsert _ x hx)⟩

/-- Polls over partitions with no id in common do not notice each other. -/
theorem deliver_comm (h : (rs.map (·.id)).Disjoint (rs'.map (·.id))) (cs : Cursors)
    (limit limit' : Limit) :
    (deliver s rs' (deliver s rs cs limit).2 limit').1 = (deliver s rs' cs limit').1 ∧
      (deliver s rs' (deliver s rs cs limit).2 limit').2 =
        (deliver s rs (deliver s rs' cs limit').2 limit).2 := by
  have hafter : ∀ x ∈ rs'.map (·.id), (deliver s rs cs limit).2[x]? = cs[x]? :=
    fun x hx => getElem?_deliver_of_not_mem (fun hx' => h hx' hx) cs limit
  have hbefore : ∀ x ∈ rs.map (·.id), (deliver s rs' cs limit').2[x]? = cs[x]? :=
    fun x hx => getElem?_deliver_of_not_mem (fun hx' => h hx hx') cs limit'
  refine ⟨(deliver_congr hafter limit').1, Std.ExtTreeMap.ext_getElem? fun {x} => ?_⟩
  -- each cursor is written by one of the two polls, and the other one passes it by
  by_cases hx : x ∈ rs.map (·.id)
  · rw [getElem?_deliver_of_not_mem (fun hx' => h hx hx'),
      (deliver_congr hbefore limit).2 x (hbefore x hx)]
  · rw [getElem?_deliver_of_not_mem hx, (deliver_congr hafter limit').2 x]
    exact getElem?_deliver_of_not_mem hx cs limit

/-- What two consumers own has no id in common. -/
def OwnsApart (g : ConsumerGroup) : Prop :=
  ∀ c d, c ≠ d → ((g.owned c).map (·.id)).Disjoint ((g.owned d).map (·.id))

/-- Partitions with different ids are dealt out apart. -/
theorem Dealt.ownsApart {g : ConsumerGroup} (h : g.Dealt) (hids : (g.partitions.map (·.id)).Nodup) :
    g.OwnsApart := by
  intro c d hcd
  by_cases hm : g.members = []
  · simp [owned, h.none (Or.inl hm), Assignment.owned]
  · exact Assignment.disjoint_owned (((h.items_perm hm).map (·.id)).nodup_iff.2 hids) hcd

theorem OwnsApart.pollWithin {g : ConsumerGroup} (h : g.OwnsApart) (s : Store) (consumer : String)
    (limit : Limit) : (g.pollWithin s consumer limit).2.OwnsApart := h

/-- Polls of two consumers commute. -/
theorem OwnsApart.pollWithin_comm {g : ConsumerGroup} (h : g.OwnsApart) (s : Store) {c d : String}
    (hcd : c ≠ d) (limit limit' : Limit) :
    ((g.pollWithin s c limit).2.pollWithin s d limit').1 = (g.pollWithin s d limit').1 ∧
      ((g.pollWithin s c limit).2.pollWithin s d limit').2 =
        ((g.pollWithin s d limit').2.pollWithin s c limit).2 := by
  obtain ⟨hds, hcursors⟩ := deliver_comm (s := s) (h c d hcd) g.cursors limit limit'
  exact ⟨hds, congrArg (fun cs => { g with cursors := cs }) hcursors⟩

end ConsumerGroup
end LogBroker
