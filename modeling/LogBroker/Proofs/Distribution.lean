import Mathlib
import LogBroker.Distribution

/-!
# Every item is dealt exactly once

Both distributions give one row to each member (`keys_assign`) and put every item into exactly one
row (`items_assign_perm`): the rows together are a rearrangement of the items. For an item that
occurs once this makes a single consumer its owner (`exists_owner`).

* By turns, the rows grow by one item at a time (`deal_concat`). The member whose turn it is has a
  row, so that no item is lost (`items_deal_perm`).
* By blocks, the block of a rank starts where the blocks below it stop. That is at
  `Distribution.below`, the invariant of the running start (`blocks_from`), and so the last block
  stops where the items end (`below_count`) and the blocks together are the items (`items_cut`).
-/
namespace LogBroker

namespace Assignment
variable {α : Type}

/-- The consumers that have a row. -/
def keys (a : Assignment α) : List String := a.map Prod.fst

/-- Everything that is owned, row by row. -/
def items (a : Assignment α) : List α := a.flatMap Prod.snd

theorem items_cons (c : String) (xs : List α) (a : Assignment α) :
    items ((c, xs) :: a) = xs ++ a.items :=
  List.flatMap_cons

theorem owned_cons (c c' : String) (xs : List α) (a : Assignment α) :
    owned ((c', xs) :: a) c = if c = c' then xs else a.owned c := by
  unfold owned
  by_cases h : c = c'
  · subst h; rw [List.lookup_cons_self, if_pos rfl]; rfl
  · have hb : (c == c') = false := beq_eq_false_iff_ne.2 h
    rw [List.lookup_cons, hb, if_neg h]

/-- What a consumer owns is one of the rows. -/
theorem owned_sublist (a : Assignment α) (c : String) : (a.owned c).Sublist a.items := by
  induction a with
  | nil => exact List.nil_sublist _
  | cons p a ih =>
    obtain ⟨c', xs⟩ := p
    rw [owned_cons, items_cons]
    split
    · exact List.sublist_append_left _ _
    · exact ih.trans (List.sublist_append_right _ _)

theorem mem_items_of_owned {a : Assignment α} {c : String} {x : α} (h : x ∈ a.owned c) :
    x ∈ a.items :=
  (a.owned_sublist c).subset h

/-- Where no two items look alike, no item of one consumer looks like an item of another. -/
theorem disjoint_owned {β : Type} {f : α → β} {a : Assignment α} (h : (a.items.map f).Nodup)
    {c d : String} (hcd : c ≠ d) : ((a.owned c).map f).Disjoint ((a.owned d).map f) := by
  induction a with
  | nil => exact List.disjoint_nil_left _
  | cons p a ih =>
    obtain ⟨c', xs⟩ := p
    rw [items_cons, List.map_append] at h
    obtain ⟨-, hrest, hdisj⟩ := List.nodup_append'.1 h
    have hrow (e : String) : (xs.map f).Disjoint ((owned a e).map f) :=
      List.disjoint_of_subset_right (List.map_subset f (owned_sublist a e).subset) hdisj
    rw [owned_cons, owned_cons]
    by_cases hc : c = c'
    · rw [if_pos hc, if_neg fun hd => hcd (hc.trans hd.symm)]
      exact hrow d
    · rw [if_neg hc]
      split
      · exact (hrow c).symm
      · exact ih hrest

theorem mem_keys_of_owned {a : Assignment α} {c : String} {x : α} (h : x ∈ a.owned c) :
    c ∈ a.keys := by
  induction a with
  | nil => cases h
  | cons p a ih =>
    obtain ⟨c', xs⟩ := p
    rw [owned_cons] at h
    split at h
    · rename_i he
      rw [he]
      exact List.mem_cons_self
    · exact List.mem_cons_of_mem _ (ih h)

/-- Where each consumer has one row, the row is what it owns. -/
theorem owned_of_mem {a : Assignment α} (hk : a.keys.Nodup) {c : String} {xs : List α}
    (h : (c, xs) ∈ a) : a.owned c = xs := by
  induction a with
  | nil => cases h
  | cons p a ih =>
    obtain ⟨d, ys⟩ := p
    simp only [keys, List.map_cons, List.nodup_cons] at hk
    rw [owned_cons]
    rcases List.mem_cons.1 h with h | h
    · cases h
      rw [if_pos rfl]
    · have hne : c ≠ d := fun e => hk.1 (e ▸ List.mem_map_of_mem (f := Prod.fst) h)
      rw [if_neg hne, ih hk.2 h]

theorem exists_owner_of_mem {a : Assignment α} (hk : a.keys.Nodup) {x : α} (h : x ∈ a.items) :
    ∃ c ∈ a.keys, x ∈ a.owned c := by
  obtain ⟨⟨c, xs⟩, hrow, hx⟩ := List.mem_flatMap.1 h
  exact ⟨c, List.mem_map_of_mem hrow, by rwa [owned_of_mem hk hrow]⟩

theorem flatMap_owned {a : Assignment α} (hk : a.keys.Nodup) : a.keys.flatMap a.owned = a.items := by
  rw [keys, List.flatMap_map]
  exact List.flatMap_congr fun _ hrow => owned_of_mem hk hrow

/-- **One owner.** An item that occurs once over all rows is owned once by one consumer, and by
no other. -/
theorem exists_owner [DecidableEq α] {a : Assignment α} (hk : a.keys.Nodup) {x : α}
    (h : a.items.count x = 1) :
    ∃ c ∈ a.keys, (a.owned c).count x = 1 ∧ ∀ c', c' ≠ c → x ∉ a.owned c' := by
  induction a with
  | nil => simp [items] at h
  | cons p a ih =>
    obtain ⟨c, xs⟩ := p
    simp only [keys, List.map_cons, List.nodup_cons] at hk
    rw [items_cons, List.count_append] at h
    by_cases hx : x ∈ xs
    · have hpos := List.count_pos_iff.2 hx
      have hrest : x ∉ items a := List.count_eq_zero.1 (by omega)
      refine ⟨c, List.mem_cons_self, ?_, ?_⟩
      · rw [owned_cons, if_pos rfl]; omega
      · intro c' hc' hm
        rw [owned_cons, if_neg hc'] at hm
        exact hrest (mem_items_of_owned hm)
    · have h0 : xs.count x = 0 := List.count_eq_zero.2 hx
      obtain ⟨d, hd, h1, h2⟩ := ih hk.2 (by omega)
      have hdc : d ≠ c := fun e => hk.1 (e ▸ hd)
      refine ⟨d, List.mem_cons_of_mem _ hd, by rwa [owned_cons, if_neg hdc], fun c' hc' hm => ?_⟩
      rw [owned_cons] at hm
      split at hm
      · exact hx hm
      · exact h2 c' hc' hm

/-! ## One item more -/

@[simp] theorem keys_give (a : Assignment α) (c : String) (x : α) : (a.give c x).keys = a.keys := by
  induction a with
  | nil => rfl
  | cons p a ih =>
    rw [give]
    split
    · rfl
    · exact congrArg (List.cons _) ih

theorem owned_give {a : Assignment α} {c : String} (h : c ∈ a.keys) (d : String) (x : α) :
    (a.give c x).owned d = a.owned d ++ if c = d then [x] else [] := by
  induction a with
  | nil => cases h
  | cons p a ih =>
    obtain ⟨c', xs⟩ := p
    rw [give]
    by_cases hc : c' = c
    · subst hc
      rw [if_pos rfl, owned_cons, owned_cons]
      by_cases hd : d = c'
      · rw [if_pos hd, if_pos hd, if_pos hd.symm]
      · rw [if_neg hd, if_neg hd, if_neg fun he => hd he.symm, List.append_nil]
    · rw [if_neg hc, owned_cons, owned_cons]
      by_cases hd : d = c'
      · rw [if_pos hd, if_pos hd, if_neg fun he => hc (he.trans hd).symm, List.append_nil]
      · rw [if_neg hd, if_neg hd]
        exact ih ((List.mem_cons.1 h).resolve_left fun he => hc he.symm)

theorem items_give_perm {a : Assignment α} {c : String} (h : c ∈ a.keys) (x : α) :
    (a.give c x).items.Perm (a.items ++ [x]) := by
  induction a with
  | nil => cases h
  | cons p a ih =>
    obtain ⟨c', xs⟩ := p
    rw [give]
    split
    · rw [items_cons, items_cons, List.append_assoc, List.append_assoc]
      exact List.perm_append_comm.append_left xs
    · rename_i hc
      rw [items_cons, items_cons, List.append_assoc]
      exact (ih ((List.mem_cons.1 h).resolve_left fun he => hc he.symm)).append_left xs

end Assignment

namespace Distribution
variable {α : Type}

/-! ## Ranks -/

theorem mem_ranked {ms : List String} {m : String} : m ∈ ranked ms ↔ m ∈ ms := by
  simp [ranked, Std.ExtTreeSet.mem_toList, Std.ExtTreeSet.mem_ofList]

theorem nodup_ranked (ms : List String) : (ranked ms).Nodup := by
  unfold ranked
  apply Std.ExtTreeSet.distinct_toList.imp
  rintro a _ h rfl
  exact h Std.ReflCmp.compare_self

/-- Members that are listed once each are only reordered. -/
theorem ranked_perm {ms : List String} (h : ms.Nodup) : (ranked ms).Perm ms :=
  (List.perm_ext_iff_of_nodup (nodup_ranked ms) h).2 fun _ => mem_ranked

/-- Ranks depend on who the members are, and not on how they are listed. -/
theorem ranked_congr {ms ms' : List String} (h : ∀ m, m ∈ ms ↔ m ∈ ms') :
    ranked ms = ranked ms' := by
  unfold ranked
  congr 1
  exact Std.ExtTreeSet.ext_mem fun m => by simp [h m]

theorem length_ranked_pos {ms : List String} (h : ms ≠ []) : 0 < (ranked ms).length := by
  obtain ⟨m, hm⟩ := List.exists_mem_of_ne_nil _ h
  exact List.length_pos_of_mem (mem_ranked.2 hm)

/-! ## By turns -/

/-- One item more goes to the member whose turn it is. -/
theorem deal_concat {ms : List String} {xs : List α} {m : String}
    (h : ms[xs.length % ms.length]? = some m) (x : α) :
    deal ms (xs ++ [x]) = (deal ms xs).give m x := by
  simp [deal, List.zipIdx_append, List.foldl_append, h]

theorem exists_turn {ms : List String} (h : 0 < ms.length) (i : Nat) :
    ∃ m ∈ ms, ms[i % ms.length]? = some m :=
  ⟨_, List.getElem_mem _, List.getElem?_eq_getElem (Nat.mod_lt i h)⟩

theorem keys_deal (ms : List String) (xs : List α) : (deal ms xs).keys = ms := by
  refine List.foldlRecOn (motive := fun rows => Assignment.keys rows = ms) _ _ ?_
    fun rows h ⟨x, i⟩ _ => ?_
  · simp [Assignment.keys, Function.comp_def]
  · dsimp only
    split
    · rw [Assignment.keys_give, h]
    · exact h

theorem items_deal_perm {ms : List String} (h : 0 < ms.length) (xs : List α) :
    (deal ms xs).items.Perm xs := by
  induction xs using List.reverseRecOn with
  | nil => simp [deal, Assignment.items, List.flatMap_map]
  | append_singleton xs x ih =>
    obtain ⟨m, hm, hturn⟩ := exists_turn h xs.length
    rw [deal_concat hturn]
    exact (Assignment.items_give_perm (by rwa [keys_deal]) x).trans (ih.append_right [x])

/-! ## How many items -/

/-- How many of `total` items the member of a rank among `count` members gets. -/
def share (total count rank : Nat) : Nat := total / count + if rank < total % count then 1 else 0

/-- How many of `total` items the members below a rank get, all together. -/
def below (total count rank : Nat) : Nat := rank * (total / count) + min rank (total % count)

theorem below_succ (total count rank : Nat) :
    below total count (rank + 1) = below total count rank + share total count rank := by
  unfold below share
  rw [Nat.succ_mul]
  split <;> omega

theorem below_count (total : Nat) {count : Nat} (h : 0 < count) :
    below total count count = total := by
  unfold below
  rw [Nat.min_eq_right (Nat.mod_lt total h).le, Nat.div_add_mod]

theorem below_mono (total count : Nat) {rank rank' : Nat} (h : rank ≤ rank') :
    below total count rank ≤ below total count rank' :=
  Nat.add_le_add (Nat.mul_le_mul_right _ h) (min_le_min_right _ h)

theorem below_le (total : Nat) {count rank : Nat} (h0 : 0 < count) (h : rank ≤ count) :
    below total count rank ≤ total :=
  (below_mono total count h).trans (below_count total h0).le

/-! ## By blocks -/

/-- The running start is what the ranks below get, at each rank. -/
theorem blocks_from (total count rank : Nat) (ms : List String) :
    blocks (total / count) (total % count) rank (below total count rank) ms =
      (ms.zipIdx rank).map fun (m, j) => (m, ⟨below total count j, below total count (j + 1)⟩) := by
  induction ms generalizing rank with
  | nil => rfl
  | cons m ms ih =>
    have hstop : below total count rank + (total / count + if rank < total % count then 1 else 0) =
        below total count (rank + 1) := (below_succ total count rank).symm
    rw [blocks, hstop, ih, List.zipIdx_cons, List.map_cons]

theorem cut_eq (ms : List String) (total : Nat) :
    cut ms total = ms.zipIdx.map fun (m, j) =>
      (m, ⟨below total ms.length j, below total ms.length (j + 1)⟩) := by
  have hstart : below total ms.length 0 = 0 := by simp [below]
  rw [cut, ← blocks_from, hstart]

theorem keys_cut (ms : List String) (total : Nat) : (cut ms total).map Prod.fst = ms := by
  rw [cut_eq, List.map_map]
  exact List.zipIdx_map_fst 0 ms

theorem Block.of_append {i j k : Nat} (hij : i ≤ j) (hjk : j ≤ k) (xs : List α) :
    Block.of ⟨i, j⟩ xs ++ Block.of ⟨j, k⟩ xs = Block.of ⟨i, k⟩ xs := by
  obtain ⟨m, rfl⟩ := Nat.exists_eq_add_of_le hij
  obtain ⟨n, rfl⟩ := Nat.exists_eq_add_of_le hjk
  simp only [Block.of, List.extract_eq_take_drop, Nat.add_sub_cancel_left]
  rw [Nat.add_assoc, Nat.add_sub_cancel_left, List.take_add, List.drop_drop]

/-- Blocks one after the other make up one block. -/
theorem items_blocks (total count rank : Nat) (ms : List String) (xs : List α) :
    ((ms.zipIdx rank).flatMap fun (_, j) =>
      Block.of ⟨below total count j, below total count (j + 1)⟩ xs) =
    Block.of ⟨below total count rank, below total count (rank + ms.length)⟩ xs := by
  induction ms generalizing rank with
  | nil => simp [Block.of, List.extract_eq_take_drop]
  | cons m ms ih =>
    have hend : rank + (m :: ms).length = rank + 1 + ms.length := by
      rw [List.length_cons]
      omega
    rw [List.zipIdx_cons, List.flatMap_cons, ih, hend]
    exact Block.of_append (below_mono _ _ (Nat.le_succ rank))
      (below_mono _ _ (Nat.le_add_right (rank + 1) ms.length)) xs

theorem items_cut {ms : List String} (h : 0 < ms.length) (xs : List α) :
    ((cut ms xs.length).flatMap fun (_, b) => b.of xs) = xs := by
  rw [cut_eq, List.flatMap_map]
  refine (items_blocks xs.length ms.length 0 ms xs).trans ?_
  rw [Nat.zero_add, below_count _ h]
  simp [Block.of, below]

/-! ## Either way -/

theorem keys_assign (d : Distribution) (ms : List String) (xs : List α) :
    (d.assign ms xs).keys = ranked ms := by
  cases d with
  | roundRobin => exact keys_deal _ xs
  | range => exact (List.map_map ..).trans (keys_cut _ _)

theorem assign_congr (d : Distribution) {ms ms' : List String} (h : ∀ m, m ∈ ms ↔ m ∈ ms')
    (xs : List α) : d.assign ms xs = d.assign ms' xs := by
  unfold assign
  rw [ranked_congr h]

/-- Nothing is dropped and nothing is dealt twice. -/
theorem items_assign_perm (d : Distribution) {ms : List String} (h : ms ≠ []) (xs : List α) :
    (d.assign ms xs).items.Perm xs := by
  have hpos := length_ranked_pos h
  cases d with
  | roundRobin => exact items_deal_perm hpos xs
  | range => exact List.Perm.of_eq ((List.flatMap_map ..).trans (items_cut hpos xs))

end Distribution
end LogBroker
