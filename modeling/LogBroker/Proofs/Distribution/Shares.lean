import Mathlib
import LogBroker.Proofs.Distribution
import LogBroker.Proofs.Utf8

/-!
# Who gets which items

Members are ranked by the bytes of their names (`pairwise_ranked`). How many items the member of a
rank gets depends on its rank, on how many members there are and on how many items
(`Distribution.share`): the quotient, and one more in the lowest ranks, as many as the remainder
says.

* By turns, the member of rank `j` among `M` gets the items at the positions `j`, `j + M`,
  `j + 2 * M` and so on (`getElem?_owned_deal`). The induction is on the items, from the end: one
  item more goes to the end of one row (`owned_deal_concat`), the row of the rank whose share grows
  by one (`share_succ`).
* By blocks, it gets the items from `Distribution.below` its rank on and below that of the next
  rank (`owned_of_rank`), which are as many as its share.
-/
namespace LogBroker.Distribution
variable {α : Type}

theorem pairwise_ranked (members : List String) :
    (ranked members).Pairwise fun x y => Text.Utf8.encode x < Text.Utf8.encode y := by
  unfold ranked
  exact Std.ExtTreeSet.ordered_toList.imp fun h => Text.Utf8.encode_lt (compare_lt_iff_lt.1 h)

theorem ranked_nil : ranked [] = [] := by
  rw [List.eq_nil_iff_forall_not_mem]
  intro m hm
  cases mem_ranked.1 hm

theorem assign_nil (d : Distribution) (items : List α) : d.assign [] items = [] := by
  have hkeys := keys_assign d [] items
  rw [ranked_nil] at hkeys
  exact List.map_eq_nil_iff.1 hkeys

/-! ## Shares -/

theorem share_le_succ (total count rank rank' : Nat) :
    share total count rank ≤ share total count rank' + 1 := by
  unfold share
  split <;> omega

/-- One item more is one more for the rank whose turn it is. -/
theorem share_succ (total : Nat) {count rank : Nat} (h : rank < count) :
    share (total + 1) count rank =
      share total count rank + if total % count = rank then 1 else 0 := by
  have hlt := Nat.mod_lt total (Nat.zero_lt_of_lt h)
  have hsplit := Nat.div_add_mod total count
  unfold share
  generalize total / count = q at *
  generalize total % count = r at *
  subst hsplit
  by_cases hr : r + 1 < count
  · rw [Nat.add_assoc, Nat.mul_add_div (by omega), Nat.mul_add_mod, Nat.div_eq_of_lt hr,
      Nat.mod_eq_of_lt hr]
    split_ifs <;> omega
  · -- the turn of the highest rank comes last, and the quotient grows
    have hwhole : count * q + r + 1 = count * (q + 1) := by rw [Nat.mul_succ]; omega
    rw [hwhole, Nat.mul_div_cancel_left _ (by omega), Nat.mul_mod_right]
    split_ifs <;> omega

/-- The rank whose turn it is has as many items as there were rounds. -/
theorem share_of_turn {total count rank : Nat} (h : total % count = rank) :
    rank + share total count rank * count = total := by
  have hsplit := Nat.div_add_mod' total count
  unfold share
  rw [h, if_neg (Nat.lt_irrefl _), Nat.add_zero]
  omega

/-! ## By turns -/

/-- A position tells whose turn it is and in which round. -/
theorem existsUnique_turn {count : Nat} (h : 0 < count) (i : Nat) :
    ∃! turn : Nat × Nat, turn.1 < count ∧ turn.1 + turn.2 * count = i := by
  refine ⟨(i % count, i / count), ⟨Nat.mod_lt i h, Nat.mod_add_div' i count⟩, ?_⟩
  rintro ⟨rank, round⟩ ⟨hlt, rfl⟩
  simp only at hlt ⊢
  rw [Nat.add_mul_mod_self_right, Nat.mod_eq_of_lt hlt, Nat.add_mul_div_right _ _ h,
    Nat.div_eq_of_lt hlt, Nat.zero_add]

theorem owned_deal_nil (members : List String) (m : String) :
    (deal members ([] : List α)).owned m = [] := by
  refine List.eq_nil_iff_forall_not_mem.2 fun x hx => ?_
  have hitems := Assignment.mem_items_of_owned hx
  simp [deal, Assignment.items] at hitems

theorem owned_deal_concat {members : List String} (hn : members.Nodup) {rank : Nat} {m : String}
    (h : members[rank]? = some m) (items : List α) (x : α) :
    (deal members (items ++ [x])).owned m = (deal members items).owned m ++
      if items.length % members.length = rank then [x] else [] := by
  obtain ⟨hlt, hm⟩ := List.getElem?_eq_some_iff.1 h
  obtain ⟨m', hm', hturn⟩ := exists_turn (Nat.zero_lt_of_lt hlt) items.length
  obtain ⟨hlt', hturn'⟩ := List.getElem?_eq_some_iff.1 hturn
  have hsame : m' = m ↔ items.length % members.length = rank := by
    rw [← hturn', ← hm, hn.getElem_inj_iff]
  rw [deal_concat hturn, Assignment.owned_give (by rwa [keys_deal])]
  simp only [hsame]

theorem length_owned_deal {members : List String} (hn : members.Nodup) {rank : Nat} {m : String}
    (h : members[rank]? = some m) (items : List α) :
    ((deal members items).owned m).length = share items.length members.length rank := by
  obtain ⟨hlt, -⟩ := List.getElem?_eq_some_iff.1 h
  induction items using List.reverseRecOn with
  | nil => simp [owned_deal_nil, share]
  | append_singleton items x ih =>
    rw [owned_deal_concat hn h, List.length_append, ih, List.length_append, List.length_singleton,
      share_succ _ hlt]
    split <;> rfl

/-- The row of a rank holds every item that is a number of rounds beyond its own position. -/
theorem getElem?_owned_deal {members : List String} (hn : members.Nodup) {rank : Nat} {m : String}
    (h : members[rank]? = some m) (items : List α) (k : Nat) :
    ((deal members items).owned m)[k]? = items[rank + k * members.length]? := by
  obtain ⟨hrank, -⟩ := List.getElem?_eq_some_iff.1 h
  induction items using List.reverseRecOn with
  | nil => simp [owned_deal_nil]
  | append_singleton items x ih =>
    rw [owned_deal_concat hn h]
    have hlen := length_owned_deal hn h items
    by_cases hturn : items.length % members.length = rank
    · have hlast := share_of_turn hturn
      rw [if_pos hturn]
      rcases Nat.lt_trichotomy k (share items.length members.length rank) with hk | hk | hk
      · have hin : rank + k * members.length < items.length := by
          have := Nat.mul_lt_mul_of_pos_right hk (Nat.zero_lt_of_lt hrank)
          omega
        rw [List.getElem?_append_left (by omega), List.getElem?_append_left hin, ih]
      · subst hk
        rw [hlast, ← hlen, List.getElem?_concat_length, List.getElem?_concat_length]
      · have hout : items.length < rank + k * members.length := by
          have := Nat.mul_lt_mul_of_pos_right hk (Nat.zero_lt_of_lt hrank)
          omega
        rw [List.getElem?_eq_none (by simp; omega), List.getElem?_eq_none (by simp; omega)]
    · -- the item is in another row, and so is its position
      rw [if_neg hturn, List.append_nil, ih]
      have hne : rank + k * members.length ≠ items.length := by
        intro he
        rw [← he, Nat.add_mul_mod_self_right, Nat.mod_eq_of_lt hrank] at hturn
        exact hturn rfl
      rcases Nat.lt_or_gt_of_ne hne with hlt | hgt
      · rw [List.getElem?_append_left hlt]
      · rw [List.getElem?_eq_none hgt.le, List.getElem?_eq_none (by simp; omega)]

/-! ## By blocks -/

theorem owned_of_rank {members : List String} {rank : Nat} {m : String}
    (h : (ranked members)[rank]? = some m) (items : List α) :
    (range.assign members items).owned m =
      Block.of ⟨below items.length (ranked members).length rank,
        below items.length (ranked members).length (rank + 1)⟩ items := by
  refine Assignment.owned_of_mem (by rw [keys_assign]; exact nodup_ranked members) ?_
  refine List.mem_map.2 ⟨(m, _), ?_, rfl⟩
  rw [cut_eq]
  exact List.mem_map.2 ⟨(m, rank), List.mem_zipIdx_iff_getElem?.2 h, rfl⟩

theorem Block.length_of {block : Block} {items : List α} (h : block.stop ≤ items.length) :
    (block.of items).length = block.stop - block.start := by
  rw [Block.of, List.extract_eq_take_drop, List.length_take, List.length_drop]
  omega

/-! ## Either way -/

/-- Either way the member of a rank gets its share. -/
theorem length_owned (d : Distribution) {members : List String} {rank : Nat} {m : String}
    (h : (ranked members)[rank]? = some m) (items : List α) :
    ((d.assign members items).owned m).length =
      share items.length (ranked members).length rank := by
  cases d with
  | roundRobin => exact length_owned_deal (nodup_ranked members) h items
  | range =>
    obtain ⟨hlt, -⟩ := List.getElem?_eq_some_iff.1 h
    rw [owned_of_rank h, Block.length_of (below_le _ (Nat.zero_lt_of_lt hlt) hlt), below_succ,
      Nat.add_sub_cancel_left]

/-- **By turns.** Each member has one row, in the order of the bytes of the names. With `M` members,
the row of rank `j` holds the items at the positions `j`, `j + M`, `j + 2 * M` and so on to the end.
So each position has one place in one row, and no member has two items more than another. -/
theorem dealt_by_turns (members : List String) (items : List α) :
    let ranks := ranked members
    let a := roundRobin.assign members items
    (∀ m, m ∈ ranks ↔ m ∈ members) ∧
    ranks.Pairwise (fun x y => Text.Utf8.encode x < Text.Utf8.encode y) ∧
    a.keys = ranks ∧
    (∀ (j : Nat) (m : String), ranks[j]? = some m →
      ∀ k, (a.owned m)[k]? = items[j + k * ranks.length]?) ∧
    (members ≠ [] → a.items.Perm items ∧
      ∀ i < items.length, ∃! place : Nat × Nat, ∃ m, ranks[place.1]? = some m ∧
        place.2 < (a.owned m).length ∧ place.1 + place.2 * ranks.length = i) ∧
    (∀ m ∈ members, ∀ m' ∈ members, (a.owned m).length ≤ (a.owned m').length + 1) ∧
    (members = [] → a = []) := by
  intro ranks a
  have hplace (j : Nat) (m : String) (hj : ranks[j]? = some m) (k : Nat) :
      (a.owned m)[k]? = items[j + k * ranks.length]? :=
    getElem?_owned_deal (nodup_ranked members) hj items k
  refine ⟨fun m => mem_ranked, pairwise_ranked members, keys_assign roundRobin members items,
    hplace, fun hne => ⟨items_assign_perm roundRobin hne items, fun i hi => ?_⟩, ?_, ?_⟩
  · obtain ⟨place, ⟨hlt, hi'⟩, honly⟩ := existsUnique_turn (length_ranked_pos hne) i
    have hm : ranks[place.1]? = some ranks[place.1] := List.getElem?_eq_getElem hlt
    have hitem := hplace _ _ hm place.2
    rw [hi', List.getElem?_eq_getElem hi] at hitem
    refine ⟨place, ⟨_, hm, (List.getElem?_eq_some_iff.1 hitem).1, hi'⟩, ?_⟩
    rintro place' ⟨m, hj, -, he⟩
    exact honly place' ⟨(List.getElem?_eq_some_iff.1 hj).1, he⟩
  · intro m hm m' hm'
    obtain ⟨j, hlt, rfl⟩ := List.mem_iff_getElem.1 (mem_ranked.2 hm)
    obtain ⟨j', hlt', rfl⟩ := List.mem_iff_getElem.1 (mem_ranked.2 hm')
    rw [length_owned roundRobin (List.getElem?_eq_getElem hlt),
      length_owned roundRobin (List.getElem?_eq_getElem hlt')]
    exact share_le_succ _ _ _ _
  · rintro rfl
    exact assign_nil roundRobin items

/-- A member is listed twice, and so is an item. -/
theorem dealt_by_turns_repeated :
    ["b", "a", "b"] ≠ [] ∧ (ranked ["b", "a", "b"])[1]? = some "b" ∧
    ((roundRobin.assign ["b", "a", "b"] [7, 8, 8, 9, 7]).owned "b")[1]? = some 9 ∧
    (roundRobin.assign ["b", "a", "b"] [7, 8, 8, 9, 7]).items.Perm [7, 8, 8, 9, 7] := by
  have hrank : (ranked ["b", "a", "b"])[1]? = some "b" := by decide
  obtain ⟨-, -, -, hplace, hall, -⟩ := dealt_by_turns ["b", "a", "b"] [7, 8, 8, 9, 7]
  refine ⟨by decide, hrank, ?_, (hall (by decide)).1⟩
  exact hplace 1 "b" hrank 1

/-- **By blocks.** Each member has one row, in the order of the bytes of the names. A row holds the
items of the member's block, and no block reaches beyond the items. The rows together are the items,
from the first to the last. With `M` members and `P` items, the row of rank `j` has `P / M` items,
and one more if `j < P % M`. -/
theorem dealt_in_blocks (members : List String) (items : List α) :
    let ranks := ranked members
    let a := range.assign members items
    (∀ m, m ∈ ranks ↔ m ∈ members) ∧
    ranks.Pairwise (fun x y => Text.Utf8.encode x < Text.Utf8.encode y) ∧
    a.keys = ranks ∧
    (∀ m block, (m, block) ∈ cut ranks items.length →
      block.start ≤ block.stop ∧ block.stop ≤ items.length ∧ a.owned m = block.of items) ∧
    (members ≠ [] → ranks.flatMap a.owned = items) ∧
    (∀ (j : Nat) (m : String), ranks[j]? = some m → (a.owned m).length =
      items.length / ranks.length + if j < items.length % ranks.length then 1 else 0) ∧
    (members = [] → a = []) := by
  intro ranks a
  have hkeys : a.keys = ranks := keys_assign range members items
  refine ⟨fun m => mem_ranked, pairwise_ranked members, hkeys, ?_, ?_,
    fun j m hj => length_owned range hj items, ?_⟩
  · intro m block hblock
    rw [cut_eq, List.mem_map] at hblock
    obtain ⟨⟨m', j⟩, hj, he⟩ := hblock
    obtain ⟨rfl, rfl⟩ := Prod.mk.inj he
    have hrank : ranks[j]? = some m' := List.mem_zipIdx_iff_getElem?.1 hj
    obtain ⟨hlt, -⟩ := List.getElem?_eq_some_iff.1 hrank
    exact ⟨below_mono _ _ (Nat.le_succ j), below_le _ (Nat.zero_lt_of_lt hlt) hlt,
      owned_of_rank hrank items⟩
  · intro hne
    have hn : a.keys.Nodup := hkeys ▸ nodup_ranked members
    rw [← hkeys, Assignment.flatMap_owned hn]
    exact (List.flatMap_map ..).trans (items_cut (length_ranked_pos hne) items)
  · rintro rfl
    exact assign_nil range items

/-- Two members share five items, and the first of them gets one more. -/
theorem dealt_in_blocks_uneven :
    ["b", "a", "b"] ≠ [] ∧ ("b", ⟨3, 5⟩) ∈ cut (ranked ["b", "a", "b"]) 5 ∧
    (ranked ["b", "a", "b"])[1]? = some "b" ∧
    (range.assign ["b", "a", "b"] [7, 8, 8, 9, 7]).owned "b" = [9, 7] ∧
    (ranked ["b", "a", "b"]).flatMap (range.assign ["b", "a", "b"] [7, 8, 8, 9, 7]).owned =
      [7, 8, 8, 9, 7] ∧
    ((range.assign ["b", "a", "b"] [7, 8, 8, 9, 7]).owned "b").length = 2 := by
  have hrank : (ranked ["b", "a", "b"])[1]? = some "b" := by decide
  have hblock : ("b", ⟨3, 5⟩) ∈ cut (ranked ["b", "a", "b"]) 5 := by decide
  obtain ⟨-, -, -, hblocks, hall, hlen, -⟩ := dealt_in_blocks ["b", "a", "b"] [7, 8, 8, 9, 7]
  exact ⟨by decide, hblock, hrank, (hblocks "b" _ hblock).2.2, hall (by decide), hlen 1 "b" hrank⟩

end LogBroker.Distribution
