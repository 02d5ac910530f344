import Mathlib

/-!
# Keys and values of a tree map

The standard library describes a tree map by its entries in the order of their keys. Here it is said
what this makes of the list of keys and the list of values, and when maps are equal after an
insertion (`insert_of_getElem?`, `insert_insert`).
-/
namespace LogBroker.TreeMap
open Std

variable {α β : Type} {cmp : α → α → Ordering} [TransCmp cmp]

theorem values_eq (t : ExtTreeMap α β cmp) : t.values = t.toList.map Prod.snd := by
  obtain ⟨⟨t⟩⟩ := t
  induction t using Quotient.ind with
  | _ t =>
    change t.inner.values = (DTreeMap.Internal.Impl.Const.toList t.inner).map Prod.snd
    rw [DTreeMap.Internal.Impl.values_eq_map_snd,
      DTreeMap.Internal.Impl.Const.toList_eq_toListModel_map, List.map_map]
    rfl

theorem length_values (t : ExtTreeMap α β cmp) : t.values.length = t.size := by
  rw [values_eq, List.length_map, ExtTreeMap.length_toList]

variable [LawfulEqCmp cmp]

theorem nodup_keys (t : ExtTreeMap α β cmp) : t.keys.Nodup := by
  simpa [List.Nodup] using t.distinct_keys

theorem mem_values {t : ExtTreeMap α β cmp} {v : β} : v ∈ t.values ↔ ∃ k : α, t[k]? = some v := by
  rw [values_eq, List.mem_map]
  constructor
  · rintro ⟨⟨k, v⟩, h, rfl⟩
    exact ⟨k, ExtTreeMap.mem_toList_iff_getElem?_eq_some.1 h⟩
  · rintro ⟨k, h⟩
    exact ⟨(k, v), ExtTreeMap.mem_toList_iff_getElem?_eq_some.2 h, rfl⟩

/-- To ask for something of every key is to ask it of every value, where the values tell it. -/
theorem map_keys {γ : Type} (t : ExtTreeMap α β cmp) {f : α → γ} {g : β → γ}
    (h : ∀ (k : α) (v : β), t[k]? = some v → f k = g v) : t.keys.map f = t.values.map g := by
  rw [values_eq, ← ExtTreeMap.map_fst_toList_eq_keys, List.map_map, List.map_map]
  apply List.map_congr_left
  rintro ⟨k, v⟩ hmem
  exact h k v (ExtTreeMap.mem_toList_iff_getElem?_eq_some.1 hmem)

theorem insert_of_getElem? {t : ExtTreeMap α β cmp} {k : α} {v : β} (h : t[k]? = some v) :
    t.insert k v = t := by
  apply ExtTreeMap.ext_getElem?
  intro k'
  rw [ExtTreeMap.getElem?_insert]
  split
  · rename_i he
    rw [← LawfulEqCmp.eq_of_compare he, h]
  · rfl

theorem insert_insert (t : ExtTreeMap α β cmp) (k : α) (v w : β) :
    (t.insert k v).insert k w = t.insert k w := by
  apply ExtTreeMap.ext_getElem?
  intro k'
  simp only [ExtTreeMap.getElem?_insert]
  split <;> rfl

/-- To set a value that is there is to insert it. -/
theorem modify_of_mem {t : ExtTreeMap α β cmp} {k : α} (h : k ∈ t) (v : β) :
    (t.modify k fun _ => v) = t.insert k v := by
  obtain ⟨w, hw⟩ := Option.isSome_iff_exists.1 (ExtTreeMap.mem_iff_isSome_getElem?.1 h)
  apply ExtTreeMap.ext_getElem?
  intro k'
  rw [ExtTreeMap.getElem?_modify, ExtTreeMap.getElem?_insert, hw]
  rfl

end LogBroker.TreeMap
