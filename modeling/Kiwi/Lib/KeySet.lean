import Kiwi.Lib.SortedMap
import Mathlib.Data.Finset.Sort

/-!
# The keys of a sorted map as a finite set

`SortedMap.keySet` forgets the values of a map and the order of its rows. Updates of the map are
operations of finite sets on its keys, the size is the number of keys, and the iteration order of
the map is the sorted listing of the set (`sort_keySet`).
-/

namespace SortedMap

variable {K V : Type*} [LinearOrder K]

/-- The keys, as a finite set. -/
def keySet (m : SortedMap K V) : Finset K := m.keys.toFinset

@[simp] theorem mem_keySet {m : SortedMap K V} {k : K} : k ∈ m.keySet ↔ (m.get k).isSome := by
  rw [keySet, List.mem_toFinset, mem_keys_iff]

@[simp] theorem keySet_empty : (empty : SortedMap K V).keySet = ∅ := rfl

theorem card_keySet (m : SortedMap K V) : m.keySet.card = m.size := by
  rw [keySet, List.toFinset_card_of_nodup m.nodup_keys, keys, List.length_map, size]

theorem sort_keySet (m : SortedMap K V) : m.keySet.sort (· ≤ ·) = m.keys :=
  (List.toFinset_sort (· ≤ ·) m.nodup_keys).2 (m.sorted_keys.imp le_of_lt)

section Updates

/-! The finite-set operations below may use any decision procedure for equality of keys, not only
the one of the order. -/

variable [DecidableEq K]

section

variable (m : SortedMap K V)

include m

theorem keySet_insert (k : K) (v : V) : (m.insert k v).keySet = Insert.insert k m.keySet := by
  ext j
  rw [mem_keySet, get_insert, Finset.mem_insert, mem_keySet]
  split_ifs with h <;> simp [h]

theorem keySet_erase (k : K) : (m.erase k).keySet = m.keySet.erase k := by
  ext j
  rw [mem_keySet, get_erase, Finset.mem_erase, mem_keySet]
  split_ifs with h <;> simp [h]

theorem keySet_insertAll (rows : List (K × V)) :
    (m.insertAll rows).keySet = m.keySet ∪ (rows.map Prod.fst).toFinset := by
  induction rows generalizing m with
  | nil => exact (Finset.union_empty _).symm
  | cons r rows ih =>
    show ((m.insert r.1 r.2).insertAll rows).keySet = _
    rw [ih, keySet_insert, List.map_cons, List.toFinset_cons, Finset.insert_union,
      Finset.union_insert]

variable (ks : List K)

theorem keySet_eraseAll : (m.eraseAll ks).keySet = m.keySet \ ks.toFinset := by
  ext j
  rw [mem_keySet, get_eraseAll, Finset.mem_sdiff, mem_keySet, List.mem_toFinset]
  split_ifs with h <;> simp [h]

theorem keys_eraseAll : (m.eraseAll ks).keys = m.keys.filter fun k ↦ k ∉ ks := by
  have hsorted : (m.keys.filter fun k ↦ k ∉ ks).Pairwise (· < ·) := m.sorted_keys.filter _
  refine List.Perm.eq_of_pairwise' ((m.eraseAll ks).sorted_keys) hsorted ?_
  refine (List.perm_ext_iff_of_nodup (m.eraseAll ks).nodup_keys (m.nodup_keys.filter _)).2 ?_
  intro k
  rw [mem_keys_iff, get_eraseAll, List.mem_filter, mem_keys_iff]
  split_ifs with hk <;> simp [hk]

theorem size_eraseAll_filter :
    (m.eraseAll (ks.filter fun k ↦ (m.get k).isSome)).size +
      (ks.filter fun k ↦ (m.get k).isSome).dedup.length = m.size := by
  have hsame : m.eraseAll (ks.filter fun k ↦ (m.get k).isSome) =
      m.eraseAll (ks.filter fun k ↦ (m.get k).isSome).dedup :=
    ext_get fun k ↦ by
      rw [get_eraseAll, get_eraseAll]
      simp only [List.mem_dedup]
      split_ifs <;> rfl
  rw [hsame]
  refine size_eraseAll (List.nodup_dedup _) fun k hk ↦ ?_
  exact (List.mem_filter.1 (List.mem_dedup.1 hk)).2

end

end Updates

end SortedMap
