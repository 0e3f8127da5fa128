import Kiwi.Lib.SortedMap
import Mathlib.Data.Prod.Lex

/-!
# Maps with an index by value

A finite map together with a second table that lists its rows by value: the way an ordered store
keeps a collection that is looked up by key and iterated by value. The value of an `IndexedMap` is
the pair of tables *and* the proof that they say the same (`IndexedMap.coherent`), so an operation
on indexed maps cannot leave one table behind.

The operations are those a store can carry out with point writes: `insert` drops the index row of
the value that was stored before it adds the new one, and `erase` drops both rows.
`size_index_eq` says that the index has one row for each row of the map.
-/

/-- A finite map from `K` to `S`, with an index of its rows by value. -/
structure IndexedMap (K S : Type*) [LinearOrder K] [LinearOrder S] where
  values : SortedMap K S
  /-- The rows by value, and by key where values agree. -/
  index : SortedMap (S ×ₗ K) Unit
  /-- Both tables hold the same rows. -/
  coherent : ∀ {k s}, values.get k = some s ↔ index.get (toLex (s, k)) = some ()

namespace IndexedMap

variable {K S : Type*} [LinearOrder K] [LinearOrder S]

/-- The map without rows. -/
def empty : IndexedMap K S := ⟨.empty, .empty, by simp⟩

/-- The number of rows. -/
def size (t : IndexedMap K S) : ℕ := t.values.size

/-- The index without the row of a key. -/
def dropIndex (t : IndexedMap K S) (k : K) : SortedMap (S ×ₗ K) Unit :=
  match t.values.get k with
  | some old => t.index.erase (toLex (old, k))
  | none => t.index

variable (t : IndexedMap K S)

theorem get_dropIndex (k k' : K) (s : S) :
    (t.dropIndex k).get (toLex (s, k')) = if k' = k then none else t.index.get (toLex (s, k')) := by
  unfold dropIndex
  split_ifs with h
  · subst h
    -- the only row with this key is the one that is dropped
    refine Option.eq_none_iff_forall_ne_some.2 fun u hu ↦ ?_
    rcases hget : t.values.get k' with _ | old
    · rw [hget] at hu
      have := t.coherent.2 hu
      rw [hget] at this
      cases this
    · rw [hget] at hu
      dsimp only at hu
      rw [SortedMap.get_erase] at hu
      split_ifs at hu with hk
      have := t.coherent.2 hu
      rw [hget, Option.some.injEq] at this
      exact hk (this ▸ rfl)
  · rcases t.values.get k with _ | old
    · rfl
    · refine SortedMap.get_erase_of_ne _ fun he ↦ h ?_
      exact congrArg (fun x ↦ (ofLex x).2) he

/-- Put a row, in place of the row of the same key. -/
def insert (t : IndexedMap K S) (k : K) (s : S) : IndexedMap K S where
  values := t.values.insert k s
  index := (t.dropIndex k).insert (toLex (s, k)) ()
  coherent {k' s'} := by
    rw [SortedMap.get_insert, SortedMap.get_insert, get_dropIndex]
    by_cases hk : k' = k
    · subst hk
      by_cases hs : s' = s
      · simp [hs]
      · simp [hs, Ne.symm hs]
    · have hne : toLex (s', k') ≠ toLex (s, k) := fun he ↦
        hk (congrArg (fun x ↦ (ofLex x).2) he)
      rw [if_neg hk, if_neg hne, if_neg hk]
      exact t.coherent

/-- Delete the row of a key. -/
def erase (t : IndexedMap K S) (k : K) : IndexedMap K S where
  values := t.values.erase k
  index := t.dropIndex k
  coherent {k' s'} := by
    rw [SortedMap.get_erase, get_dropIndex]
    split_ifs
    · simp
    · exact t.coherent

theorem size_insert (k : K) (s : S) :
    (t.insert k s).size = if (t.values.get k).isSome then t.size else t.size + 1 :=
  SortedMap.size_insert _ _ _

/-- Delete the rows of several keys. -/
def eraseAll (t : IndexedMap K S) (ks : List K) : IndexedMap K S := ks.foldl erase t

theorem values_eraseAll (ks : List K) : (t.eraseAll ks).values = t.values.eraseAll ks := by
  induction ks generalizing t with
  | nil => rfl
  | cons k ks ih => exact ih (t.erase k)

theorem keys_index_perm : (t.index.keys.map fun x ↦ (ofLex x).2).Perm t.values.keys := by
  have hget : ∀ {x}, x ∈ t.index.keys ↔ t.values.get (ofLex x).2 = some (ofLex x).1 := by
    intro x
    rw [SortedMap.mem_keys_iff, t.coherent, Option.isSome_iff_exists]
    exact ⟨fun ⟨_, h⟩ ↦ h, fun h ↦ ⟨(), h⟩⟩
  have hnodup : (t.index.keys.map fun x ↦ (ofLex x).2).Nodup := by
    refine List.Nodup.map_on (fun x hx y hy hxy ↦ ?_) t.index.nodup_keys
    have hfst : (ofLex x).1 = (ofLex y).1 :=
      Option.some.inj ((hget.1 hx).symm.trans (hxy ▸ hget.1 hy))
    exact ofLex_inj.1 (Prod.ext hfst hxy)
  refine (List.perm_ext_iff_of_nodup hnodup t.values.nodup_keys).2 fun k ↦ ?_
  rw [List.mem_map, SortedMap.mem_keys_iff]
  constructor
  · rintro ⟨x, hx, rfl⟩
    rw [hget.1 hx]
    rfl
  · intro hk
    obtain ⟨s, hs⟩ := Option.isSome_iff_exists.1 hk
    exact ⟨toLex (s, k), hget.2 hs, rfl⟩

theorem size_index_eq : t.index.size = t.size := by
  have h := t.keys_index_perm.length_eq
  rwa [List.length_map, SortedMap.keys, SortedMap.keys, List.length_map, List.length_map] at h

end IndexedMap
