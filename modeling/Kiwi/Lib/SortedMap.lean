import Mathlib.Order.Lattice
import Mathlib.Data.List.Pairwise
import Mathlib.Data.List.TakeWhile
import Mathlib.Data.List.Nodup
import Mathlib.Data.Option.Basic
import Mathlib.Tactic.Common

/-!
# Sorted maps

Finite maps kept as a strictly sorted list of rows: the contents of an ordered key-value store as
an iterator sees them. The order is part of the value (`SortedMap.sorted`), so two maps with the
same lookups are equal (`SortedMap.ext_get`), and an iterator is a list operation on `rows`.

Nothing here depends on what the keys are. The three groups of results are

* point operations — `get` after `insert`, `erase` and a list of writes (`get_apply`);
* sizes — `size_insert` and `size_erase`, and for several rows `size_insertAll` and
  `size_eraseAll`;
* slices — `slice f` is the part of the map whose keys are `f d` for some `d`, read as a map in
  `d`, and `takeWhile_dropWhile_eq_filter` is why an iterator that seeks to a contiguous block
  and stops at its end visits exactly that block.
-/

/-- A finite map from `K` to `V`, as its rows in strictly increasing order of keys. -/
structure SortedMap (K V : Type*) [LT K] where
  /-- The rows, in iteration order. -/
  rows : List (K × V)
  /-- Keys strictly increase along the rows. -/
  sorted : rows.Pairwise fun a b ↦ a.1 < b.1

namespace SortedMap

variable {K V W D : Type*} [LinearOrder K]

/-- The map without rows. -/
def empty : SortedMap K V := ⟨[], List.Pairwise.nil⟩

instance : Inhabited (SortedMap K V) := ⟨empty⟩

/-- The value stored at a key. -/
def get (m : SortedMap K V) (k : K) : Option V := m.rows.lookup k

/-- The number of rows. -/
def size (m : SortedMap K V) : ℕ := m.rows.length

/-- The keys, in increasing order. -/
def keys (m : SortedMap K V) : List K := m.rows.map Prod.fst

@[simp] theorem get_empty (k : K) : (empty : SortedMap K V).get k = none := rfl

@[simp] theorem size_empty : (empty : SortedMap K V).size = 0 := rfl

/-! ### Rows and lookups -/

variable {k : K} {v : V} {l : List (K × V)}

theorem lookup_eq_some_iff (h : l.Pairwise fun a b ↦ a.1 < b.1) :
    l.lookup k = some v ↔ (k, v) ∈ l := by
  induction l with
  | nil => simp
  | cons a l ih =>
    obtain ⟨a, w⟩ := a
    rw [List.pairwise_cons] at h
    rcases eq_or_ne k a with rfl | hk
    · rw [List.lookup_cons_self, List.mem_cons, Prod.mk.injEq, Option.some.injEq]
      constructor
      · exact fun e ↦ Or.inl ⟨rfl, e.symm⟩
      · rintro (⟨-, e⟩ | hmem)
        · exact e.symm
        · exact absurd (h.1 _ hmem) (lt_irrefl _)
    · rw [List.lookup_cons, beq_false_of_ne hk, List.mem_cons, Prod.mk.injEq, ih h.2]
      simp [hk]

variable {m : SortedMap K V}

theorem get_eq_some_iff : m.get k = some v ↔ (k, v) ∈ m.rows :=
  lookup_eq_some_iff m.sorted

theorem get_eq_none_iff : m.get k = none ↔ k ∉ m.keys := by
  rw [← not_iff_not, ← ne_eq, Option.ne_none_iff_exists', not_not]
  simp [get_eq_some_iff, keys]

theorem mem_keys_iff : k ∈ m.keys ↔ (m.get k).isSome := by
  rw [← not_iff_not, ← get_eq_none_iff, Bool.not_eq_true, Option.isSome_eq_false_iff,
    Option.isNone_iff_eq_none]

theorem sorted_keys (m : SortedMap K V) : m.keys.Pairwise (· < ·) :=
  List.pairwise_map.2 m.sorted

theorem nodup_keys (m : SortedMap K V) : m.keys.Nodup :=
  m.sorted_keys.imp ne_of_lt

theorem rows_eq_of_mem_iff {l l' : List (K × V)} (h : l.Pairwise fun a b ↦ a.1 < b.1)
    (h' : l'.Pairwise fun a b ↦ a.1 < b.1) (hmem : ∀ r, r ∈ l ↔ r ∈ l') : l = l' := by
  have nodup : ∀ {l : List (K × V)}, l.Pairwise (fun a b ↦ a.1 < b.1) → l.Nodup := fun h ↦
    h.imp fun hlt e ↦ absurd (e ▸ hlt) (lt_irrefl _)
  refine ((List.perm_ext_iff_of_nodup (nodup h) (nodup h')).2 hmem).eq_of_pairwise ?_ h h'
  exact fun a b _ _ hab hba ↦ absurd (hab.trans hba) (lt_irrefl _)

/-- **Extensionality.** A map is determined by its lookups. -/
theorem ext_get {m m' : SortedMap K V} (h : ∀ k, m.get k = m'.get k) : m = m' := by
  obtain ⟨l, hl⟩ := m
  obtain ⟨l', hl'⟩ := m'
  congr 1
  refine rows_eq_of_mem_iff hl hl' fun ⟨k, v⟩ ↦ ?_
  rw [← lookup_eq_some_iff hl, ← lookup_eq_some_iff hl']
  exact iff_of_eq (congrArg (· = some v) (h k))

/-- The same keys with other values. -/
def mapValues (f : V → W) (m : SortedMap K V) : SortedMap K W where
  rows := m.rows.map fun r ↦ (r.1, f r.2)
  sorted := List.pairwise_map.2 m.sorted

theorem get_mapValues (f : V → W) (m : SortedMap K V) :
    (m.mapValues f).get k = (m.get k).map f := by
  show (m.rows.map fun r ↦ (r.1, f r.2)).lookup k = (m.rows.lookup k).map f
  induction m.rows with
  | nil => rfl
  | cons r l ih =>
    rw [List.map_cons, List.lookup_cons, List.lookup_cons, ih]
    cases k == r.1 <;> rfl

theorem size_eq_zero_iff : m.size = 0 ↔ ∀ k, m.get k = none := by
  rw [size, List.length_eq_zero_iff, List.eq_nil_iff_forall_not_mem]
  constructor
  · exact fun h k ↦ get_eq_none_iff.2 fun hk ↦ by
      obtain ⟨r, hr, -⟩ := List.mem_map.1 hk
      exact h r hr
  · exact fun h r hr ↦ by simpa [h r.1] using get_eq_some_iff.2 hr

theorem eq_empty_of_size_eq_zero (h : m.size = 0) : m = empty :=
  ext_get fun k ↦ size_eq_zero_iff.1 h k

/-! ### Point updates -/

/-- Insertion into sorted rows, overwriting a row of the same key. -/
def insertRows (k : K) (v : V) : List (K × V) → List (K × V)
  | [] => [(k, v)]
  | a :: l =>
    if k < a.1 then (k, v) :: a :: l
    else if k = a.1 then (k, v) :: l
    else a :: insertRows k v l

theorem mem_insertRows (h : l.Pairwise fun a b ↦ a.1 < b.1)
    {r : K × V} : r ∈ insertRows k v l ↔ r = (k, v) ∨ r ∈ l ∧ r.1 ≠ k := by
  induction l with
  | nil => simp [insertRows]
  | cons a l ih =>
    rw [List.pairwise_cons] at h
    have above : ∀ r ∈ a :: l, k < a.1 → r.1 ≠ k := by
      rintro r hr hlt rfl
      rcases List.mem_cons.1 hr with rfl | hr
      · exact lt_irrefl _ hlt
      · exact lt_irrefl _ (hlt.trans (h.1 _ hr))
    unfold insertRows
    split_ifs with hlt heq
    · rw [List.mem_cons]
      exact or_congr_right ⟨fun hr ↦ ⟨hr, above r hr hlt⟩, And.left⟩
    · subst heq
      rw [List.mem_cons, List.mem_cons]
      refine or_congr_right ⟨fun hr ↦ ⟨Or.inr hr, (h.1 _ hr).ne'⟩, ?_⟩
      rintro ⟨rfl | hr, hne⟩
      · exact absurd rfl hne
      · exact hr
    · rw [List.mem_cons, List.mem_cons, ih h.2]
      constructor
      · rintro (rfl | rfl | hr)
        · exact Or.inr ⟨Or.inl rfl, Ne.symm heq⟩
        · exact Or.inl rfl
        · exact Or.inr ⟨Or.inr hr.1, hr.2⟩
      · rintro (rfl | ⟨rfl | hr, hne⟩)
        · exact Or.inr (Or.inl rfl)
        · exact Or.inl rfl
        · exact Or.inr (Or.inr ⟨hr, hne⟩)

theorem sorted_insertRows (h : l.Pairwise fun a b ↦ a.1 < b.1) :
    (insertRows k v l).Pairwise fun a b ↦ a.1 < b.1 := by
  induction l with
  | nil => exact List.pairwise_singleton _ _
  | cons a l ih =>
    have hl := List.pairwise_cons.1 h
    unfold insertRows
    split_ifs with hlt heq
    · refine List.pairwise_cons.2 ⟨fun r hr ↦ ?_, h⟩
      rcases List.mem_cons.1 hr with rfl | hr
      · exact hlt
      · exact hlt.trans (hl.1 r hr)
    · subst heq
      exact List.pairwise_cons.2 ⟨hl.1, hl.2⟩
    · refine List.pairwise_cons.2 ⟨fun r hr ↦ ?_, ih hl.2⟩
      rcases (mem_insertRows hl.2).1 hr with rfl | hr
      · exact lt_of_le_of_ne (not_lt.1 hlt) (Ne.symm heq)
      · exact hl.1 r hr.1

/-- Put a row. -/
def insert (m : SortedMap K V) (k : K) (v : V) : SortedMap K V :=
  ⟨insertRows k v m.rows, sorted_insertRows m.sorted⟩

/-- Delete a row. -/
def erase (m : SortedMap K V) (k : K) : SortedMap K V :=
  ⟨m.rows.filter (·.1 ≠ k), m.sorted.filter _⟩

variable (m)

theorem get_insert (v : V) (j : K) : (m.insert k v).get j = if j = k then some v else m.get j := by
  refine Option.ext fun w ↦ ?_
  rw [get_eq_some_iff]
  show _ ∈ insertRows k v m.rows ↔ _
  rw [mem_insertRows m.sorted]
  split_ifs with h
  · subst h
    simp [eq_comm]
  · rw [get_eq_some_iff]
    simp [h]

theorem get_erase (k j : K) : (m.erase k).get j = if j = k then none else m.get j := by
  refine Option.ext fun w ↦ ?_
  rw [get_eq_some_iff]
  show _ ∈ m.rows.filter _ ↔ _
  rw [List.mem_filter]
  split_ifs with h
  · simp [h]
  · rw [get_eq_some_iff]
    simp [h]

/-- Delete the rows of a half-open range. -/
def eraseRange (m : SortedMap K V) (start stop : K) : SortedMap K V :=
  ⟨m.rows.filter fun r ↦ ¬(start ≤ r.1 ∧ r.1 < stop), m.sorted.filter _⟩

theorem get_eraseRange (start stop j : K) :
    (m.eraseRange start stop).get j = if start ≤ j ∧ j < stop then none else m.get j := by
  refine Option.ext fun w ↦ ?_
  rw [get_eq_some_iff]
  show _ ∈ m.rows.filter _ ↔ _
  rw [List.mem_filter, decide_eq_true_eq]
  split_ifs with h
  · simp [h]
  · rw [get_eq_some_iff]
    simp only [h, not_false_eq_true, and_true]

theorem rows_insert_of_forall_lt {m : SortedMap K V} (v : V) (h : ∀ r ∈ m.rows, r.1 < k) :
    (m.insert k v).rows = m.rows ++ [(k, v)] := by
  show insertRows k v m.rows = m.rows ++ [(k, v)]
  generalize m.rows = l at h
  induction l with
  | nil => rfl
  | cons a l ih =>
    have ha : a.1 < k := h a List.mem_cons_self
    rw [insertRows, if_neg ha.not_gt, if_neg ha.ne', ih fun r hr ↦ h r (List.mem_cons_of_mem _ hr)]
    rfl

@[simp] theorem get_insert_self (k : K) (v : V) : (m.insert k v).get k = some v := by
  rw [get_insert, if_pos rfl]

@[simp] theorem get_erase_self (k : K) : (m.erase k).get k = none := by
  rw [get_erase, if_pos rfl]

theorem get_insert_of_ne {k j : K} (v : V) (h : j ≠ k) : (m.insert k v).get j = m.get j := by
  rw [get_insert, if_neg h]

theorem get_erase_of_ne {k j : K} (h : j ≠ k) : (m.erase k).get j = m.get j := by
  rw [get_erase, if_neg h]

theorem erase_of_get_eq_none {m : SortedMap K V} (h : m.get k = none) : m.erase k = m := by
  refine ext_get fun j ↦ ?_
  rw [get_erase]
  split_ifs with hj
  · rw [hj, h]
  · rfl

theorem insert_of_get_eq_some {m : SortedMap K V} (h : m.get k = some v) : m.insert k v = m := by
  refine ext_get fun j ↦ ?_
  rw [get_insert]
  split_ifs with hj
  · rw [hj, h]
  · rfl

/-! ### Lists of writes -/

/-- One write: a put, or a delete when there is no value. -/
def write (m : SortedMap K V) (w : K × Option V) : SortedMap K V :=
  match w.2 with
  | some v => m.insert w.1 v
  | none => m.erase w.1

/-- A list of writes, applied in order. -/
def apply (m : SortedMap K V) (ws : List (K × Option V)) : SortedMap K V := ws.foldl write m

@[simp] theorem apply_nil : m.apply [] = m := rfl

variable (w : K × Option V)

@[simp] theorem apply_cons (ws : List (K × Option V)) :
    m.apply (w :: ws) = (m.write w).apply ws := rfl

theorem apply_append (ws ws' : List (K × Option V)) :
    m.apply (ws ++ ws') = (m.apply ws).apply ws' := List.foldl_append

@[simp] theorem write_some (v : V) : m.write (k, some v) = m.insert k v := rfl

@[simp] theorem write_none : m.write (k, none) = m.erase k := rfl

theorem get_write (j : K) : (m.write w).get j = if j = w.1 then w.2 else m.get j := by
  obtain ⟨k, _ | v⟩ := w
  · rw [write_none, get_erase]
  · rw [write_some, get_insert]

variable {m} {ws : List (K × Option V)} {j : K}

theorem get_apply_of_notMem (h : j ∉ ws.map Prod.fst) : (m.apply ws).get j = m.get j := by
  induction ws generalizing m with
  | nil => rfl
  | cons w ws ih =>
    rw [List.map_cons, List.mem_cons, not_or] at h
    rw [apply_cons, ih h.2, get_write, if_neg h.1]

/-- When every write to `j` agrees, that is what is stored at `j` afterwards. -/
theorem get_apply_of_mem {o : Option V}
    (hmem : (j, o) ∈ ws) (h : ∀ o', (j, o') ∈ ws → o' = o) : (m.apply ws).get j = o := by
  induction ws generalizing m with
  | nil => exact absurd hmem List.not_mem_nil
  | cons w ws ih =>
    rw [apply_cons]
    by_cases hj : (j, o) ∈ ws
    · exact ih hj fun o' ho' ↦ h o' (List.mem_cons_of_mem _ ho')
    · obtain rfl : (j, o) = w := (List.mem_cons.1 hmem).resolve_right hj
      rw [get_apply_of_notMem, get_write, if_pos rfl]
      rintro hin
      obtain ⟨⟨k, o'⟩, hmem', rfl⟩ := List.mem_map.1 hin
      exact hj (h o' (List.mem_cons_of_mem _ hmem') ▸ hmem')

theorem get_apply_eq_some (h : (m.apply ws).get j = some v) :
    (j, some v) ∈ ws ∨ m.get j = some v := by
  induction ws generalizing m with
  | nil => exact Or.inr h
  | cons w ws ih =>
    rcases ih h with hmem | hget
    · exact Or.inl (List.mem_cons_of_mem _ hmem)
    · rw [get_write] at hget
      split_ifs at hget with hj
      · exact Or.inl (List.mem_cons.2 (Or.inl (Prod.ext hj hget.symm)))
      · exact Or.inr hget

theorem get_apply_congr {m m' : SortedMap K V}
    (h : m.get j = m'.get j) : (m.apply ws).get j = (m'.apply ws).get j := by
  induction ws generalizing m m' with
  | nil => exact h
  | cons w ws ih =>
    refine ih ?_
    rw [get_write, get_write, h]

theorem get_apply_eq_of_mem (m m' : SortedMap K V)
    (h : j ∈ ws.map Prod.fst) : (m.apply ws).get j = (m'.apply ws).get j := by
  induction ws generalizing m m' with
  | nil => cases h
  | cons w ws ih =>
    rw [apply_cons, apply_cons]
    by_cases hw : j = w.1
    · refine get_apply_congr ?_
      rw [get_write, get_write, if_pos hw, if_pos hw]
    · exact ih _ _ ((List.mem_cons.1 h).resolve_left hw)

variable {ks : List K}

theorem get_apply_deletes (m : SortedMap K V) (j : K) :
    (m.apply (ks.map fun k ↦ (k, none))).get j = if j ∈ ks then none else m.get j := by
  split_ifs with h
  · refine get_apply_of_mem (List.mem_map.2 ⟨j, h, rfl⟩) ?_
    simp
  · refine get_apply_of_notMem ?_
    simpa using h

theorem get_apply_puts (m : SortedMap K V) (hl : (l.map Prod.fst).Nodup) (j : K) :
    (m.apply (l.map fun r ↦ (r.1, some r.2))).get j = (l.lookup j).or (m.get j) := by
  induction l generalizing m with
  | nil => rfl
  | cons a l ih =>
    obtain ⟨a, v⟩ := a
    rw [List.map_cons, List.nodup_cons] at hl
    rw [List.map_cons, apply_cons, ih _ hl.2, write_some, get_insert]
    rcases eq_or_ne j a with rfl | hj
    · have : l.lookup j = none := by
        rw [List.lookup_eq_none_iff]
        exact fun r hr ↦ bne_iff_ne.2 fun e ↦ hl.1 (List.mem_map.2 ⟨r, hr, e.symm⟩)
      simp [this]
    · simp [List.lookup_cons, beq_false_of_ne hj, hj]

/-! ### Sizes -/

theorem size_insertRows (h : l.Pairwise fun a b ↦ a.1 < b.1) :
    (insertRows k v l).length = if k ∈ l.map Prod.fst then l.length else l.length + 1 := by
  induction l with
  | nil => rfl
  | cons a l ih =>
    rw [List.pairwise_cons] at h
    simp only [insertRows, List.map_cons, List.mem_cons]
    rcases lt_trichotomy k a.1 with hlt | rfl | hgt
    · have hnot : ¬(k = a.1 ∨ k ∈ l.map Prod.fst) := by
        rintro (rfl | hr)
        · exact lt_irrefl _ hlt
        · obtain ⟨r, hmem, rfl⟩ := List.mem_map.1 hr
          exact lt_irrefl _ (hlt.trans (h.1 r hmem))
      rw [if_pos hlt, if_neg hnot]
      rfl
    · rw [if_neg (lt_irrefl _), if_pos rfl, if_pos (Or.inl rfl)]
      rfl
    · rw [if_neg hgt.not_gt, if_neg hgt.ne', List.length_cons, ih h.2, List.length_cons]
      simp only [hgt.ne', false_or]
      split_ifs <;> rfl

theorem size_insert (m : SortedMap K V) (k : K) (v : V) :
    (m.insert k v).size = if (m.get k).isSome then m.size else m.size + 1 := by
  show (insertRows k v m.rows).length = _
  rw [size_insertRows m.sorted]
  exact if_congr mem_keys_iff rfl rfl

theorem size_erase (m : SortedMap K V) :
    (m.erase k).size = if (m.get k).isSome then m.size - 1 else m.size := by
  split_ifs with h
  · obtain ⟨v, hv⟩ := Option.isSome_iff_exists.1 h
    have hins : ((m.erase k).insert k v).size = (m.erase k).size + 1 := by
      rw [size_insert, get_erase_self, Option.isSome_none, if_neg Bool.false_ne_true]
    have hback : (m.erase k).insert k v = m := ext_get fun j ↦ by
      rw [get_insert, get_erase]
      split_ifs with hj
      · rw [hj, hv]
      · rfl
    rw [hback] at hins
    omega
  · rw [Bool.not_eq_true, Option.isSome_eq_false_iff, Option.isNone_iff_eq_none] at h
    rw [erase_of_get_eq_none h]

theorem size_pos_of_get (h : (m.get k).isSome) : 0 < m.size := by
  refine Nat.pos_of_ne_zero fun h0 ↦ ?_
  rw [size_eq_zero_iff.1 h0 k] at h
  exact Bool.false_ne_true h

/-! ### Bulk updates -/

/-- Put a list of rows in order, so that a repeated key keeps its last value. -/
def insertAll (m : SortedMap K V) (rows : List (K × V)) : SortedMap K V :=
  rows.foldl (fun m r ↦ m.insert r.1 r.2) m

/-- Delete a list of keys. -/
def eraseAll (m : SortedMap K V) (ks : List K) : SortedMap K V := ks.foldl erase m

variable (m) {rows : List (K × V)}

theorem apply_puts : m.apply (rows.map fun r ↦ (r.1, some r.2)) = m.insertAll rows := List.foldl_map

theorem apply_deletes : m.apply (ks.map fun k ↦ (k, none)) = m.eraseAll ks := List.foldl_map

theorem get_insertAll : (m.insertAll rows).get k = ((empty.insertAll rows).get k).or (m.get k) := by
  induction rows generalizing m with
  | nil => rfl
  | cons r rows ih =>
    have hm := ih (m.insert r.1 r.2)
    have hempty := ih (empty.insert r.1 r.2)
    show ((m.insert r.1 r.2).insertAll rows).get k =
      (((empty.insert r.1 r.2).insertAll rows).get k).or (m.get k)
    rw [hm, hempty, get_insert, get_insert]
    rcases (insertAll empty rows).get k with _ | v
    · split_ifs <;> simp
    · rfl

theorem insertAll_rows : empty.insertAll m.rows = m := by
  refine ext_get fun k ↦ ?_
  rw [← apply_puts, get_apply_puts _ m.nodup_keys, get_empty, Option.or_none]
  rfl

theorem insertAll_rows_insertAll (rows : List (K × V)) :
    m.insertAll (empty.insertAll rows).rows = m.insertAll rows := by
  refine ext_get fun k ↦ ?_
  rw [get_insertAll, insertAll_rows, ← get_insertAll]

theorem get_eraseAll : (m.eraseAll ks).get k = if k ∈ ks then none else m.get k := by
  rw [← apply_deletes, get_apply_deletes]

theorem size_insertAll (h : (rows.map Prod.fst).Nodup) :
    (m.insertAll rows).size = m.size + (rows.filter fun r ↦ (m.get r.1).isNone).length := by
  induction rows generalizing m with
  | nil => rfl
  | cons r rows ih =>
    rw [List.map_cons, List.nodup_cons] at h
    have hrest : (rows.filter fun r' ↦ ((m.insert r.1 r.2).get r'.1).isNone) =
        rows.filter fun r' ↦ (m.get r'.1).isNone := by
      refine List.filter_congr fun r' hr' ↦ ?_
      have hne : r'.1 ≠ r.1 := fun he ↦ h.1 (he ▸ List.mem_map_of_mem hr')
      rw [get_insert_of_ne _ _ hne]
    show ((m.insert r.1 r.2).insertAll rows).size = _
    rw [ih _ h.2, hrest, size_insert]
    rcases hget : m.get r.1 with _ | v
    · rw [List.filter_cons_of_pos (by rw [hget]; rfl), List.length_cons]
      simp only [Option.isSome_none, Bool.false_eq_true, if_false]
      omega
    · rw [List.filter_cons_of_neg (by rw [hget]; exact Bool.false_ne_true)]
      rfl

theorem size_insertAll_le (rows : List (K × V)) :
    (m.insertAll rows).size ≤ m.size + rows.length := by
  induction rows generalizing m with
  | nil => exact le_rfl
  | cons r rows ih =>
    have hrest := ih (m.insert r.1 r.2)
    have hone : (m.insert r.1 r.2).size ≤ m.size + 1 := by
      rw [size_insert]
      split_ifs <;> omega
    show ((m.insert r.1 r.2).insertAll rows).size ≤ _
    rw [List.length_cons]
    omega

variable {m}

theorem size_eraseAll (h : ks.Nodup)
    (hmem : ∀ k ∈ ks, (m.get k).isSome) : (m.eraseAll ks).size + ks.length = m.size := by
  induction ks generalizing m with
  | nil => rfl
  | cons k ks ih =>
    rw [List.nodup_cons] at h
    have hk := hmem k List.mem_cons_self
    have hrest : ∀ j ∈ ks, ((m.erase k).get j).isSome := by
      intro j hj
      have hne : j ≠ k := fun he ↦ h.1 (he ▸ hj)
      rw [get_erase_of_ne _ hne]
      exact hmem j (List.mem_cons_of_mem _ hj)
    have hsize := ih h.2 hrest
    have hpos := size_pos_of_get hk
    rw [size_erase, if_pos hk] at hsize
    show ((m.erase k).eraseAll ks).size + _ = _
    rw [List.length_cons]
    omega

theorem size_eraseAll_le (m : SortedMap K V) (ks : List K) : (m.eraseAll ks).size ≤ m.size := by
  induction ks generalizing m with
  | nil => exact le_rfl
  | cons k ks ih =>
    refine (ih (m.erase k)).trans ?_
    rw [size_erase]
    split_ifs <;> omega

/-! ### Iterators and slices -/

section Iterators

variable {α : Type*} {r : α → α → Prop} {l : List α}

theorem dropWhile_eq_filter {before : α → Bool}
    (hbefore : ∀ a b, r a b → before b = true → before a = true) (h : l.Pairwise r) :
    l.dropWhile before = l.filter fun a ↦ !before a := by
  induction l with
  | nil => rfl
  | cons a l ih =>
    rw [List.pairwise_cons] at h
    cases ha : before a with
    | true => rw [List.dropWhile_cons_of_pos ha, List.filter_cons_of_neg (by simp [ha]), ih h.2]
    | false =>
      rw [List.dropWhile_cons_of_neg (by simp [ha]), List.filter_cons_of_pos (by simp [ha])]
      refine congrArg (a :: ·) (List.filter_eq_self.2 fun b hb ↦ ?_).symm
      rw [Bool.not_eq_true']
      by_contra hpre
      exact Bool.false_ne_true (ha.symm.trans (hbefore a b (h.1 b hb) (by simpa using hpre)))

theorem takeWhile_eq_filter {inside : α → Bool}
    (hinside : ∀ a b, r a b → inside b = true → inside a = true) (h : l.Pairwise r) :
    l.takeWhile inside = l.filter inside := by
  induction l with
  | nil => rfl
  | cons a l ih =>
    rw [List.pairwise_cons] at h
    cases ha : inside a with
    | true => rw [List.takeWhile_cons_of_pos ha, List.filter_cons_of_pos ha, ih h.2]
    | false =>
      rw [List.takeWhile_cons_of_neg (by simp [ha]), List.filter_cons_of_neg (by simp [ha])]
      refine (List.filter_eq_nil_iff.2 fun b hb hin ↦ ?_).symm
      exact Bool.false_ne_true (ha.symm.trans (hinside a b (h.1 b hb) hin))

/-- **A block iterator.** On a list ordered by `r`, skipping what lies before a contiguous block
and stopping at the first element outside it visits exactly the elements of the block. -/
theorem takeWhile_dropWhile_eq_filter {before inside : α → Bool}
    (hbefore : ∀ {a b}, r a b → before b = true → before a = true)
    (hblock : ∀ {a b}, r a b → inside b = true → before a = true ∨ inside a = true)
    (hdisj : ∀ {a}, inside a = true → before a = false) (h : l.Pairwise r) :
    (l.dropWhile before).takeWhile inside = l.filter inside := by
  -- once past the skipped part, the block is an initial segment
  have hrest : (l.filter fun a ↦ !before a).Pairwise fun a b ↦ r a b ∧ before a = false :=
    (h.filter _).imp_of_mem fun ha _ hr ↦ ⟨hr, by simpa using (List.mem_filter.1 ha).2⟩
  have hskip : l.dropWhile before = l.filter fun a ↦ !before a :=
    dropWhile_eq_filter (fun _ _ ↦ hbefore) h
  rw [hskip, takeWhile_eq_filter ?_ hrest, List.filter_filter]
  · refine List.filter_congr fun a _ ↦ ?_
    cases ha : inside a with
    | true => rw [hdisj ha]; rfl
    | false => rfl
  · rintro a b ⟨hr, ha⟩ hb
    rcases hblock hr hb with hpre | hin
    · exact absurd (ha.symm.trans hpre) Bool.false_ne_true
    · exact hin

end Iterators

/-- An order embedding of `D` into the keys, with its partial inverse: the part of the key space
that a slice reads. -/
structure Part (D K : Type*) [LT D] [LT K] where
  key : D → K
  /-- The element of a key, when the key lies in this part. -/
  elem : K → Option D
  /-- `elem` inverts `key`. -/
  elem_eq_some_iff : ∀ {k d}, elem k = some d ↔ k = key d
  /-- The order of the keys is the order of the elements. -/
  lt_of_key_lt : ∀ {d d'}, key d < key d' → d < d'

namespace Part

variable [LT D] (p : Part D K)

@[simp] theorem elem_key (d : D) : p.elem (p.key d) = some d := p.elem_eq_some_iff.2 rfl

theorem key_inj {d d' : D} : p.key d = p.key d' ↔ d = d' := by
  constructor
  · intro h
    exact Option.some.inj ((p.elem_key d).symm.trans (h ▸ p.elem_key d'))
  · rintro rfl
    rfl

end Part

variable [LinearOrder D]

/-- The rows of one part of the key space, as a map of their own. -/
def slice (m : SortedMap K V) (p : Part D K) : SortedMap D V where
  rows := m.rows.filterMap fun r ↦ (p.elem r.1).map fun d ↦ (d, r.2)
  sorted := by
    refine List.Pairwise.filterMap _ ?_ m.sorted
    intro a b hab x hx y hy
    obtain ⟨d, hd, rfl⟩ := Option.map_eq_some_iff.1 hx
    obtain ⟨e, he, rfl⟩ := Option.map_eq_some_iff.1 hy
    rw [p.elem_eq_some_iff] at hd he
    rw [hd, he] at hab
    exact p.lt_of_key_lt hab

section

variable (m : SortedMap K V) (p : Part D K) (d : D)

theorem get_slice : (m.slice p).get d = m.get (p.key d) := by
  refine Option.ext fun v ↦ ?_
  rw [get_eq_some_iff, get_eq_some_iff]
  show _ ∈ m.rows.filterMap _ ↔ _
  rw [List.mem_filterMap]
  constructor
  · rintro ⟨⟨k, w⟩, hmem, h⟩
    obtain ⟨e, he, h⟩ := Option.map_eq_some_iff.1 h
    obtain ⟨rfl, rfl⟩ := Prod.mk.injEq _ _ _ _ ▸ h
    rw [p.elem_eq_some_iff] at he
    exact he ▸ hmem
  · exact fun hmem ↦ ⟨_, hmem, by simp⟩

theorem slice_insert_key (v : V) : (m.insert (p.key d) v).slice p = (m.slice p).insert d v := by
  refine ext_get fun e ↦ ?_
  simp only [get_slice, get_insert, p.key_inj]

theorem slice_erase_key : (m.erase (p.key d)).slice p = (m.slice p).erase d := by
  refine ext_get fun e ↦ ?_
  simp only [get_slice, get_erase, p.key_inj]

end

theorem slice_congr {m m' : SortedMap K V} {p : Part D K}
    (h : ∀ d, m.get (p.key d) = m'.get (p.key d)) : m.slice p = m'.slice p := by
  refine ext_get fun d ↦ ?_
  rw [get_slice, get_slice, h]

theorem slice_apply_key (m : SortedMap K V) (p : Part D K) (ws : List (D × Option V)) :
    (m.apply (ws.map fun w ↦ (p.key w.1, w.2))).slice p = (m.slice p).apply ws := by
  induction ws generalizing m with
  | nil => rfl
  | cons w ws ih =>
    rw [List.map_cons, apply_cons, apply_cons, ih]
    obtain ⟨d, _ | v⟩ := w
    · rw [write_none, write_none, slice_erase_key]
    · rw [write_some, write_some, slice_insert_key]

end SortedMap
