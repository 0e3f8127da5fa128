import Kiwi.Lib.Positions
import Kiwi.Lib.Run
import Kiwi.Storage.Lists
import Kiwi.Storage.Strings

/-!
# The window of a list

A list with left index `l` and `c` elements is stored at the indexes `l + 1`, …, `l + c`: a window
that pushes extend, pops and trims shrink, and removals and insertions rewrite. `Represents` says
that a meta value and the rows under its version are such a window with the elements `xs`, and for
every operation there is a lemma that names the list of elements it leaves.

Indexes are `u64` and start in the middle. As long as fewer than `2 ^ 62` elements have been pushed
altogether, no window comes near either end (`Within`), so that no index wraps.

Operations that write a list anew — a push at the head, an insertion — do so under a new version,
and a list that is created takes its version from the clock. Both count on nothing being stored
under that version yet, which holds because every version in use is at most the last reading of the
clock (`Inv`).
-/

namespace Kiwi.ListWindow

open Kiwi.Lists

variable {S : Type} [LinearOrder S]

/-! ### Windows -/

/-- What the index `i` holds when the elements `xs` are stored after `base`. -/
def window (base : ℕ) (xs : List Bytes) (i : ℕ) : Option Bytes :=
  if i ≤ base then none else xs[i - (base + 1)]?

variable {i : ℕ} {xs : List Bytes}

theorem isSome_window_iff {base : ℕ} :
    (window base xs i).isSome ↔ base + 1 ≤ i ∧ i ≤ base + xs.length := by
  unfold window
  split_ifs with h
  · simp only [Option.isSome_none, Bool.false_eq_true, false_iff]
    omega
  · rw [isSome_getElem?]
    omega

/-- The rows of a key under a version are the elements `xs` after `base`, and nothing else. -/
def Holds (db : Redis S) (key : Bytes) (version base : ℕ) (xs : List Bytes) : Prop :=
  ∀ i, db.listsDataCF.get ⟨key, version, i⟩ = window base xs i

variable {key : Bytes} {version base n : ℕ}

theorem elementKey_of_lt (h : base + i + 1 < 2 ^ 64) :
    elementKey key version base i = ⟨key, version, base + i + 1⟩ := by
  rw [elementKey, wrapU64_of_lt h]

theorem mem_elementKeys_iff (h : base + n < 2 ^ 64) {v j : ℕ} :
    (⟨key, v, j⟩ : DataKey ℕ) ∈ (List.range n).map (elementKey key version base) ↔
      v = version ∧ base < j ∧ j ≤ base + n := by
  rw [List.mem_map]
  constructor
  · rintro ⟨i, hi, he⟩
    rw [List.mem_range] at hi
    rw [elementKey_of_lt (by omega), DataKey.mk.injEq] at he
    exact ⟨he.2.1.symm, by omega, by omega⟩
  · rintro ⟨rfl, hlo, hhi⟩
    refine ⟨j - (base + 1), List.mem_range.2 (by omega), ?_⟩
    rw [elementKey_of_lt (by omega), DataKey.mk.injEq]
    exact ⟨rfl, rfl, by omega⟩

variable (m : SortedMap (DataKey ℕ) Bytes)

omit [LinearOrder S] in
/-- Deleting the places after `base`. -/
theorem get_deleteElements (h : base + n < 2 ^ 64) (v j : ℕ) :
    (m.apply ((deleteElements key version base n : Batch S).filterMap Entry.listWrite?)).get
      ⟨key, v, j⟩ = if v = version ∧ base < j ∧ j ≤ base + n then none else m.get ⟨key, v, j⟩ := by
  have hmap : (deleteElements key version base n : Batch S).filterMap Entry.listWrite? =
      ((List.range n).map (elementKey key version base)).map fun k ↦ (k, none) := by
    rw [listWrites_deleteElements, List.map_map]
    rfl
  rw [hmap, SortedMap.get_apply_deletes]
  simp only [mem_elementKeys_iff h]

omit [LinearOrder S] in
/-- Putting elements at the places after `base`. -/
theorem get_putElements (h : base + xs.length < 2 ^ 64) (v j : ℕ) :
    (m.apply ((putElements key version base xs : Batch S).filterMap Entry.listWrite?)).get
      ⟨key, v, j⟩ =
        if v = version ∧ base < j ∧ j ≤ base + xs.length then xs[j - (base + 1)]?
        else m.get ⟨key, v, j⟩ := by
  rw [listWrites_putElements]
  -- the write for each place is the only one that names its key
  have hmem : ∀ {o}, ((⟨key, v, j⟩ : DataKey ℕ), o) ∈
      xs.mapIdx (fun i x ↦ (elementKey key version base i, some x)) ↔
        v = version ∧ base < j ∧ j ≤ base + xs.length ∧ o = xs[j - (base + 1)]? := by
    intro o
    rw [List.mem_mapIdx]
    constructor
    · rintro ⟨i, hi, he⟩
      rw [elementKey_of_lt (by omega), Prod.mk.injEq, DataKey.mk.injEq] at he
      obtain ⟨⟨-, rfl, rfl⟩, rfl⟩ := he
      have hsub : base + i + 1 - (base + 1) = i := by omega
      exact ⟨rfl, by omega, by omega, by rw [hsub, List.getElem?_eq_getElem hi]⟩
    · rintro ⟨rfl, hlo, hhi, rfl⟩
      refine ⟨j - (base + 1), by omega, ?_⟩
      rw [elementKey_of_lt (by omega), Prod.mk.injEq, DataKey.mk.injEq,
        List.getElem?_eq_getElem (by omega)]
      exact ⟨⟨rfl, rfl, by omega⟩, rfl⟩
  split_ifs with hj
  · exact SortedMap.get_apply_of_mem (hmem.2 ⟨hj.1, hj.2.1, hj.2.2, rfl⟩)
      fun o ho ↦ (hmem.1 ho).2.2.2
  · refine SortedMap.get_apply_of_notMem fun hin ↦ hj ?_
    obtain ⟨⟨_, o⟩, ho, rfl⟩ := List.mem_map.1 hin
    exact ⟨(hmem.1 ho).1, (hmem.1 ho).2.1, (hmem.1 ho).2.2.1⟩

section

omit [LinearOrder S]

theorem get_deleteElements_self (h : base + n < 2 ^ 64) (j : ℕ) :
    (m.apply ((deleteElements key version base n : Batch S).filterMap Entry.listWrite?)).get
      ⟨key, version, j⟩ = if base < j ∧ j ≤ base + n then none else m.get ⟨key, version, j⟩ := by
  rw [get_deleteElements m h]
  simp only [true_and]

theorem get_deleteElements_of_ne (h : base + n < 2 ^ 64) {v : ℕ} (hv : v ≠ version) (j : ℕ) :
    (m.apply ((deleteElements key version base n : Batch S).filterMap Entry.listWrite?)).get
      ⟨key, v, j⟩ = m.get ⟨key, v, j⟩ := by
  rw [get_deleteElements m h, if_neg fun hj ↦ hv hj.1]

theorem get_putElements_self (h : base + xs.length < 2 ^ 64) (j : ℕ) :
    (m.apply ((putElements key version base xs : Batch S).filterMap Entry.listWrite?)).get
      ⟨key, version, j⟩ =
        if base < j ∧ j ≤ base + xs.length then xs[j - (base + 1)]?
        else m.get ⟨key, version, j⟩ := by
  rw [get_putElements m h]
  simp only [true_and]

end

theorem listsDataCF_write_meta (db : Redis S) (b : Batch S) (value : Option MetaValue) :
    (db.write (b ++ [.metaCF key value])).listsDataCF =
      db.listsDataCF.apply (b.filterMap Entry.listWrite?) := by
  rw [Redis.write_listsDataCF, List.filterMap_append, SortedMap.apply_append]
  rfl

@[simp] theorem window_nil : window base [] i = none := by
  unfold window
  split_ifs <;> rfl

theorem window_append (xs ys : List Bytes) :
    window base (xs ++ ys) i =
      if i ≤ base + xs.length then window base xs i else window (base + xs.length) ys i := by
  unfold window
  rw [List.getElem?_append]
  split_ifs <;> first | rfl | omega | (congr 1; omega)

theorem window_eq_of_le (h : base < i) : window base xs i = xs[i - (base + 1)]? := if_neg (by omega)

theorem window_eq_none (h : i ≤ base ∨ base + xs.length < i) : window base xs i = none := by
  unfold window
  split_ifs with hi
  · rfl
  · exact List.getElem?_eq_none (by omega)

/-- The rows of the places after `base` are the elements `xs`, whatever is stored at other places.
-/
def Covers (db : Redis S) (key : Bytes) (version base : ℕ) (xs : List Bytes) : Prop :=
  ∀ i, base < i → i ≤ base + xs.length → db.listsDataCF.get ⟨key, version, i⟩ = window base xs i

theorem Covers.readElements_eq {db : Redis S} (h : Covers db key version base xs)
    (hb : base + xs.length < 2 ^ 64) : readElements db key version base xs.length = xs := by
  have hget : ∀ i ∈ List.range xs.length,
      db.listsDataCF.get (elementKey key version base i) = xs[i]? := by
    intro i hi
    rw [List.mem_range] at hi
    rw [elementKey_of_lt (by omega), h _ (by omega) (by omega), window_eq_of_le (by omega)]
    congr 1
    omega
  rw [readElements, List.filterMap_congr hget, Positions.filterMap_getElem?_range, List.take_length]

theorem readElements_eq {db : Redis S} (h : Holds db key version base xs)
    (hb : base + xs.length < 2 ^ 64) : readElements db key version base xs.length = xs :=
  Covers.readElements_eq (fun i _ _ ↦ h i) hb

/-! ### Lists -/

/-- The meta value and the rows under its version are a list with the elements `xs`. -/
structure Represents (db : Redis S) (key : Bytes) (m : ListsMetaValue) (xs : List Bytes) :
    Prop where
  /-- The count is the number of elements. -/
  count : m.count = xs.length
  /-- The right index is the index of the last element. -/
  right : m.rightIndex = m.leftIndex + m.count
  rows : Holds db key m.version m.leftIndex xs

/-- After `p` elements have been pushed altogether, a window is at most `p` away from the middle. -/
structure Within (p : ℕ) (m : ListsMetaValue) : Prop where
  /-- The window starts at most `p` before the middle. -/
  lower : 2 ^ 63 - 1 ≤ m.leftIndex + p
  /-- The window ends at most `p` after the middle. -/
  upper : m.leftIndex + m.count ≤ 2 ^ 63 - 1 + p

/-- Every list that is not empty is a window, and every version in use is at most `t`. -/
structure Inv (t p : ℕ) (db : Redis S) : Prop where
  metaRows : ∀ {key m}, db.metaCF.get key = some (.list m) →
    m.version ≤ t ∧ (m.count ≠ 0 → (∃ xs, Represents db key m xs) ∧ Within p m)
  dataRows : ∀ {key v i x}, db.listsDataCF.get ⟨key, v, i⟩ = some x → v ≤ t

theorem inv_empty : Inv 0 0 (Redis.empty : Redis S) :=
  ⟨fun h ↦ by simp [Redis.empty] at h, fun h ↦ by simp [Redis.empty] at h⟩

variable {db : Redis S} {t t' p p' : ℕ} {b : Batch S}

theorem Within.mono {m : ListsMetaValue} (h : Within p m) (hp : p ≤ p') : Within p' m :=
  ⟨h.lower.trans (by omega), h.upper.trans (by omega)⟩

theorem Represents.congr {db' : Redis S} {m : ListsMetaValue}
    (h : Represents db key m xs) (hagree : db'.AgreeAt db key) : Represents db' key m xs :=
  ⟨h.count, h.right, fun i ↦ (hagree.listsDataCF _ _).trans (h.rows i)⟩

/-- **A batch for one key.** It keeps the invariant if the rows it puts carry allowed versions and
the list it leaves at its key is a window. -/
theorem Inv.write (h : Inv t p db) (ht : t ≤ t') (hp : p ≤ p')
    (hb : Meets [key] (fun _ _ ↦ True) (fun _ v ↦ v ≤ t') b)
    (hmeta : ∀ m, (db.write b).metaCF.get key = some (.list m) →
      m.version ≤ t' ∧ (m.count ≠ 0 → (∃ xs, Represents (db.write b) key m xs) ∧ Within p' m)) :
    Inv t' p' (db.write b) := by
  constructor
  · intro k m hm
    by_cases hk : k = key
    · subst hk
      exact hmeta m hm
    · have hagree : (db.write b).AgreeAt db k := Redis.agreeAt_write_of_ne hb.toNames hk
      rw [hagree.metaCF] at hm
      obtain ⟨hv, hlist⟩ := h.metaRows hm
      refine ⟨hv.trans ht, fun hcount ↦ ?_⟩
      obtain ⟨⟨xs, hxs⟩, hw⟩ := hlist hcount
      exact ⟨⟨xs, hxs.congr hagree⟩, hw.mono hp⟩
  · intro k v i x hx
    rcases SortedMap.get_apply_eq_some hx with hput | hold
    · exact (hb _ (Entry.mem_listWrites.1 hput)).2
    · exact (h.dataRows hold).trans ht

/-! ### Pushes -/

section Pushes

variable {m : ListsMetaValue} {xs vs : List Bytes} {now : ℕ}

/-- Nothing is stored for a key under a version. -/
def Vacant (db : Redis S) (key : Bytes) (version : ℕ) : Prop :=
  ∀ i, db.listsDataCF.get ⟨key, version, i⟩ = none

section

variable (hcount : m.count = xs.length) (hrows : Holds db key m.version m.leftIndex xs)

include hcount hrows

theorem represents_pushRight (hb : m.leftIndex + m.count + vs.length < 2 ^ 64) :
    Represents (db.write ((pushed db key vs false m now).1 ++
      [.metaCF key (some (.list (pushed db key vs false m now).2))])) key
        (pushed db key vs false m now).2 (xs ++ vs) := by
  simp only [pushed, Bool.false_eq_true, if_false, pushRight]
  refine ⟨?_, ?_, fun i ↦ ?_⟩
  · rw [wrapU64_of_lt (by omega), List.length_append, hcount]
  · rw [wrapU64_of_lt (by omega), wrapU64_of_lt (by omega), Nat.add_assoc]
  · simp only [listsDataCF_write_meta]
    rw [get_putElements_self _ hb, hrows i, window_append, hcount]
    split_ifs with h₁ h₂ h₂
    · omega
    · exact (window_eq_of_le h₁.1).symm
    · rfl
    · rw [window_eq_none (by omega), window_eq_none (by omega)]

end

theorem counters_pushLeft (hn : vs.length ≤ m.leftIndex) (hb : m.leftIndex + m.count < 2 ^ 64) :
    (pushed db key vs true m now).2.count = m.count + vs.length ∧
      (pushed db key vs true m now).2.leftIndex = m.leftIndex - vs.length ∧
      (pushed db key vs true m now).2.rightIndex =
        (pushed db key vs true m now).2.leftIndex + (pushed db key vs true m now).2.count := by
  have hsub : subU64 m.leftIndex vs.length = m.leftIndex - vs.length :=
    subU64_of_le hn (by omega)
  have hcount : wrapU64 (m.count + vs.length) = m.count + vs.length := wrapU64_of_lt (by omega)
  have hright : wrapU64 (m.leftIndex - vs.length + (m.count + vs.length)) =
      m.leftIndex - vs.length + (m.count + vs.length) := wrapU64_of_lt (by omega)
  simp only [pushed, if_true, pushLeft, hsub]
  split_ifs <;> simp only [hcount, hright, and_self]

/-- A push at the head puts the whole list, and leaves alone what else is stored under the version
that the list has afterwards. -/
theorem get_pushLeft (hcount : m.count = xs.length)
    (hread : readElements db key m.version m.leftIndex m.count = xs)
    (hn : vs.length ≤ m.leftIndex) (hb : m.leftIndex + m.count < 2 ^ 64) (i : ℕ) :
    (db.write ((pushed db key vs true m now).1 ++
      [.metaCF key (some (.list (pushed db key vs true m now).2))])).listsDataCF.get
        ⟨key, (pushed db key vs true m now).2.version, i⟩ =
      if m.leftIndex - vs.length < i ∧ i ≤ m.leftIndex + m.count then
        window (m.leftIndex - vs.length) (vs.reverse ++ xs) i
      else db.listsDataCF.get ⟨key, (pushed db key vs true m now).2.version, i⟩ := by
  have hsub : subU64 m.leftIndex vs.length = m.leftIndex - vs.length :=
    subU64_of_le hn (by omega)
  have hrev : vs.reverse.length = vs.length := List.length_reverse
  by_cases h0 : m.count = 0
  · -- a new list: nothing has to be moved
    obtain rfl : xs = [] := List.length_eq_zero_iff.1 (hcount.symm.trans h0)
    simp only [pushed, if_true, pushLeft, hsub, if_pos h0, listsDataCF_write_meta]
    rw [get_putElements_self _ (by omega), List.append_nil, hrev, Nat.sub_add_cancel hn, h0,
      Nat.add_zero]
    split_ifs <;> first | rfl | omega | exact (window_eq_of_le (by omega)).symm
  · have hv : m.version ≠ updateVersion m.version now := (lt_updateVersion _ _).ne
    simp only [pushed, if_true, pushLeft, hsub, if_neg h0, hread, listsDataCF_write_meta,
      List.filterMap_append, SortedMap.apply_append]
    rw [get_putElements_self _ (by omega), get_putElements_self _ (by omega),
      get_deleteElements_of_ne _ (by omega) hv.symm, window_append, hrev, Nat.sub_add_cancel hn]
    split_ifs <;> first | rfl | omega | exact (window_eq_of_le (by omega)).symm

theorem represents_pushLeft (hcount : m.count = xs.length)
    (hrows : Holds db key m.version m.leftIndex xs)
    (hvacant : m.count ≠ 0 → Vacant db key (updateVersion m.version now))
    (hn : vs.length ≤ m.leftIndex) (hb : m.leftIndex + m.count < 2 ^ 64) :
    Represents (db.write ((pushed db key vs true m now).1 ++
      [.metaCF key (some (.list (pushed db key vs true m now).2))])) key
        (pushed db key vs true m now).2 (vs.reverse ++ xs) := by
  have hread : readElements db key m.version m.leftIndex m.count = xs := by
    rw [hcount]
    exact readElements_eq hrows (by omega)
  have hlength : (vs.reverse ++ xs).length = m.count + vs.length := by
    rw [List.length_append, List.length_reverse, hcount, Nat.add_comm]
  obtain ⟨hcount', hleft, hright⟩ : (pushed db key vs true m now).2.count = _ ∧ _ ∧ _ :=
    counters_pushLeft hn hb
  refine ⟨hcount'.trans hlength.symm, hright, fun i ↦ ?_⟩
  rw [get_pushLeft hcount hread hn hb, hleft]
  split_ifs with hi
  · rfl
  -- outside the window nothing is stored under the version of the list
  have hnone : db.listsDataCF.get ⟨key, (pushed db key vs true m now).2.version, i⟩ = none := by
    by_cases h0 : m.count = 0
    · have hversion : (pushed db key vs true m now).2.version = m.version := by
        simp only [pushed, if_true, pushLeft, if_pos h0]
      rw [hversion, hrows i, List.length_eq_zero_iff.1 (hcount.symm.trans h0), window_nil]
    · have hversion : (pushed db key vs true m now).2.version = updateVersion m.version now := by
        simp only [pushed, if_true, pushLeft, if_neg h0]
      rw [hversion, hvacant h0]
  rw [hnone, window_eq_none (by omega)]

end Pushes

/-! ### Pops -/

section Pops

variable {m : ListsMetaValue} {xs : List Bytes}

theorem map_fst_foundRows {keys : List (DataKey ℕ)}
    (h : ∀ k ∈ keys, (db.listsDataCF.get k).isSome) : (foundRows db keys).map Prod.fst = keys := by
  induction keys with
  | nil => rfl
  | cons k keys ih =>
    obtain ⟨x, hx⟩ := Option.isSome_iff_exists.1 (h k List.mem_cons_self)
    have ih := ih fun k' hk' ↦ h k' (List.mem_cons_of_mem _ hk')
    rw [foundRows, List.filterMap_cons, hx]
    simpa [foundRows] using ih

theorem get_popBatch {popped : List (DataKey ℕ × Bytes)} {m' : ListsMetaValue} (k : DataKey ℕ) :
    (db.write (popBatch key popped m')).listsDataCF.get k =
      if k ∈ popped.map Prod.fst then none else db.listsDataCF.get k := by
  have hw : (popBatch key popped m' : Batch S).filterMap Entry.listWrite? =
      (popped.map Prod.fst).map fun k ↦ (k, none) := by
    simp [popBatch, putOrDeleteMeta, List.filterMap_map, Function.comp_def]
  rw [Redis.write_listsDataCF, hw, SortedMap.get_apply_deletes]
  -- the two sides decide membership by different instances
  split_ifs <;> rfl

section

variable (h : Represents db key m xs) (hn : n ≤ m.count) (hb : m.leftIndex + m.count < 2 ^ 64)

include h hn hb

theorem represents_lpop :
    Represents
      (db.write (popBatch key (headRows db key m n)
        ((m.setLeftIndex (wrapU64 (m.leftIndex + n))).setCount (m.count - n))))
      key ((m.setLeftIndex (wrapU64 (m.leftIndex + n))).setCount (m.count - n)) (xs.drop n) := by
  have hcount := h.count
  have hwrap : wrapU64 (m.leftIndex + n) = m.leftIndex + n := wrapU64_of_lt (by omega)
  have hkeys : (headRows db key m n).map Prod.fst =
      (List.range n).map (elementKey key m.version m.leftIndex) := by
    refine map_fst_foundRows fun k hk ↦ ?_
    obtain ⟨i, hi, rfl⟩ := List.mem_map.1 hk
    rw [List.mem_range] at hi
    rw [elementKey_of_lt (by omega), h.rows, isSome_window_iff]
    omega
  refine ⟨?_, ?_, fun i ↦ ?_⟩
  · simp only [ListsMetaValue.setCount, List.length_drop, hcount]
  · simp only [ListsMetaValue.setCount, ListsMetaValue.setLeftIndex, hwrap, h.right]
    omega
  · simp only [ListsMetaValue.setCount, ListsMetaValue.setLeftIndex, hwrap]
    rw [get_popBatch, hkeys, h.rows]
    simp only [mem_elementKeys_iff (show m.leftIndex + n < 2 ^ 64 by omega), true_and]
    unfold window
    rw [List.getElem?_drop]
    split_ifs <;> first | rfl | omega | (congr 1; omega)

theorem represents_rpop :
    Represents
      (db.write (popBatch key (tailRows db key m n)
        ((m.setRightIndex (subU64 m.rightIndex n)).setCount (m.count - n))))
      key ((m.setRightIndex (subU64 m.rightIndex n)).setCount (m.count - n))
      (xs.take (m.count - n)) := by
  have hcount := h.count
  have hright := h.right
  have hsub : ∀ i ≤ n, subU64 m.rightIndex i = m.rightIndex - i := fun i hi ↦
    subU64_of_le (by omega) (by omega)
  have hkeys : (tailRows db key m n).map Prod.fst =
      (List.range n).map fun i ↦ ⟨key, m.version, m.rightIndex - i⟩ := by
    have hmap : (List.range n).map (fun i ↦ (⟨key, m.version, subU64 m.rightIndex i⟩ : DataKey ℕ)) =
        (List.range n).map fun i ↦ ⟨key, m.version, m.rightIndex - i⟩ :=
      List.map_congr_left fun i hi ↦ by rw [hsub i (List.mem_range.1 hi).le]
    rw [tailRows, hmap]
    refine map_fst_foundRows fun k hk ↦ ?_
    obtain ⟨i, hi, rfl⟩ := List.mem_map.1 hk
    rw [List.mem_range] at hi
    rw [h.rows, isSome_window_iff]
    omega
  have hmem : ∀ i, (⟨key, m.version, i⟩ : DataKey ℕ) ∈
      (List.range n).map (fun i ↦ (⟨key, m.version, m.rightIndex - i⟩ : DataKey ℕ)) ↔
        m.rightIndex - n < i ∧ i ≤ m.rightIndex := by
    intro i
    rw [List.mem_map]
    constructor
    · rintro ⟨j, hj, he⟩
      rw [List.mem_range] at hj
      have := (DataKey.mk.injEq .. ▸ he : key = key ∧ m.version = m.version ∧ _).2.2
      omega
    · rintro ⟨hlo, hhi⟩
      refine ⟨m.rightIndex - i, List.mem_range.2 (by omega), ?_⟩
      rw [DataKey.mk.injEq]
      exact ⟨rfl, rfl, by omega⟩
  refine ⟨?_, ?_, fun i ↦ ?_⟩
  · simp only [ListsMetaValue.setCount, List.length_take]
    omega
  · simp only [ListsMetaValue.setCount, ListsMetaValue.setRightIndex, hsub n le_rfl]
    omega
  · simp only [ListsMetaValue.setCount, ListsMetaValue.setRightIndex]
    rw [get_popBatch, hkeys, h.rows]
    simp only [hmem]
    unfold window
    rw [List.getElem?_take]
    split_ifs <;> first | rfl | omega | (rw [List.getElem?_eq_none]; omega)

end

end Pops

/-! ### Updates in place, and rewriting -/

section Updates

variable {m : ListsMetaValue} {xs ys : List Bytes} {now : ℕ}

/-- `lset` replaces one element. -/
theorem represents_lset (h : Represents db key m xs) (hi : i < m.count) (x : Bytes)
    (hb : m.leftIndex + m.count < 2 ^ 64) :
    Represents (db.write [.listsDataCF (elementKey key m.version m.leftIndex i) (some x)]) key m
      (xs.set i x) := by
  have hcount := h.count
  refine ⟨by simpa using hcount, h.right, fun j ↦ ?_⟩
  rw [elementKey_of_lt (by omega), Redis.write_listsDataCF]
  simp only [List.filterMap_cons, Entry.listWrite?, List.filterMap_nil, SortedMap.apply_cons,
    SortedMap.apply_nil, SortedMap.get_write, DataKey.mk.injEq, true_and]
  rw [h.rows]
  unfold window
  rw [List.getElem?_set]
  split_ifs <;> first | rfl | omega

/-- What `lrem` writes back is the list. -/
theorem represents_remBatch (h : Represents db key m xs) (hys : ys.length ≤ xs.length)
    (hb : m.leftIndex + m.count < 2 ^ 64) :
    Represents (db.write (remBatch key m ys)) key
      ((m.setCount ys.length).setRightIndex (wrapU64 (m.leftIndex + ys.length))) ys := by
  have hcount := h.count
  refine ⟨rfl, wrapU64_of_lt (by omega), fun i ↦ ?_⟩
  simp only [ListsMetaValue.setCount, ListsMetaValue.setRightIndex, remBatch, putOrDeleteMeta,
    listsDataCF_write_meta, List.filterMap_append, SortedMap.apply_append]
  rw [get_putElements_self _ (by omega), get_deleteElements_self _ (by omega), h.rows]
  split_ifs with h₁ h₂
  · exact (window_eq_of_le h₁.1).symm
  · exact (window_eq_none (by omega)).symm
  · rw [window_eq_none (by omega), window_eq_none (by omega)]

/-- What `linsert` writes under the new version is the list. -/
theorem get_insertBatch (ys : List Bytes) (hb : m.leftIndex + m.count < 2 ^ 64)
    (hb' : m.leftIndex + ys.length < 2 ^ 64) (i : ℕ) :
    (db.write (insertBatch key m ys now)).listsDataCF.get ⟨key, updateVersion m.version now, i⟩ =
      if m.leftIndex < i ∧ i ≤ m.leftIndex + ys.length then ys[i - (m.leftIndex + 1)]?
      else db.listsDataCF.get ⟨key, updateVersion m.version now, i⟩ := by
  have hv : updateVersion m.version now ≠ m.version := (lt_updateVersion _ _).ne'
  simp only [insertBatch, listsDataCF_write_meta, List.filterMap_append, SortedMap.apply_append]
  rw [get_putElements_self _ hb', get_deleteElements_of_ne _ hb hv]

theorem represents_insertBatch (ys : List Bytes)
    (hvacant : Vacant db key (updateVersion m.version now))
    (hb : m.leftIndex + m.count < 2 ^ 64) (hb' : m.leftIndex + ys.length < 2 ^ 64) :
    Represents (db.write (insertBatch key m ys now)) key
      { m with version := updateVersion m.version now, count := ys.length
               rightIndex := wrapU64 (m.leftIndex + ys.length) } ys := by
  refine ⟨rfl, wrapU64_of_lt hb', fun i ↦ ?_⟩
  dsimp only
  rw [get_insertBatch ys hb hb', hvacant i]
  split_ifs with h₁
  · exact (window_eq_of_le h₁.1).symm
  · exact (window_eq_none (by omega)).symm

theorem represents_trim (h : Represents db key m xs) {start stop : ℕ} (hle : start ≤ stop)
    (hstop : stop ≤ m.count) (hb : m.leftIndex + m.count < 2 ^ 64) :
    Represents
      (db.write (deleteElements key m.version m.leftIndex start
        ++ deleteElements key m.version (m.leftIndex + stop) (m.count - stop)
        ++ [.metaCF key (some (.list { m with
          count := stop - start
          leftIndex := m.leftIndex + start
          rightIndex := m.leftIndex + start + (stop - start) }))])) key
      { m with count := stop - start
               leftIndex := m.leftIndex + start
               rightIndex := m.leftIndex + start + (stop - start) }
      ((xs.take stop).drop start) := by
  have hcount := h.count
  refine ⟨?_, rfl, fun i ↦ ?_⟩
  · simp only [List.length_drop, List.length_take]
    omega
  · simp only [listsDataCF_write_meta, List.filterMap_append, SortedMap.apply_append]
    rw [get_deleteElements_self _ (by omega), get_deleteElements_self _ (by omega), h.rows]
    unfold window
    rw [List.getElem?_drop, List.getElem?_take]
    split_ifs <;> first | rfl | omega | (congr 1; omega) | (rw [List.getElem?_eq_none]; omega)

end Updates

/-! ### One operation -/

section Steps

variable {now : ℕ} {m : ListsMetaValue}

section

variable (h : Inv t p db)

include h

theorem Inv.mono (ht : t ≤ t') (hp : p ≤ p') : Inv t' p' db :=
  ⟨fun hm ↦ ⟨(h.metaRows hm).1.trans ht, fun hc ↦
    ⟨((h.metaRows hm).2 hc).1, ((h.metaRows hm).2 hc).2.mono hp⟩⟩,
    fun hx ↦ (h.dataRows hx).trans ht⟩

theorem Inv.vacant {v : ℕ} (hv : t < v) : Vacant db key v := by
  refine fun i ↦ Option.eq_none_iff_forall_ne_some.2 fun x hx ↦ ?_
  have := h.dataRows hx
  omega

theorem Inv.found (hm : db.listMeta key now = .ok (some m)) :
    m.version ≤ t ∧ Within p m ∧ ∃ xs, Represents db key m xs := by
  have hget := (Redis.liveMeta_eq_some_iff.1 (Redis.listMeta_eq_ok_some_iff.1 hm)).1
  obtain ⟨hv, hlist⟩ := h.metaRows hget
  obtain ⟨hxs, hw⟩ := hlist (count_ne_zero_of_listMeta hm)
  exact ⟨hv, hw, hxs⟩

/-- The list before a push, which is a new and empty one when there was none: nothing is stored
under the version that a push at the head moves it to. -/
theorem Inv.pushable (hnow : t < now) {found : Option ListsMetaValue}
    (hm : db.listMeta key now = .ok found) :
    ∃ xs, (found.getD (newListMeta now)).count = xs.length ∧
      Holds db key (found.getD (newListMeta now)).version (found.getD (newListMeta now)).leftIndex
        xs ∧
      Within p (found.getD (newListMeta now)) ∧
      ((found.getD (newListMeta now)).count ≠ 0 →
        Vacant db key (updateVersion (found.getD (newListMeta now)).version now)) := by
  rcases found with _ | m
  · have hzero : updateVersion 0 now = now := updateVersion_of_lt (by omega)
    refine ⟨[], rfl, fun i ↦ ?_, ⟨?_, ?_⟩, fun hc ↦ absurd rfl hc⟩
    · rw [window_nil]
      show db.listsDataCF.get ⟨key, updateVersion 0 now, i⟩ = none
      rw [hzero]
      exact h.vacant hnow i
    · show 2 ^ 63 - 1 ≤ ListsMetaValue.initialLeftIndex + p
      rw [ListsMetaValue.initialLeftIndex]
      omega
    · show ListsMetaValue.initialLeftIndex + 0 ≤ 2 ^ 63 - 1 + p
      rw [ListsMetaValue.initialLeftIndex]
      omega
  · obtain ⟨hv, hw, xs, hxs⟩ := h.found hm
    refine ⟨xs, hxs.count, hxs.rows, hw, fun _ ↦ ?_⟩
    show Vacant db key (updateVersion m.version now)
    rw [updateVersion_of_lt (by omega)]
    exact h.vacant hnow

/-- A push of `n` elements uses `n` of the budget. -/
theorem inv_pushCore (hnow : t < now) (values : List Bytes)
    (position allowCreate : Bool) (hp : p + values.length < 2 ^ 62) :
    Inv now (p + values.length) ((pushCore key values position allowCreate now).exec db).2 := by
  rw [exec_pushCore]
  rcases hm : db.listMeta key now with e | found
  · exact h.mono hnow.le (by omega)
  dsimp only
  split_ifs with hempty hcreate
  · exact h.mono hnow.le (by omega)
  · exact h.mono hnow.le (by omega)
  obtain ⟨xs, hcount, hrows, hw, hvacant⟩ := h.pushable hnow hm
  have hversion := @version_pushed S _ db key values position now _ hm
  generalize hm' : found.getD (newListMeta now) = m at *
  have hle : (pushed db key values position m now).2.version ≤ now := by
    rw [hversion]
    rcases found with _ | m₀
    · exact (updateVersion_of_lt (show 0 < now by omega)).le
    · have hv := (h.found hm).1
      rw [Option.elim_some]
      split_ifs
      · exact (updateVersion_of_lt (by omega)).le
      · omega
  refine h.write hnow.le (by omega) ((meets_pushed hle).append (meets_meta trivial)) fun m' hm'' ↦ ?_
  rw [Redis.get_metaCF_write_append] at hm''
  obtain rfl := MetaValue.list.inj (Option.some.inj hm'')
  refine ⟨hle, fun _ ↦ ?_⟩
  have hlo := hw.lower
  have hhi := hw.upper
  cases position with
  | false =>
    refine ⟨⟨_, represents_pushRight hcount hrows (by omega)⟩, ?_, ?_⟩
    · show 2 ^ 63 - 1 ≤ m.leftIndex + (p + values.length)
      omega
    · show m.leftIndex + wrapU64 (m.count + values.length) ≤ 2 ^ 63 - 1 + (p + values.length)
      rw [wrapU64_of_lt (by omega)]
      omega
  | true =>
    have hsub : subU64 m.leftIndex values.length = m.leftIndex - values.length :=
      subU64_of_le (by omega) (by omega)
    have hwrap : wrapU64 (m.count + values.length) = m.count + values.length :=
      wrapU64_of_lt (by omega)
    refine ⟨⟨_, represents_pushLeft hcount hrows hvacant (by omega) (by omega)⟩, ?_, ?_⟩
    · simp only [pushed, pushLeft, if_true]
      split_ifs <;> simp only [hsub] <;> omega
    · simp only [pushed, pushLeft, if_true]
      split_ifs <;> simp only [hsub, hwrap] <;> omega

/-- An operation that replaces a list it found by one of no more elements in the same window, under
the same version. -/
theorem Inv.shrink (hm : db.listMeta key now = .ok (some m))
    (hb : Meets [key] (fun _ _ ↦ True) (fun _ v ↦ v = m.version) b)
    (hmeta : ∀ m', (db.write b).metaCF.get key = some (.list m') → m'.version = m.version ∧
      m.leftIndex ≤ m'.leftIndex ∧ m'.leftIndex + m'.count ≤ m.leftIndex + m.count ∧
        ∃ ys, Represents (db.write b) key m' ys) : Inv t p (db.write b) := by
  obtain ⟨hv, hw, -⟩ := h.found hm
  refine h.write le_rfl le_rfl (hb.mono (fun _ _ hm ↦ hm) fun _ _ hv' ↦ hv'.trans_le hv)
    fun m' hm' ↦ ?_
  obtain ⟨hv', hleft, hright, hys⟩ := hmeta m' hm'
  have hlo := hw.lower
  have hhi := hw.upper
  exact ⟨hv'.trans_le hv, fun _ ↦ ⟨hys, by omega, by omega⟩⟩

end

theorem Within.bound (h : Within p m) (hp : p < 2 ^ 62) : m.leftIndex + m.count < 2 ^ 64 := by
  have := h.upper
  omega

theorem get_metaCF_putOrDeleteMeta {m' m'' : ListsMetaValue}
    (h : (db.write (b ++ [putOrDeleteMeta key m'])).metaCF.get key = some (.list m'')) :
    m'' = m' := by
  rw [putOrDeleteMeta, Redis.get_metaCF_write_append] at h
  split_ifs at h
  exact (MetaValue.list.inj (Option.some.inj h)).symm

section

variable (h : Inv t p db) (hp : p < 2 ^ 62) (count : Option ℕ)

include h hp

theorem inv_lpop : Inv t p ((lpop key count now).exec db).2 := by
  rw [exec_lpop]
  rcases hm : db.listMeta key now with e | (_ | m)
  · exact h
  · exact h
  obtain ⟨hv, hw, xs, hxs⟩ := h.found hm
  have hb := hw.bound hp
  have hn : min (count.getD 1) m.count ≤ m.count := Nat.min_le_right _ _
  dsimp only
  generalize min (count.getD 1) m.count = n at hn
  have hwrap : wrapU64 (m.leftIndex + n) = m.leftIndex + n := wrapU64_of_lt (by omega)
  refine h.shrink hm (meets_popBatch trivial (key_of_mem_headRows m n)) fun m' hm' ↦ ?_
  obtain rfl := get_metaCF_putOrDeleteMeta hm'
  refine ⟨rfl, ?_, ?_, _, represents_lpop hxs hn hb⟩
  · simp only [ListsMetaValue.setCount, ListsMetaValue.setLeftIndex, hwrap]
    omega
  · simp only [ListsMetaValue.setCount, ListsMetaValue.setLeftIndex, hwrap]
    omega

theorem inv_rpopInternal : Inv t p ((rpopInternal key count now).exec db).2 := by
  rw [exec_rpopInternal]
  rcases hm : db.listMeta key now with e | (_ | m)
  · exact h
  · exact h
  obtain ⟨hv, hw, xs, hxs⟩ := h.found hm
  have hn : min (count.getD 1) m.count ≤ m.count := Nat.min_le_right _ _
  dsimp only
  generalize min (count.getD 1) m.count = n at hn
  refine h.shrink hm (meets_popBatch trivial (key_of_mem_tailRows m n)) fun m' hm' ↦ ?_
  obtain rfl := get_metaCF_putOrDeleteMeta hm'
  refine ⟨rfl, le_rfl, ?_, _, represents_rpop hxs hn (hw.bound hp)⟩
  simp only [ListsMetaValue.setCount, ListsMetaValue.setRightIndex]
  omega

end

theorem Within.count_lt (h : Within p m) (hp : p < 2 ^ 62) : m.count < 2 ^ 63 := by
  have hlo := h.lower
  have hhi := h.upper
  omega

theorem inv_lset (h : Inv t p db) (hp : p < 2 ^ 62) (index : ℤ) (value : Bytes) :
    Inv t p ((lset key index value now).exec db).2 := by
  rw [exec_lset]
  rcases hm : db.listMeta key now with e | (_ | m)
  · exact h
  · exact h
  dsimp only
  split_ifs with hin
  · obtain ⟨hv, hw, xs, hxs⟩ := h.found hm
    rw [inBounds, Bool.and_eq_true, decide_eq_true_iff, decide_eq_true_iff,
      asI64_of_lt (hw.count_lt hp)] at hin
    have hcount := hw.count_lt hp
    have hi : asU64 (realIndex m index) < m.count := by
      rw [asU64_of_nonneg hin.1 (by omega)]
      omega
    refine h.shrink hm (meets_singleton (List.mem_singleton_self _) rfl) fun m' hm' ↦ ?_
    -- the meta row is the one that was found
    have hget := (Redis.liveMeta_eq_some_iff.1 (Redis.listMeta_eq_ok_some_iff.1 hm)).1
    obtain rfl : m = m' := MetaValue.list.inj (Option.some.inj (hget.symm.trans hm'))
    exact ⟨rfl, le_rfl, le_rfl, _, represents_lset hxs hi value (hw.bound hp)⟩
  · exact h

omit [LinearOrder S] in
theorem trimBatch_cases (hpos : m.count ≠ 0) (hcount : m.count < 2 ^ 63)
    (hb : m.leftIndex + m.count < 2 ^ 64) (start stop : ℤ) :
    realStop m.count stop < realStart m.count start ∧ (trimBatch key m start stop : Batch S) =
        deleteElements key m.version m.leftIndex m.count ++ [.metaCF key none] ∨
      ∃ a b : ℕ, realStart m.count start = a ∧ realStop m.count stop + 1 = b ∧ a < b ∧
        b ≤ m.count ∧ (trimBatch key m start stop : Batch S) =
          deleteElements key m.version m.leftIndex a
            ++ deleteElements key m.version (m.leftIndex + b) (m.count - b)
            ++ [.metaCF key (some (.list { m with
              count := b - a
              leftIndex := m.leftIndex + a
              rightIndex := m.leftIndex + a + (b - a) }))] := by
  unfold trimBatch
  rw [asI64_of_lt hcount]
  dsimp only
  have hstop : realStop m.count stop < m.count := by
    unfold realStop
    split_ifs <;> omega
  have hstart : 0 ≤ realStart m.count start ∧ realStart m.count start < m.count := by
    unfold realStart
    split_ifs <;> omega
  generalize realStart m.count start = a at hstart
  generalize realStop m.count stop = b at hstop
  split_ifs with hempty
  · exact Or.inl ⟨by omega, rfl⟩
  · right
    refine ⟨a.toNat, (b + 1).toNat, by omega, by omega, by omega, by omega, ?_⟩
    have hlen : (b - a + 1).toNat = (b + 1).toNat - a.toNat := by omega
    have hrest : ((m.count : ℤ) - (b + 1)).toNat = m.count - (b + 1).toNat := by omega
    rw [asU64_of_nonneg (by omega) (by omega), asU64_of_nonneg (by omega) (by omega), hlen, hrest,
      wrapU64_of_lt (show m.leftIndex + a.toNat < 2 ^ 64 by omega), wrapU64_of_lt (by omega)]

section

variable (h : Inv t p db)

include h

theorem inv_ltrim (hp : p < 2 ^ 62) (start stop : ℤ) :
    Inv t p ((ltrim key start stop now).exec db).2 := by
  rw [exec_ltrim]
  rcases hm : db.listMeta key now with e | (_ | m)
  · exact h
  · exact h
  obtain ⟨hv, hw, xs, hxs⟩ := h.found hm
  dsimp only
  have hcases : _ ∧ (trimBatch key m start stop : Batch S) = _ ∨ _ :=
    trimBatch_cases (count_ne_zero_of_listMeta hm) (hw.count_lt hp) (hw.bound hp) start stop
  rcases hcases with ⟨-, hb⟩ | ⟨a, b, -, -, hab, hbc, hb⟩
  · rw [hb]
    refine h.shrink hm ((meets_deleteElements _ _ _).append (meets_deleteMeta key))
      fun m' hm' ↦ ?_
    rw [Redis.get_metaCF_write_append] at hm'
    cases hm'
  · rw [hb]
    refine h.shrink hm (((meets_deleteElements _ _ _).append (meets_deleteElements _ _ _)).append
      (meets_meta trivial)) fun m' hm' ↦ ?_
    rw [Redis.get_metaCF_write_append] at hm'
    obtain rfl := MetaValue.list.inj (Option.some.inj hm')
    refine ⟨rfl, Nat.le_add_right _ _, ?_, _, represents_trim hxs hab.le hbc (hw.bound hp)⟩
    show m.leftIndex + a + (b - a) ≤ _
    omega

theorem inv_lrem (hp : p < 2 ^ 62) (count : ℤ) (value : Bytes) :
    Inv t p ((lrem key count value now).exec db).2 := by
  rw [exec_lrem]
  rcases hm : db.listMeta key now with e | (_ | m)
  · exact h
  · exact h
  obtain ⟨hv, hw, xs, hxs⟩ := h.found hm
  have hb := hw.bound hp
  have hcount := hxs.count
  have hread : readElements db key m.version m.leftIndex m.count = xs := by
    rw [hcount]
    exact readElements_eq hxs.rows (by omega)
  have hle := length_removeValue_le count value xs
  dsimp only
  rw [hread]
  generalize removeValue count value xs = r at hle
  split_ifs
  · refine h.shrink hm (meets_remBatch (fun _ _ _ ↦ trivial) rfl _) fun m' hm' ↦ ?_
    obtain rfl := get_metaCF_putOrDeleteMeta hm'
    refine ⟨rfl, le_rfl, ?_, _, represents_remBatch hxs hle hb⟩
    show m.leftIndex + r.1.length ≤ _
    omega
  · exact h

theorem inv_linsert (hnow : t < now) (hp : p + 1 < 2 ^ 62)
    (beforeOrAfter : BeforeOrAfter) (pivot value : Bytes) :
    Inv now (p + 1) ((linsert key beforeOrAfter pivot value now).exec db).2 := by
  rw [exec_linsert]
  rcases hm : db.listMeta key now with e | (_ | m)
  · exact h.mono hnow.le (by omega)
  · exact h.mono hnow.le (by omega)
  obtain ⟨hv, hw, xs, hxs⟩ := h.found hm
  have hb := hw.bound (show p < 2 ^ 62 by omega)
  have hcount := hxs.count
  have hlo := hw.lower
  have hhi := hw.upper
  have hread : (readIndexed db key m.version m.leftIndex m.count).map Prod.snd = xs := by
    rw [map_snd_readIndexed, hcount]
    exact readElements_eq hxs.rows (by omega)
  dsimp only
  rw [hread]
  rcases lastIndexOf pivot (readIndexed db key m.version m.leftIndex m.count) with _ | i
  · exact h.mono hnow.le (by omega)
  dsimp only
  have hlen : (xs.insertIdx (insertPosition beforeOrAfter i) value).length ≤ xs.length + 1 := by
    rw [List.length_insertIdx]
    split_ifs <;> omega
  generalize xs.insertIdx (insertPosition beforeOrAfter i) value = ys at hlen
  have hversion : updateVersion m.version now = now := updateVersion_of_lt (by omega)
  refine h.write hnow.le (by omega) (meets_insertBatch (fun _ _ _ ↦ trivial) hversion.le ys)
    fun m' hm' ↦ ?_
  rw [insertBatch, Redis.get_metaCF_write_append] at hm'
  obtain rfl := MetaValue.list.inj (Option.some.inj hm')
  refine ⟨hversion.le, fun _ ↦ ⟨⟨ys, represents_insertBatch ys ?_ hb (by omega)⟩, ?_, ?_⟩⟩
  · rw [hversion]
    exact h.vacant hnow
  · show 2 ^ 63 - 1 ≤ m.leftIndex + (p + 1)
    omega
  · show m.leftIndex + ys.length ≤ _
    omega

theorem inv_delKey (hnow : t < now) : Inv now p ((Strings.delKey key now).exec db).2 := by
  rw [Strings.exec_delKey]
  rcases hm : db.liveMeta key now with _ | m
  · exact h.mono hnow.le le_rfl
  refine h.write hnow.le le_rfl (meets_anyMeta (fun _ ↦ trivial) _) fun m' hm' ↦ ?_
  have hget := Redis.get_metaCF_write_append db [] key (Strings.deletedMeta now m)
  rw [List.nil_append, hm'] at hget
  -- only a list leaves a list, and it is empty
  rcases m with v | m | m
  · cases hget
  · cases hget
  · obtain rfl := MetaValue.list.inj (Option.some.inj hget)
    have hv := (h.metaRows (Redis.liveMeta_eq_some_iff.1 hm).1).1
    exact ⟨(updateVersion_of_lt (by omega)).le, fun hc ↦ absurd rfl hc⟩

theorem inv_rpoplpush (hnow : t < now) (hp : p + 1 < 2 ^ 62) (source destination : Bytes) :
    Inv now (p + 1) ((rpoplpush source destination now).exec db).2 := by
  have hpop : Inv t p ((rpopInternal source none now).exec db).2 :=
    inv_rpopInternal h (by omega) none
  rw [exec_rpoplpush_snd]
  generalize (rpopInternal source none now).exec db = r at hpop
  rcases r with ⟨_ | (_ | ⟨_ | ⟨value, rest⟩⟩), db'⟩
  · exact hpop.mono hnow.le (by omega)
  · exact hpop.mono hnow.le (by omega)
  · exact hpop.mono hnow.le (by omega)
  · exact inv_pushCore hpop hnow [value] true true hp

end

end Steps

/-! ### Runs -/

/-- The operations on lists, and deletion. -/
inductive Command
  /-- `push_core`: at the head if `position` is set, and for lists that do not exist only if
  `allowCreate` is set. -/
  | push (key : Bytes) (values : List Bytes) (position allowCreate : Bool)
  | lpop (key : Bytes) (count : Option ℕ)
  | rpop (key : Bytes) (count : Option ℕ)
  | lset (key : Bytes) (index : ℤ) (value : Bytes)
  | ltrim (key : Bytes) (start stop : ℤ)
  | lrem (key : Bytes) (count : ℤ) (value : Bytes)
  | linsert (key : Bytes) (beforeOrAfter : BeforeOrAfter) (pivot value : Bytes)
  | rpoplpush (source destination : Bytes)
  | delKey (key : Bytes)

namespace Command

/-- What a command leaves. -/
def step (db : Redis S) (now : ℕ) : Command → Redis S
  | push key values position allowCreate => ((pushCore key values position allowCreate now).exec db).2
  | lpop key count => ((Lists.lpop key count now).exec db).2
  | rpop key count => ((Lists.rpop key count now).exec db).2
  | lset key index value => ((Lists.lset key index value now).exec db).2
  | ltrim key start stop => ((Lists.ltrim key start stop now).exec db).2
  | lrem key count value => ((Lists.lrem key count value now).exec db).2
  | linsert key beforeOrAfter pivot value =>
    ((Lists.linsert key beforeOrAfter pivot value now).exec db).2
  | rpoplpush source destination => ((Lists.rpoplpush source destination now).exec db).2
  | delKey key => ((Strings.delKey key now).exec db).2

/-- How many elements a command adds at most. -/
def pushes : Command → ℕ
  | push _ values _ _ => values.length
  | linsert .. => 1
  | rpoplpush .. => 1
  | _ => 0

end Command

theorem inv_step {now : ℕ} (h : Inv t p db) (hnow : t < now) (c : Command)
    (hp : p + c.pushes < 2 ^ 62) : Inv now (p + c.pushes) (c.step db now) := by
  cases c with
  | push key values position allowCreate => exact inv_pushCore h hnow values position allowCreate hp
  | lpop key count => exact (inv_lpop h hp count).mono hnow.le le_rfl
  | rpop key count =>
    rw [Command.step, exec_rpop_snd]
    exact (inv_rpopInternal h hp count).mono hnow.le le_rfl
  | lset key index value => exact (inv_lset h hp index value).mono hnow.le le_rfl
  | ltrim key start stop => exact (inv_ltrim h hp start stop).mono hnow.le le_rfl
  | lrem key count value => exact (inv_lrem h hp count value).mono hnow.le le_rfl
  | linsert key beforeOrAfter pivot value =>
    exact inv_linsert h hnow hp beforeOrAfter pivot value
  | rpoplpush source destination => exact inv_rpoplpush h hnow hp source destination
  | delKey key => exact inv_delKey h hnow

theorem inv_final {steps : List (ℕ × Command)} (h : Inv t p db)
    (hclock : Run.Allowed (Run.tick Command.step) Run.Advances (t, db) steps)
    (hp : p + (steps.map fun a ↦ a.2.pushes).sum < 2 ^ 62) :
    ∃ t' p', Inv t' p' (Run.final (Run.tick Command.step) (t, db) steps).2 := by
  induction steps generalizing t p db with
  | nil => exact ⟨t, p, h⟩
  | cons a steps ih =>
    rw [List.map_cons, List.sum_cons] at hp
    exact ih (inv_step h hclock.1 a.2 (by omega)) hclock.2 (by omega)

/-- **Lists are windows.** In every state reached from the empty database on an advancing clock,
with fewer than `2 ^ 62` elements pushed altogether, a live list is not empty, its right index is
its left index plus its count, and the rows under its version are at the indexes after the left
index up to the right one, and at no others. -/
theorem rows_of_live_list_eq_window (steps : List (ℕ × Command))
    (hclock : Run.Allowed (Run.tick Command.step) Run.Advances (0, (Redis.empty : Redis S)) steps)
    (hpushes : (steps.map fun a ↦ a.2.pushes).sum < 2 ^ 62) (key : Bytes) (m : ListsMetaValue)
    (now : ℕ) (hm : (Run.final (Run.tick Command.step) (0, (Redis.empty : Redis S)) steps).2.liveMeta
      key now = some (.list m)) :
    0 < m.count ∧ m.rightIndex = m.leftIndex + m.count ∧
      ∀ i, ((Run.final (Run.tick Command.step) (0, (Redis.empty : Redis S)) steps).2.listsDataCF.get
        ⟨key, m.version, i⟩).isSome ↔ m.leftIndex + 1 ≤ i ∧ i ≤ m.leftIndex + m.count := by
  obtain ⟨t, p, h⟩ := inv_final inv_empty hclock (by omega)
  have hfound := Redis.listMeta_eq_ok_some_iff.2 hm
  obtain ⟨-, -, xs, hxs⟩ := h.found hfound
  refine ⟨Nat.pos_of_ne_zero (count_ne_zero_of_listMeta hfound), hxs.right, fun i ↦ ?_⟩
  rw [hxs.rows, isSome_window_iff, hxs.count]

/-- A list that is pushed to at both ends, inserted into, trimmed and moved to another key. -/
def pushInsertTrimMove : List (ℕ × Command) :=
  [(1, .push [1] [[97], [98]] true true), (2, .push [1] [[99], [97]] false true),
    (3, .linsert [1] .after [98] [100]), (4, .lrem [1] 1 [97]), (5, .ltrim [1] 0 (-2)),
    (6, .rpoplpush [1] [2]), (7, .lpop [1] none)]

/-- The list that is left at the first key after the run: one element, in a window that has
moved. -/
theorem rows_of_live_list_eq_window_pushInsertTrimMove :
    ∃ m : ListsMetaValue, m.count = 1 ∧
      (Run.final (Run.tick Command.step) (0, (Redis.empty : Redis ℤ)) pushInsertTrimMove).2.liveMeta
        [1] 8 = some (.list m) ∧
      ∀ i, ((Run.final (Run.tick Command.step) (0, (Redis.empty : Redis ℤ))
        pushInsertTrimMove).2.listsDataCF.get ⟨[1], m.version, i⟩).isSome ↔
          m.leftIndex + 1 ≤ i ∧ i ≤ m.leftIndex + m.count := by
  have hrun : (Run.final (Run.tick Command.step) (0, (Redis.empty : Redis ℤ))
      pushInsertTrimMove).2.liveMeta [1] 8 = some (.list ⟨1, 3, 2 ^ 63 - 2, 2 ^ 63 - 1, 0, 0⟩) := by
    decide +kernel
  refine ⟨_, ?_, hrun, ?_⟩
  · rfl
  · exact (rows_of_live_list_eq_window pushInsertTrimMove (by decide +kernel) (by decide) [1] _ 8
      hrun).2.2

end Kiwi.ListWindow
