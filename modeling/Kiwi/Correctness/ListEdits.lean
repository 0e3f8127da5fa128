import Kiwi.Correctness.ListRanges
import Mathlib.Data.Multiset.AddSub

/-!
# Inserting, removing and moving elements of a list

What `linsert`, `lrem` and `rpoplpush` make of the list at a key, each against its own statement of
what it should be: an insertion next to the first occurrence of the pivot (`insertFirst`), a removal
of as many occurrences as asked for from one end (`Removes`), and a move of the last element to the
head of another list (`Moves`).

* `linsert` goes on searching after it has found the pivot, and inserts next to the last occurrence.
  That is the right place when the pivot occurs once, and makes no difference when the value is
  another copy of the pivot in a run of such copies (`inserts_iff`).
* `lrem` takes the absolute value of its count, which for the least `i64` is no `i64`
  (`lrem_removes_iff`).
* `rpoplpush` moves elements as it should, from a list to itself too (`rpoplpush_moves`).
-/

namespace Kiwi.ListWindow

open Kiwi.Lists

variable {S : Type} [LinearOrder S] {db : Redis S} {key : Bytes} {t p now : ℕ} {m : ListsMetaValue}

/-! ### Insertion -/

section Insertion

variable {side : BeforeOrAfter} {pivot value : Bytes} {xs a b : List Bytes}

/-- A value next to a pivot. -/
def around (side : BeforeOrAfter) (pivot value : Bytes) : List Bytes :=
  match side with
  | .before => [value, pivot]
  | .after => [pivot, value]

/-- The list with a value inserted before or after the first occurrence of a pivot. -/
def insertFirst (side : BeforeOrAfter) (pivot value : Bytes) : List Bytes → List Bytes
  | [] => []
  | x :: xs =>
    if x = pivot then around side pivot value ++ xs else x :: insertFirst side pivot value xs

theorem insertFirst_of_notMem (h : pivot ∉ xs) : insertFirst side pivot value xs = xs := by
  induction xs with
  | nil => rfl
  | cons x xs ih =>
    rw [List.mem_cons, not_or] at h
    rw [insertFirst, if_neg (Ne.symm h.1), ih h.2]

theorem insertFirst_append (ha : pivot ∉ a) :
    insertFirst side pivot value (a ++ pivot :: b) = a ++ (around side pivot value ++ b) := by
  induction a with
  | nil => rw [List.nil_append, insertFirst, if_pos rfl, List.nil_append]
  | cons x a ih =>
    rw [List.mem_cons, not_or] at ha
    rw [List.cons_append, insertFirst, if_neg (Ne.symm ha.1), ih ha.2, List.cons_append]

theorem readIndexed_eq (h : Represents db key m xs) (hb : m.leftIndex + m.count < 2 ^ 64) :
    readIndexed db key m.version m.leftIndex m.count = xs.zipIdx.map Prod.swap := by
  have hcount := h.count
  have hget : ∀ i ∈ List.range m.count,
      (db.listsDataCF.get (elementKey key m.version m.leftIndex i)).map (fun x ↦ (i, x)) =
        (xs.zipIdx.map Prod.swap)[i]? := by
    intro i hi
    rw [List.mem_range] at hi
    have hplace : m.leftIndex + i + 1 - (m.leftIndex + 1) = i := by omega
    rw [elementKey_of_lt (by omega), h.rows, window_eq_of_le (by omega), hplace, List.getElem?_map,
      List.getElem?_zipIdx]
    rcases xs[i]? with _ | x
    · rfl
    · simp
  have hlength : m.count = (xs.zipIdx.map Prod.swap).length := by
    rw [List.length_map, List.length_zipIdx, hcount]
  rw [readIndexed, List.filterMap_congr hget, Positions.filterMap_getElem?_range, hlength,
    List.take_length]

theorem filter_zipIdx_eq_nil {k : ℕ} (h : pivot ∉ xs) :
    ((xs.zipIdx k).map Prod.swap).filter (fun q ↦ q.2 = pivot) = [] := by
  refine List.filter_eq_nil_iff.2 fun q hq he ↦ h ?_
  obtain ⟨⟨x, i⟩, hx, rfl⟩ := List.mem_map.1 hq
  obtain rfl : x = pivot := of_decide_eq_true he
  exact List.fst_mem_of_mem_zipIdx hx

theorem lastIndexOf_of_notMem (h : pivot ∉ xs) :
    lastIndexOf pivot (xs.zipIdx.map Prod.swap) = none := by
  rw [lastIndexOf, filter_zipIdx_eq_nil h]
  rfl

theorem lastIndexOf_append (hb : pivot ∉ b) :
    lastIndexOf pivot ((a ++ pivot :: b).zipIdx.map Prod.swap) = some a.length := by
  rw [lastIndexOf, List.zipIdx_append, List.map_append, List.filter_append, List.zipIdx_cons,
    List.map_cons, List.filter_cons_of_pos (by simp), filter_zipIdx_eq_nil hb, List.getLast?_append]
  simp

theorem insertIdx_append :
    (a ++ pivot :: b).insertIdx (insertPosition side a.length) value =
      a ++ (around side pivot value ++ b) := by
  induction a with
  | nil => cases side <;> rfl
  | cons x a ih =>
    have hsucc : insertPosition side (x :: a).length = insertPosition side a.length + 1 := by
      cases side <;> rfl
    rw [hsucc, List.cons_append, List.insertIdx_succ_cons, ih, List.cons_append]

theorem exists_last_append (h : pivot ∈ xs) : ∃ a b, xs = a ++ pivot :: b ∧ pivot ∉ b := by
  obtain ⟨b, a, hxs, hb⟩ := List.eq_append_cons_of_mem (List.mem_reverse.2 h)
  refine ⟨a.reverse, b.reverse, ?_, by rwa [List.mem_reverse]⟩
  rw [← List.reverse_reverse xs, hxs, List.reverse_append, List.reverse_cons, List.append_assoc]
  rfl

theorem cons_eq_append_singleton_iff {v : Bytes} {l : List Bytes} :
    v :: l = l ++ [v] ↔ ∀ x ∈ l, x = v := by
  induction l generalizing v with
  | nil => simp
  | cons y l ih =>
    rw [List.cons_append, List.cons.injEq]
    constructor
    · rintro ⟨rfl, he⟩ x hx
      rcases List.mem_cons.1 hx with rfl | hx
      · rfl
      · exact ih.1 he x hx
    · intro hall
      obtain rfl : y = v := hall y List.mem_cons_self
      exact ⟨rfl, ih.2 fun x hx ↦ hall x (List.mem_cons_of_mem _ hx)⟩

variable {w : List Bytes}

/-- Between two occurrences of the pivot, it does not matter at which of them the value is inserted
exactly when there are only copies of the value. -/
theorem around_append_eq_iff (side : BeforeOrAfter) (b : List Bytes) :
    around side pivot value ++ (w ++ pivot :: b) = pivot :: w ++ (around side pivot value ++ b) ↔
      value = pivot ∧ ∀ x ∈ w, x = pivot := by
  have hboth : (∀ x ∈ pivot :: w, x = value) ↔ value = pivot ∧ ∀ x ∈ w, x = pivot := by
    rw [List.forall_mem_cons]
    constructor
    · rintro ⟨rfl, hw⟩
      exact ⟨rfl, hw⟩
    · rintro ⟨rfl, hw⟩
      exact ⟨rfl, hw⟩
  cases side with
  | before =>
    rw [← hboth, ← cons_eq_append_singleton_iff]
    have hleft : around .before pivot value ++ (w ++ pivot :: b) =
        (value :: (pivot :: w)) ++ (pivot :: b) := rfl
    have hright : pivot :: w ++ (around .before pivot value ++ b) =
        ((pivot :: w) ++ [value]) ++ (pivot :: b) := by
      simp [around]
    rw [hleft, hright, List.append_left_inj]
  | after =>
    have hmem : (∀ x ∈ w ++ [pivot], x = value) ↔ ∀ x ∈ pivot :: w, x = value := by
      rw [List.forall_mem_append, List.forall_mem_singleton, List.forall_mem_cons, and_comm]
    rw [← hboth, ← hmem, ← cons_eq_append_singleton_iff]
    have hleft : around .after pivot value ++ (w ++ pivot :: b) =
        pivot :: ((value :: (w ++ [pivot])) ++ b) := by
      simp [around]
    have hright : pivot :: w ++ (around .after pivot value ++ b) =
        pivot :: ((w ++ [pivot] ++ [value]) ++ b) := by
      simp [around]
    rw [hleft, hright, List.cons.injEq, List.append_left_inj]
    simp

/-- The occurrences of the pivot are next to each other: after the first run of them there is no
other. -/
def OneRun (pivot : Bytes) (xs : List Bytes) : Prop :=
  pivot ∉ (xs.dropWhile fun x ↦ x ≠ pivot).dropWhile fun x ↦ x = pivot

theorem oneRun_iff (ha : pivot ∉ a) (hb : pivot ∉ b) :
    OneRun pivot (a ++ pivot :: (w ++ pivot :: b)) ↔ ∀ x ∈ w, x = pivot := by
  have hfirst : (a ++ pivot :: (w ++ pivot :: b)).dropWhile (fun x ↦ x ≠ pivot) =
      pivot :: (w ++ pivot :: b) := by
    rw [List.dropWhile_append_of_pos fun x hx ↦
      decide_eq_true (ne_of_mem_of_not_mem hx ha)]
    exact List.dropWhile_cons_of_neg (by simp)
  rw [OneRun, hfirst, List.dropWhile_cons_of_pos (by simp), List.dropWhile_append]
  have hall : w.dropWhile (fun x ↦ x = pivot) = [] ↔ ∀ x ∈ w, x = pivot := by
    simp [List.dropWhile_eq_nil_iff]
  rw [← hall]
  split_ifs with hempty
  · refine iff_of_true (fun hin ↦ hb ?_) (List.isEmpty_iff.1 hempty)
    rw [List.dropWhile_cons_of_pos (by simp)] at hin
    exact (List.dropWhile_sublist _).subset hin
  · -- the run ends before the last occurrence
    refine iff_of_false (not_not.2 ?_) fun hnil ↦ hempty (List.isEmpty_iff.2 hnil)
    exact List.mem_append_right _ List.mem_cons_self

/-- `linsert` inserts the value next to the first occurrence of the pivot and answers the new
length, or does nothing and answers `-1`. -/
structure Inserts (db : Redis S) (key : Bytes) (side : BeforeOrAfter) (pivot value : Bytes)
    (now : ℕ) : Prop where
  answer : ((linsert key side pivot value now).exec db).1 =
    .ok (if pivot ∈ listOf db key now then ((listOf db key now).length + 1 : ℤ) else -1)
  /-- The list that is left, which is the list itself if the pivot does not occur. -/
  list : listOf ((linsert key side pivot value now).exec db).2 key now =
    insertFirst side pivot value (listOf db key now)

section

variable (side : BeforeOrAfter) (value : Bytes) (h : Inv t p db)

include h

theorem exec_linsert_of_notMem (hp : p < 2 ^ 62) (hm : db.listMeta key now = .ok (some m))
    (hpivot : pivot ∉ listOf db key now) :
    (linsert key side pivot value now).exec db = (.ok (-1), db) := by
  obtain ⟨-, hw, hxs, -, -⟩ := h.found_list hp hm
  rw [exec_linsert, hm]
  dsimp only
  rw [readIndexed_eq hxs (hw.bound hp), lastIndexOf_of_notMem hpivot]

/-- `linsert` inserts next to the last occurrence of the pivot. -/
theorem exec_linsert_of_append (hp : p + 1 < 2 ^ 62)
    (hm : db.listMeta key now = .ok (some m))
    (hlist : listOf db key now = a ++ pivot :: b) (hb : pivot ∉ b) :
    ((linsert key side pivot value now).exec db).1 = .ok ((listOf db key now).length + 1 : ℤ) ∧
      listOf ((linsert key side pivot value now).exec db).2 key now =
        a ++ (around side pivot value ++ b) := by
  obtain ⟨-, hw, hxs, hcount, -⟩ := h.found_list (by omega) hm
  have hlo := hw.lower
  have hhi := hw.upper
  have hbound := hw.bound (show p < 2 ^ 62 by omega)
  have hlast := lastIndexOf_append (a := a) hb
  rw [hlist] at hxs hcount ⊢
  have hlength : (a ++ (around side pivot value ++ b)).length = (a ++ pivot :: b).length + 1 := by
    cases side <;> simp [around] <;> omega
  have hexec : (linsert key side pivot value now).exec db =
      (.ok (asI64 (a ++ (around side pivot value ++ b)).length),
        db.write (insertBatch key m (a ++ (around side pivot value ++ b)) now)) := by
    have hrows : (readIndexed db key m.version m.leftIndex m.count).map Prod.snd =
        a ++ pivot :: b := by
      rw [map_snd_readIndexed, hcount]
      exact readElements_eq hxs.rows (by omega)
    rw [exec_linsert, hm]
    dsimp only
    rw [hrows, readIndexed_eq hxs hbound, hlast]
    dsimp only
    rw [insertIdx_append]
  rw [hexec]
  constructor
  · rw [asI64_of_lt (by omega), hlength, Nat.cast_add, Nat.cast_one]
  · have hmeta : (db.write (insertBatch key m (a ++ (around side pivot value ++ b)) now)).metaCF.get
        key = some (.list { m with
          version := updateVersion m.version now
          count := (a ++ (around side pivot value ++ b)).length
          rightIndex := wrapU64 (m.leftIndex + (a ++ (around side pivot value ++ b)).length) }) :=
      Redis.get_metaCF_write_append _ _ _ _
    refine listOf_of_covers (listMeta_of_written hm hmeta rfl ?_) rfl (fun i hi hi' ↦ ?_) ?_
    · show (a ++ (around side pivot value ++ b)).length ≠ 0
      omega
    · -- all elements are put, so it does not matter what else the new version has
      exact (get_insertBatch _ hbound (by omega) i).trans
        ((if_pos ⟨hi, hi'⟩).trans (window_eq_of_le hi).symm)
    · show m.leftIndex + (a ++ (around side pivot value ++ b)).length < 2 ^ 64
      omega

end

/-- **Insertion.** For a list that is not empty, `linsert` inserts next to the first occurrence of
the pivot exactly when the pivot occurs at most once, or when the value is another copy of the pivot
and all its occurrences are next to each other. -/
theorem inserts_iff (db : Redis S) (t p now : ℕ) (h : Inv t p db)
    (hp : p + 1 < 2 ^ 62) (key : Bytes) (hne : listOf db key now ≠ []) (side : BeforeOrAfter)
    (pivot value : Bytes) :
    Inserts db key side pivot value now ↔
      (listOf db key now).count pivot ≤ 1 ∨
        value = pivot ∧ OneRun pivot (listOf db key now) := by
  obtain ⟨m, hm⟩ := exists_meta_of_listOf_ne_nil hne
  by_cases hin : pivot ∈ listOf db key now
  · obtain ⟨a, r, hlist, ha⟩ := List.eq_append_cons_of_mem hin
    by_cases hr : pivot ∈ r
    · -- the value goes to the last occurrence, which is another one
      obtain ⟨w, b, rfl, hb⟩ := exists_last_append hr
      have hlist' : listOf db key now = (a ++ pivot :: w) ++ pivot :: b := by
        rw [hlist, List.append_assoc]
        rfl
      obtain ⟨hanswer, hleft⟩ :=
        exec_linsert_of_append side value h hp hm hlist' hb
      have hcount : ¬(listOf db key now).count pivot ≤ 1 := by
        rw [hlist]
        simp only [List.count_append, List.count_cons_self]
        omega
      have hspec : insertFirst side pivot value (listOf db key now) =
          a ++ (around side pivot value ++ (w ++ pivot :: b)) := by
        rw [hlist, insertFirst_append ha]
      have hcond : (listOf db key now).count pivot ≤ 1 ∨
          value = pivot ∧ OneRun pivot (listOf db key now) ↔
            value = pivot ∧ ∀ x ∈ w, x = pivot := by
        rw [or_iff_right hcount, hlist, oneRun_iff ha hb]
      rw [hcond, ← around_append_eq_iff side b]
      rw [List.append_assoc] at hleft
      constructor
      · intro hi
        have he := hi.list
        rw [hleft, hspec] at he
        exact (List.append_right_inj a).1 he.symm
      · intro he
        refine ⟨?_, ?_⟩
        · rw [hanswer, if_pos hin]
        · rw [hleft, hspec, he]
    · -- there is one occurrence
      obtain ⟨hanswer, hleft⟩ :=
        exec_linsert_of_append side value h hp hm hlist hr
      refine iff_of_true ⟨?_, ?_⟩ (Or.inl ?_)
      · rw [hanswer, if_pos hin]
      · rw [hleft, hlist, insertFirst_append ha]
      · rw [hlist, List.count_append, List.count_cons_self, List.count_eq_zero.2 ha,
          List.count_eq_zero.2 hr]
  · have hexec := exec_linsert_of_notMem side value h (by omega) hm hin
    refine iff_of_true ⟨?_, ?_⟩ (Or.inl ?_)
    · rw [hexec, if_neg hin]
    · rw [hexec, insertFirst_of_notMem hin]
    · rw [List.count_eq_zero.2 hin]
      exact Nat.zero_le 1

/-- An insertion after the one occurrence of the pivot. -/
theorem inserts_after_second :
    listOf threeElements [1] 2 = [[97], [98], [99]] ∧
      Inserts threeElements [1] .after [98] [120] 2 := by
  have hlist : listOf threeElements [1] 2 = [[97], [98], [99]] := by decide +kernel
  refine ⟨hlist, (inserts_iff threeElements 1 3 2 inv_threeElements (by norm_num) [1]
    ?_ .after [98] [120]).2 (Or.inl ?_)⟩
  · rw [hlist]
    exact List.cons_ne_nil _ _
  · rw [hlist]
    decide

/-- Two occurrences of one element, and another element between them. -/
def twoOccurrences : Redis ℤ := ((rpush [1] [[97], [98], [97]] 1).exec Redis.empty).2

theorem inv_twoOccurrences : Inv 1 3 twoOccurrences :=
  inv_rpush_empty [1] (show [[97], [98], [97]].length < 2 ^ 62 by decide)

/-- **The last occurrence is taken**: before the first of two occurrences there is no insertion. -/
theorem linsert_before_last_occurrence :
    Inv 1 3 twoOccurrences ∧ listOf twoOccurrences [1] 2 = [[97], [98], [97]] ∧
      insertFirst .before [97] [120] [[97], [98], [97]] = [[120], [97], [98], [97]] ∧
      listOf ((linsert [1] .before [97] [120] 2).exec twoOccurrences).2 [1] 2 =
        [[97], [98], [120], [97]] :=
  ⟨inv_twoOccurrences, by decide +kernel, by decide, by decide +kernel⟩

end Insertion

/-! ### Removal -/

section Removal

variable {value : Bytes} {count : ℤ} {xs ys : List Bytes}

/-- `lrem` removes as many occurrences of the value as the count says, from the head or from the
tail, keeps everything else in order, and answers how many it has removed. -/
structure Removes (db : Redis S) (key : Bytes) (count : ℤ) (value : Bytes) (now : ℕ) : Prop where
  /-- A positive count removes the occurrences in a part at the head that has that many, or all. -/
  forward : 0 < count → ∃ a b, listOf db key now = a ++ b ∧
    listOf ((lrem key count value now).exec db).2 key now = a.filter (fun x ↦ x ≠ value) ++ b ∧
    a.count value = min count.toNat ((listOf db key now).count value)
  /-- A negative count removes the occurrences in a part at the tail that has that many, or all. -/
  backward : count < 0 → ∃ a b, listOf db key now = a ++ b ∧
    listOf ((lrem key count value now).exec db).2 key now = a ++ b.filter (fun x ↦ x ≠ value) ∧
    b.count value = min count.natAbs ((listOf db key now).count value)
  /-- The count zero removes all occurrences. -/
  all : count = 0 → listOf ((lrem key count value now).exec db).2 key now =
    (listOf db key now).filter fun x ↦ x ≠ value
  answer : ((lrem key count value now).exec db).1 = .ok ((listOf db key now).length -
    (listOf ((lrem key count value now).exec db).2 key now).length : ℤ)
  /-- The absolute value of the count, which is computed, is an `i64`. -/
  noOverflow : asI64 count.natAbs = count.natAbs

theorem filter_eq_self_of_count_eq_zero (h : xs.count value = 0) :
    xs.filter (fun x ↦ x ≠ value) = xs :=
  List.filter_eq_self.2 fun _ hx ↦
    decide_eq_true (ne_of_mem_of_not_mem hx (List.count_eq_zero.1 h))

theorem removeUpTo_spec (value : Bytes) (limit : ℤ) (xs : List Bytes) :
    ∃ a b, xs = a ++ b ∧
      (removeUpTo value limit xs).1 = a.filter (fun x ↦ x ≠ value) ++ b ∧
      (removeUpTo value limit xs).2 = a.count value ∧
      a.count value = min limit.toNat (xs.count value) := by
  induction xs generalizing limit with
  | nil => exact ⟨[], [], rfl, rfl, rfl, by simp⟩
  | cons x xs ih =>
    rw [removeUpTo]
    split_ifs with hx
    · obtain ⟨hpos, rfl⟩ := hx
      obtain ⟨a, b, rfl, hrest, hremoved, hcount⟩ := ih (limit - 1)
      refine ⟨x :: a, b, rfl, ?_, ?_, ?_⟩
      · rw [List.filter_cons_of_neg (by simp)]
        exact hrest
      · rw [List.count_cons_self, ← hremoved]
      · rw [List.count_cons_self, List.count_cons_self, hcount]
        omega
    · obtain ⟨a, b, rfl, hrest, hremoved, hcount⟩ := ih limit
      by_cases hxv : x = value
      · -- the limit has been reached
        have hlimit : limit.toNat = 0 := by
          have hnot : ¬limit > 0 := fun hpos ↦ hx ⟨hpos, hxv⟩
          omega
        rw [hlimit, Nat.zero_min] at hcount
        refine ⟨[], x :: (a ++ b), rfl, ?_, ?_, ?_⟩
        · show x :: (removeUpTo value limit (a ++ b)).1 = x :: (a ++ b)
          rw [hrest, filter_eq_self_of_count_eq_zero hcount]
        · exact hremoved.trans hcount
        · rw [hlimit, Nat.zero_min]
          rfl
      · refine ⟨x :: a, b, rfl, ?_, ?_, ?_⟩
        · rw [List.filter_cons_of_pos (by simpa using hxv)]
          exact congrArg (List.cons x) hrest
        · rw [List.count_cons_of_ne hxv]
          exact hremoved
        · rw [List.count_cons_of_ne hxv, List.count_cons_of_ne hxv]
          exact hcount

theorem length_removeValue (count : ℤ) (value : Bytes) (xs : List Bytes) :
    (removeValue count value xs).1.length + (removeValue count value xs).2 = xs.length := by
  unfold removeValue
  dsimp only
  generalize (if count = 0 then 2 ^ 63 - 1 else asI64 count.natAbs) = limit
  split_ifs
  · exact length_removeUpTo value limit xs
  · have hlength := length_removeUpTo value limit xs.reverse
    rw [List.length_reverse] at hlength ⊢
    exact hlength

theorem removeValue_eq_self (h : (removeValue count value xs).2 = 0) :
    (removeValue count value xs).1 = xs := by
  unfold removeValue at h ⊢
  dsimp only at h ⊢
  generalize (if count = 0 then 2 ^ 63 - 1 else asI64 count.natAbs) = limit at h ⊢
  split_ifs at h ⊢
  · obtain ⟨a, b, rfl, hrest, hremoved, -⟩ := removeUpTo_spec value limit xs
    rw [hrest, filter_eq_self_of_count_eq_zero (hremoved.symm.trans h)]
  · obtain ⟨a, b, hxs, hrest, hremoved, -⟩ := removeUpTo_spec value limit xs.reverse
    rw [hrest, filter_eq_self_of_count_eq_zero (hremoved.symm.trans h), ← hxs, List.reverse_reverse]

/-- What `lrem` writes back is the list that is found afterwards. -/
theorem listOf_remBatch (hm : db.listMeta key now = .ok (some m)) (h : Represents db key m xs)
    (hys : ys.length ≤ xs.length) (hb : m.leftIndex + m.count < 2 ^ 64) :
    listOf (db.write (remBatch key m ys)) key now = ys := by
  have hcount := h.count
  have hmeta : (db.write (remBatch key m ys)).metaCF.get key =
      if ys.length = 0 then none else some (.list ((m.setCount ys.length).setRightIndex
        (wrapU64 (m.leftIndex + ys.length)))) := Redis.get_metaCF_write_append _ _ _ _
  split_ifs at hmeta with hzero
  · rw [listOf_of_missing (listMeta_of_deleted hmeta), List.length_eq_zero_iff.1 hzero]
  · refine listOf_of_represents (listMeta_of_written hm hmeta rfl hzero)
      (represents_remBatch h hys hb) ?_
    show m.leftIndex + ys.length < 2 ^ 64
    omega

/-- What `lrem` answers, and the list it leaves. -/
theorem exec_lrem_list (h : Inv t p db) (hp : p < 2 ^ 62) (hm : db.listMeta key now = .ok (some m))
    (count : ℤ) (value : Bytes) :
    ((lrem key count value now).exec db).1 =
        .ok ((removeValue count value (listOf db key now)).2 : ℤ) ∧
      listOf ((lrem key count value now).exec db).2 key now =
        (removeValue count value (listOf db key now)).1 := by
  obtain ⟨-, hw, hxs, hcount, -⟩ := h.found_list hp hm
  have hb := hw.bound hp
  have hread : readElements db key m.version m.leftIndex m.count = listOf db key now := by
    rw [listOf, hm]
  have hle := length_removeValue_le count value (listOf db key now)
  rw [exec_lrem, hm]
  dsimp only
  rw [hread]
  split_ifs with hpos
  · exact ⟨rfl, listOf_remBatch hm hxs hle hb⟩
  · have hzero : (removeValue count value (listOf db key now)).2 = 0 := by omega
    rw [hzero, removeValue_eq_self hzero]
    exact ⟨rfl, rfl⟩

/-- The absolute value of an `i64` is an `i64`, but for that of the least. -/
theorem asI64_natAbs_eq_iff (hlo : -2 ^ 63 ≤ count) (hhi : count < 2 ^ 63) :
    asI64 count.natAbs = count.natAbs ↔ count ≠ -2 ^ 63 := by
  constructor
  · rintro he rfl
    have hlt : asI64 ((-2 ^ 63 : ℤ).natAbs : ℕ) < _ := Int.bmod_lt (by norm_num)
    rw [he] at hlt
    norm_num at hlt
  · intro hne
    exact asI64_of_lt (by omega)

/-- **Removal.** For a list that is not empty and every `i64` count, `lrem` removes as many
occurrences as asked for, without overflow, exactly when the count is not the least `i64`. -/
theorem lrem_removes_iff (db : Redis S) (t p : ℕ) (h : Inv t p db) (hp : p < 2 ^ 62) (key : Bytes)
    (now : ℕ) (hne : listOf db key now ≠ []) (count : ℤ) (hlo : -2 ^ 63 ≤ count)
    (hhi : count < 2 ^ 63) (value : Bytes) :
    Removes db key count value now ↔ count ≠ -2 ^ 63 := by
  obtain ⟨m, hm⟩ := exists_meta_of_listOf_ne_nil hne
  obtain ⟨hanswer, hleft⟩ := exec_lrem_list h hp hm count value
  obtain ⟨-, hw, -, hlength, -⟩ := h.found_list hp hm
  have hsmall := hw.count_lt hp
  rw [← asI64_natAbs_eq_iff hlo hhi]
  refine ⟨fun hr ↦ hr.noOverflow,
    fun habs ↦ ⟨fun hpos ↦ ?_, fun hneg ↦ ?_, fun hzero ↦ ?_, ?_, habs⟩⟩
  · obtain ⟨a, b, hxs, hrest, -, hcount⟩ := removeUpTo_spec value count.natAbs (listOf db key now)
    refine ⟨a, b, hxs, ?_, ?_⟩
    · rw [hleft, ← hrest, removeValue, habs]
      dsimp only
      rw [if_neg hpos.ne', if_pos hpos.le]
    · rw [hcount]
      omega
  · obtain ⟨a, b, hxs, hrest, -, hcount⟩ :=
      removeUpTo_spec value count.natAbs (listOf db key now).reverse
    have hxs' : listOf db key now = b.reverse ++ a.reverse := by
      rw [← List.reverse_append, ← hxs, List.reverse_reverse]
    refine ⟨b.reverse, a.reverse, hxs', ?_, ?_⟩
    · rw [hleft, removeValue, habs]
      dsimp only
      rw [if_neg hneg.ne, if_neg (not_le.2 hneg), hrest, List.reverse_append, List.filter_reverse]
    · rw [List.count_reverse, hcount, List.count_reverse]
      omega
  · obtain ⟨a, b, hxs, hrest, -, hcount⟩ :=
      removeUpTo_spec value (2 ^ 63 - 1) (listOf db key now)
    have hle : (listOf db key now).count value ≤ (listOf db key now).length := List.count_le_length
    have htotal := congrArg (List.count value) hxs
    rw [List.count_append] at htotal
    -- every occurrence is in the part that is searched
    have hb : b.count value = 0 := by omega
    rw [hleft, removeValue]
    dsimp only
    rw [if_pos hzero, if_pos hzero.ge, hrest, hxs, List.filter_append,
      filter_eq_self_of_count_eq_zero hb]
  · have hsum := length_removeValue count value (listOf db key now)
    rw [hanswer, hleft, ← hsum, Nat.cast_add, add_sub_cancel_left]

/-- The last of two occurrences is removed. -/
theorem lrem_removes_last :
    listOf twoOccurrences [1] 2 = [[97], [98], [97]] ∧ Removes twoOccurrences [1] (-1) [97] 2 := by
  have hlist : listOf twoOccurrences [1] 2 = [[97], [98], [97]] := by decide +kernel
  refine ⟨hlist, (lrem_removes_iff twoOccurrences 1 3 inv_twoOccurrences (by norm_num) [1] 2 ?_ (-1)
    (by norm_num) (by norm_num) [97]).2 (by norm_num)⟩
  rw [hlist]
  exact List.cons_ne_nil _ _

/-- **The least count removes nothing**: its absolute value overflows, and wraps to a limit below
zero. -/
theorem lrem_least_count :
    listOf twoOccurrences [1] 2 = [[97], [98], [97]] ∧
      asI64 (-2 ^ 63 : ℤ).natAbs ≠ (-2 ^ 63 : ℤ).natAbs ∧
      ((lrem [1] (-2 ^ 63) [97] 2).exec twoOccurrences).1.toOption = some 0 ∧
      listOf ((lrem [1] (-2 ^ 63) [97] 2).exec twoOccurrences).2 [1] 2 = [[97], [98], [97]] :=
  ⟨by decide +kernel, by decide +kernel, by decide +kernel, by decide +kernel⟩

end Removal

/-! ### Moving -/

section Moving

variable {x : Bytes} {rest : List Bytes}

theorem tailRows_one (h : Represents db key m (rest ++ [x])) (hb : m.leftIndex + m.count < 2 ^ 64) :
    tailRows db key m 1 = [(⟨key, m.version, m.rightIndex⟩, x)] := by
  have hcount := h.count
  rw [List.length_append, List.length_singleton] at hcount
  have hright := h.right
  have hzero : subU64 m.rightIndex 0 = m.rightIndex := subU64_of_le (Nat.zero_le _) (by omega)
  have hget : db.listsDataCF.get ⟨key, m.version, m.rightIndex⟩ = some x := by
    have hplace : m.rightIndex - (m.leftIndex + 1) = rest.length := by omega
    rw [h.rows, window_eq_of_le (by omega), hplace, List.getElem?_append_right le_rfl, Nat.sub_self]
    rfl
  rw [tailRows, List.range_one, List.map_singleton, hzero, foundRows, List.filterMap_cons, hget]
  rfl

theorem listOf_popBatch {rows : List (DataKey ℕ × Bytes)} {r c : ℕ} {ys : List Bytes}
    (hm : db.listMeta key now = .ok (some m))
    (hleft : Represents (db.write (popBatch key rows ((m.setRightIndex r).setCount c))) key
      ((m.setRightIndex r).setCount c) ys)
    (hb : m.leftIndex + c < 2 ^ 64) :
    listOf (db.write (popBatch key rows ((m.setRightIndex r).setCount c))) key now = ys ∧
      ∃ found, (db.write (popBatch key rows ((m.setRightIndex r).setCount c))).listMeta key now =
        .ok found := by
  have hmeta : (db.write (popBatch key rows ((m.setRightIndex r).setCount c))).metaCF.get key =
      if c = 0 then none else some (.list ((m.setRightIndex r).setCount c)) :=
    Redis.get_metaCF_write_append _ _ _ _
  split_ifs at hmeta with hzero
  · have hnone : (db.write (popBatch key rows ((m.setRightIndex r).setCount c))).listMeta key now =
        .ok none := listMeta_of_deleted hmeta
    rw [listOf_of_missing hnone, List.length_eq_zero_iff.1 (hleft.count.symm.trans hzero)]
    exact ⟨rfl, none, hnone⟩
  · have hsome := listMeta_of_written hm hmeta rfl hzero
    exact ⟨listOf_of_represents hsome hleft hb, _, hsome⟩

theorem exec_rpopInternal_one (h : Inv t p db) (hp : p < 2 ^ 62)
    (hlist : listOf db key now = rest ++ [x]) :
    ∃ db', (rpopInternal key none now).exec db = (.ok (some [x]), db') ∧
      listOf db' key now = rest ∧ (∃ found, db'.listMeta key now = .ok found) ∧
      ∀ k, k ≠ key → db'.AgreeAt db k := by
  obtain ⟨m, hm⟩ := exists_meta_of_listOf_ne_nil (hlist ▸ List.append_ne_nil_of_right_ne_nil _
    (List.cons_ne_nil _ _) : listOf db key now ≠ [])
  obtain ⟨-, hw, hxs, hcount, -⟩ := h.found_list hp hm
  have hb := hw.bound hp
  rw [hlist] at hxs hcount
  rw [List.length_append, List.length_singleton] at hcount
  have hone : min ((none : Option ℕ).getD 1) m.count = 1 := by
    rw [Option.getD_none]
    omega
  have hrow := tailRows_one hxs hb
  have hleft := represents_rpop hxs (show 1 ≤ m.count by omega) hb
  have hrest : (rest ++ [x]).take (m.count - 1) = rest := by
    rw [List.take_append_of_le_length (by omega), List.take_of_length_le (by omega)]
  have hkey : ∀ r ∈ tailRows db key m 1, r.1.key = key := by
    intro r hr
    rw [hrow, List.mem_singleton] at hr
    rw [hr]
  have hexec : (rpopInternal key none now).exec db = (.ok (some [x]),
      db.write (popBatch key (tailRows db key m 1)
        ((m.setRightIndex (subU64 m.rightIndex 1)).setCount (m.count - 1)))) := by
    rw [exec_rpopInternal, hm]
    dsimp only
    rw [hone, hrow]
    rfl
  have hbound : m.leftIndex + (m.count - 1) < 2 ^ 64 := by omega
  obtain ⟨hlist', hfound⟩ := listOf_popBatch hm hleft hbound
  exact ⟨_, hexec, hlist'.trans hrest, hfound,
    fun k hk ↦ Redis.agreeAt_write_of_ne (meets_popBatch trivial hkey) hk⟩

variable {found : Option ListsMetaValue}

/-- The list before a push, which is a new and empty one when there was none. -/
theorem Inv.readable (h : Inv t p db) (hp : p < 2 ^ 62) (hm : db.listMeta key now = .ok found) :
    (found.getD (newListMeta now)).count = (listOf db key now).length ∧
      readElements db key (found.getD (newListMeta now)).version
        (found.getD (newListMeta now)).leftIndex (found.getD (newListMeta now)).count =
          listOf db key now ∧
      Within p (found.getD (newListMeta now)) := by
  rcases found with _ | m
  · rw [listOf_of_missing hm]
    refine ⟨rfl, rfl, ?_, ?_⟩
    · show 2 ^ 63 - 1 ≤ ListsMetaValue.initialLeftIndex + p
      rw [ListsMetaValue.initialLeftIndex]
      omega
    · show ListsMetaValue.initialLeftIndex + 0 ≤ 2 ^ 63 - 1 + p
      rw [ListsMetaValue.initialLeftIndex]
      omega
  · obtain ⟨-, hw, -, hcount, -⟩ := h.found_list hp hm
    refine ⟨hcount, ?_, hw⟩
    rw [listOf, hm]
    rfl

theorem exec_pushCore_head (h : Inv t p db) (hp : p + 1 < 2 ^ 62)
    (hm : db.listMeta key now = .ok found) (x : Bytes) :
    ∃ n db', (pushCore key [x] true true now).exec db = (.ok (some n), db') ∧
      listOf db' key now = x :: listOf db key now ∧ ∀ k, k ≠ key → db'.AgreeAt db k := by
  obtain ⟨hcount, hread, hw⟩ := h.readable (by omega) hm
  have hlo := hw.lower
  have hhi := hw.upper
  -- a new list does not expire, and another one has not expired
  have hexpired : isExpired (found.getD (newListMeta now)).etime now = false := by
    rcases found with _ | m
    · rfl
    · have hstale := (Redis.liveMeta_eq_some_iff.1 (Redis.listMeta_eq_ok_some_iff.1 hm)).2
      rw [MetaValue.isStale, Bool.or_eq_false_iff] at hstale
      exact hstale.2
  have hexec := exec_pushCore key [x] true true now db
  rw [hm] at hexec
  dsimp only at hexec
  rw [if_neg (by simp), if_neg (by simp)] at hexec
  generalize found.getD (newListMeta now) = m at *
  generalize listOf db key now = xs at *
  have hone : [x].length = 1 := rfl
  obtain ⟨hcount', hleft, -⟩ : (pushed db key [x] true m now).2.count = _ ∧ _ ∧ _ :=
    counters_pushLeft (by omega) (by omega)
  have hmeta := Redis.get_metaCF_write_append db (pushed db key [x] true m now).1 key
    (some (.list (pushed db key [x] true m now).2))
  refine ⟨_, _, hexec, ?_, fun k hk ↦ ?_⟩
  · refine listOf_of_covers (Redis.listMeta_eq_ok_some_iff.2
      (Redis.liveMeta_eq_some_iff.2 ⟨hmeta, ?_⟩)) ?_ (fun i hi hi' ↦ ?_) ?_
    · rw [MetaValue.isStale, etime_pushed, hexpired, Bool.or_false]
      exact beq_false_of_ne (by omega)
    · rw [List.length_cons, hcount', hcount, hone]
    · rw [hleft] at hi hi' ⊢
      have hi' : i ≤ m.leftIndex - [x].length + (xs.length + 1) := hi'
      exact (get_pushLeft hcount hread (by omega) (by omega) i).trans (if_pos ⟨hi, by omega⟩)
    · omega
  · exact Redis.agreeAt_write_of_ne ((meets_pushed trivial).append (meets_meta trivial)) hk

variable {source destination : Bytes}

open Program in
theorem exec_rpoplpush_of_pop {db₁ db₂ : Redis S} {n : ℤ}
    (hpop : (rpopInternal source none now).exec db = (.ok (some [x]), db₁))
    (hpush : (pushCore destination [x] true true now).exec db₁ = (.ok (some n), db₂)) :
    (rpoplpush source destination now).exec db = (.ok (some x), db₂) := by
  rw [rpoplpush, exec_bind, hpop]
  dsimp only
  rw [exec_bind, hpush]
  rfl

/-- `rpoplpush` moves the last element of the source to the head of the destination. -/
structure Moves (db : Redis S) (source destination : Bytes) (rest : List Bytes) (x : Bytes)
    (now : ℕ) : Prop where
  answer : ((rpoplpush source destination now).exec db).1 = .ok (some x)
  /-- On one key, the list is rotated. -/
  rotated : source = destination →
    listOf ((rpoplpush source destination now).exec db).2 source now = x :: rest
  /-- The source keeps the other elements. -/
  popped : source ≠ destination →
    listOf ((rpoplpush source destination now).exec db).2 source now = rest
  /-- The destination has the element at its head. -/
  pushed : source ≠ destination →
    listOf ((rpoplpush source destination now).exec db).2 destination now =
      x :: listOf db destination now
  /-- On one key, no element is lost or made. -/
  conservedAt : source = destination →
    (listOf ((rpoplpush source destination now).exec db).2 source now : Multiset Bytes) =
      listOf db source now
  /-- Over both keys, no element is lost or made. -/
  conserved : source ≠ destination →
    (listOf ((rpoplpush source destination now).exec db).2 source now : Multiset Bytes) +
        listOf ((rpoplpush source destination now).exec db).2 destination now =
      (listOf db source now : Multiset Bytes) + listOf db destination now
  others : ∀ k, k ≠ source → k ≠ destination →
    ((rpoplpush source destination now).exec db).2.AgreeAt db k

theorem coe_append_singleton :
    ((rest ++ [x] : List Bytes) : Multiset Bytes) = x ::ₘ (rest : Multiset Bytes) :=
  Multiset.coe_eq_coe.2 (List.perm_append_singleton x rest)

theorem moves_of_source (h : Inv t p db) (hp : p + 1 < 2 ^ 62)
    (hsource : listOf db source now = rest ++ [x])
    (hdestination : db.listMeta destination now = .ok found) :
    Moves db source destination rest x now := by
  obtain ⟨db₁, hpop, hrest, ⟨found₁, hfound₁⟩, hothers₁⟩ :=
    exec_rpopInternal_one h (by omega) hsource
  have h₁ : Inv t p db₁ := by
    have hinv : Inv t p ((rpopInternal source none now).exec db).2 :=
      inv_rpopInternal h (by omega) none
    rwa [hpop] at hinv
  by_cases hkeys : source = destination
  · subst hkeys
    obtain ⟨n, db₂, hpush, hlist₂, hothers₂⟩ := exec_pushCore_head h₁ hp hfound₁ x
    have hexec := exec_rpoplpush_of_pop hpop hpush
    rw [hrest] at hlist₂
    refine ⟨?_, fun _ ↦ ?_, fun hne ↦ absurd rfl hne, fun hne ↦ absurd rfl hne, fun _ ↦ ?_,
      fun hne ↦ absurd rfl hne, fun k hk _ ↦ ?_⟩
    · rw [hexec]
    · rw [hexec, hlist₂]
    · rw [hexec, hlist₂, hsource, coe_append_singleton]
      rfl
    · rw [hexec]
      exact (hothers₂ k hk).trans (hothers₁ k hk)
  · have hagree := hothers₁ destination (Ne.symm hkeys)
    obtain ⟨n, db₂, hpush, hlist₂, hothers₂⟩ :=
      exec_pushCore_head h₁ hp ((listMeta_congr hagree).trans hdestination) x
    have hexec := exec_rpoplpush_of_pop hpop hpush
    have hsource₂ : listOf db₂ source now = rest := by
      rw [listOf_congr (hothers₂ source hkeys), hrest]
    rw [listOf_congr hagree] at hlist₂
    refine ⟨?_, fun he ↦ absurd he hkeys, fun _ ↦ ?_, fun _ ↦ ?_, fun he ↦ absurd he hkeys,
      fun _ ↦ ?_, fun k hk hk' ↦ ?_⟩
    · rw [hexec]
    · rw [hexec, hsource₂]
    · rw [hexec, hlist₂]
    · rw [hexec, hsource₂, hlist₂, hsource, coe_append_singleton, ← Multiset.cons_coe,
        Multiset.add_cons, Multiset.cons_add]
    · rw [hexec]
      exact (hothers₂ k hk').trans (hothers₁ k hk)

/-- **Moving.** Whatever lists two keys hold, and whatever the clock reads: if the source is a list
and the destination is absent or a list, `rpoplpush` moves the last element, also from a key to
itself; and if the source is absent, it answers nothing and changes nothing. -/
theorem rpoplpush_moves (db : Redis S) (t p now : ℕ) (h : Inv t p db) (hp : p + 1 < 2 ^ 62)
    (source destination : Bytes) :
    (∀ rest x, listOf db source now = rest ++ [x] →
      ∀ found, db.listMeta destination now = .ok found →
        Moves db source destination rest x now) ∧
    (db.listMeta source now = .ok none →
      (rpoplpush source destination now).exec db = (.ok none, db)) := by
  refine ⟨fun rest x hsource found hdestination ↦ moves_of_source h hp hsource hdestination,
    fun hnone ↦ ?_⟩
  have hpop : (rpopInternal source none now).exec db = (.ok none, db) := by
    rw [exec_rpopInternal, hnone]
  rw [rpoplpush, Program.exec_bind, hpop]
  rfl

/-- The three elements, and another list of one element. -/
def twoLists : Redis ℤ := ((rpush [2] [[100]] 2).exec threeElements).2

theorem inv_twoLists : Inv 2 4 twoLists := by
  rw [twoLists, exec_rpush_snd]
  exact inv_pushCore inv_threeElements (by decide) [[100]] false true (by decide)

/-- An element is moved within a list and to another list, and nothing is moved from an absent key.
-/
theorem rpoplpush_moves_last :
    Moves twoLists [1] [1] [[97], [98]] [99] 2 ∧ Moves twoLists [1] [2] [[97], [98]] [99] 2 ∧
      listOf twoLists [2] 2 = [[100]] ∧
      (rpoplpush [3] [1] 2).exec twoLists = (.ok none, twoLists) := by
  have hlist : listOf twoLists [1] 2 = [[97], [98]] ++ [[99]] := by decide +kernel
  have hlist' : listOf twoLists [2] 2 = [[100]] := by decide +kernel
  have hmissing : twoLists.listMeta [3] 2 = .ok none :=
    Redis.listMeta_eq_ok_none_iff.2 (by decide +kernel)
  have hmoves := rpoplpush_moves twoLists 2 4 2 inv_twoLists (by norm_num)
  have hself := (hmoves [1] [1]).1
  have hother := (hmoves [1] [2]).1
  have habsent := (hmoves [3] [1]).2
  obtain ⟨m, hm⟩ := exists_meta_of_listOf_ne_nil
    (hlist ▸ List.cons_ne_nil _ _ : listOf twoLists [1] 2 ≠ [])
  obtain ⟨m', hm'⟩ := exists_meta_of_listOf_ne_nil
    (hlist' ▸ List.cons_ne_nil _ _ : listOf twoLists [2] 2 ≠ [])
  exact ⟨hself _ _ hlist _ hm, hother _ _ hlist _ hm', hlist', habsent hmissing⟩

end Moving

end Kiwi.ListWindow
