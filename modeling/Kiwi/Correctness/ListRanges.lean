import Kiwi.Correctness.ListWindow

/-!
# Ranges of a list

`lrange` lists a range of the elements of a list, and `ltrim` leaves that range of it. Both turn the
two offsets of a request into positions in the same way (`realStart`, `realStop`), and `ltrim`
leaves what `lrange` lists for every pair of offsets (`listOf_ltrim`).

The range that the offsets stand for is `Positions.slice`. `realStart` moves a first offset that is
beyond the list to the last element, so a range that starts beyond the list and reaches its end has
one element where it should have none (`lrange_beyond_end`); `slices_iff` says that these are the
only ranges that come out wrong.
-/

namespace Kiwi.ListWindow

open Kiwi.Lists Positions

variable {S : Type} [LinearOrder S] {db : Redis S} {key : Bytes} {t p now : ℕ} {m : ListsMetaValue}
  {xs : List Bytes}

/-! ### The list at a key -/

/-- The list that is found at a key. -/
def listOf (db : Redis S) (key : Bytes) (now : ℕ) : List Bytes :=
  match db.listMeta key now with
  | .ok (some m) => readElements db key m.version m.leftIndex m.count
  | _ => []

theorem listOf_of_covers (hm : db.listMeta key now = .ok (some m)) (hcount : m.count = xs.length)
    (h : Covers db key m.version m.leftIndex xs) (hb : m.leftIndex + m.count < 2 ^ 64) :
    listOf db key now = xs := by
  rw [listOf, hm]
  dsimp only
  rw [hcount]
  exact h.readElements_eq (by omega)

theorem listOf_of_represents (hm : db.listMeta key now = .ok (some m))
    (h : Represents db key m xs) (hb : m.leftIndex + m.count < 2 ^ 64) :
    listOf db key now = xs :=
  listOf_of_covers hm h.count (fun i _ _ ↦ h.rows i) hb

theorem listOf_of_missing (hm : db.listMeta key now = .ok none) : listOf db key now = [] := by
  rw [listOf, hm]

variable {db' : Redis S}

theorem listMeta_congr (h : db'.AgreeAt db key) : db'.listMeta key now = db.listMeta key now := by
  rw [Redis.listMeta, Redis.listMeta, Redis.liveMeta, Redis.liveMeta, h.metaCF]

/-- The list at a key depends on nothing but what is stored for that key. -/
theorem listOf_congr (h : db'.AgreeAt db key) : listOf db' key now = listOf db key now := by
  rw [listOf, listOf, listMeta_congr h]
  rcases db.listMeta key now with e | (_ | m)
  · rfl
  · rfl
  · exact List.filterMap_congr fun i _ ↦ h.listsDataCF _ _

/-- A list that is found is not empty, and its meta value and rows represent it. -/
theorem Inv.found_list (h : Inv t p db) (hp : p < 2 ^ 62)
    (hm : db.listMeta key now = .ok (some m)) :
    m.version ≤ t ∧ Within p m ∧ Represents db key m (listOf db key now) ∧
      m.count = (listOf db key now).length ∧ listOf db key now ≠ [] := by
  obtain ⟨hv, hw, xs, hxs⟩ := h.found hm
  obtain rfl := listOf_of_represents hm hxs (hw.bound hp)
  refine ⟨hv, hw, hxs, hxs.count, fun hnil ↦ ?_⟩
  have hcount := hxs.count
  rw [hnil] at hcount
  exact count_ne_zero_of_listMeta hm hcount

/-- A key with a list that is not empty has a live meta value. -/
theorem exists_meta_of_listOf_ne_nil (h : listOf db key now ≠ []) :
    ∃ m, db.listMeta key now = .ok (some m) := by
  rw [listOf] at h
  rcases hm : db.listMeta key now with e | (_ | m)
  · rw [hm] at h
    exact absurd rfl h
  · rw [hm] at h
    exact absurd rfl h
  · exact ⟨m, rfl⟩

/-- The type check finds a meta row that was written for a list that is found, if the list is not
empty and keeps its expiry time. -/
theorem listMeta_of_written {m' : ListsMetaValue}
    (hm : db.listMeta key now = .ok (some m)) (hmeta : db'.metaCF.get key = some (.list m'))
    (hetime : m'.etime = m.etime) (hcount : m'.count ≠ 0) :
    db'.listMeta key now = .ok (some m') := by
  have hstale := (Redis.liveMeta_eq_some_iff.1 (Redis.listMeta_eq_ok_some_iff.1 hm)).2
  refine Redis.listMeta_eq_ok_some_iff.2 (Redis.liveMeta_eq_some_iff.2 ⟨hmeta, ?_⟩)
  rw [MetaValue.isStale, Bool.or_eq_false_iff] at hstale ⊢
  exact ⟨beq_false_of_ne hcount, hetime ▸ hstale.2⟩

theorem listMeta_of_deleted (hmeta : db'.metaCF.get key = none) : db'.listMeta key now = .ok none :=
  Redis.listMeta_eq_ok_none_iff.2 (Redis.liveMeta_eq_none_of_get hmeta)

/-! ### Ranges -/

/-- Between the offsets that are computed, `lrange` finds every element. -/
theorem elementsBetween_eq (h : Represents db key m xs) (hpos : m.count ≠ 0)
    (hcount : m.count < 2 ^ 63) (hb : m.leftIndex + m.count < 2 ^ 64) (start stop : ℤ) :
    elementsBetween db key m start stop =
      between (realStart m.count start) (realStop m.count stop) xs := by
  have hlength := h.count
  unfold elementsBetween
  rw [asI64_of_lt hcount]
  dsimp only
  have hstart : 0 ≤ realStart m.count start := by
    unfold realStart
    split_ifs <;> omega
  have hstop : realStop m.count stop < m.count := by
    unfold realStop
    split_ifs <;> omega
  generalize realStart m.count start = a at hstart
  generalize realStop m.count stop = b at hstop
  split_ifs with hempty
  · exact (between_eq_nil (by omega)).symm
  · have hget : ∀ i ∈ List.range (b - a + 1).toNat, db.listsDataCF.get
        (elementKey key m.version m.leftIndex (asU64 (a + i))) = (xs.drop a.toNat)[i]? := by
      intro i hi
      rw [List.mem_range] at hi
      have hoffset : asU64 (a + i) = a.toNat + i := by
        rw [asU64_of_nonneg (by omega) (by omega)]
        omega
      rw [hoffset, elementKey_of_lt (by omega), h.rows, window_eq_of_le (by omega),
        List.getElem?_drop]
      congr 1
      omega
    rw [List.filterMap_congr hget, filterMap_getElem?_range, between_eq_drop_take, List.drop_take]
    congr 1
    omega

section

variable (h : Inv t p db) (hp : p < 2 ^ 62) (hm : db.listMeta key now = .ok (some m))
  (start stop : ℤ)

include h hp hm start stop

theorem lrange_eq :
    lrange db key start stop now =
      .ok (between (realStart m.count start) (realStop m.count stop) (listOf db key now)) := by
  obtain ⟨-, hw, hxs, -, -⟩ := h.found_list hp hm
  rw [lrange, hm]
  exact congrArg Except.ok (elementsBetween_eq hxs (count_ne_zero_of_listMeta hm) (hw.count_lt hp)
    (hw.bound hp) start stop)

/-- **`ltrim` leaves what `lrange` lists**, and deletes the key if that is nothing. -/
theorem listOf_ltrim :
    ((ltrim key start stop now).exec db).1 = .ok ⟨⟩ ∧
      listOf ((ltrim key start stop now).exec db).2 key now =
        between (realStart m.count start) (realStop m.count stop) (listOf db key now) ∧
      (between (realStart m.count start) (realStop m.count stop) (listOf db key now) = [] →
        ((ltrim key start stop now).exec db).2.metaCF.get key = none) := by
  obtain ⟨-, hw, hxs, hlength, -⟩ := h.found_list hp hm
  have hb := hw.bound hp
  rw [exec_ltrim, hm]
  refine ⟨rfl, ?_⟩
  dsimp only
  have hcases : _ ∧ (trimBatch key m start stop : Batch S) = _ ∨ _ :=
    trimBatch_cases (count_ne_zero_of_listMeta hm) (hw.count_lt hp) hb start stop
  rcases hcases with ⟨hempty, hbatch⟩ | ⟨a, b, ha, hb', hab, hbc, hbatch⟩
  · have hmeta := Redis.get_metaCF_write_append db
      (deleteElements key m.version m.leftIndex m.count) key none
    rw [hbatch, between_eq_nil (Or.inl hempty), listOf_of_missing (listMeta_of_deleted hmeta)]
    exact ⟨rfl, fun _ ↦ hmeta⟩
  · have hnonempty : between (realStart m.count start) (realStop m.count stop)
        (listOf db key now) ≠ [] := by
      rw [← List.length_pos_iff, length_between, ha, hb', ← hlength]
      omega
    refine ⟨?_, fun hnil ↦ absurd hnil hnonempty⟩
    have hmeta := Redis.get_metaCF_write_append db
      (deleteElements key m.version m.leftIndex a
        ++ deleteElements key m.version (m.leftIndex + b) (m.count - b)) key
      (some (.list { m with
        count := b - a
        leftIndex := m.leftIndex + a
        rightIndex := m.leftIndex + a + (b - a) }))
    have hleft := represents_trim hxs hab.le hbc hb
    rw [hbatch, listOf_of_represents (listMeta_of_written hm hmeta rfl ?_) hleft ?_,
      between_eq_drop_take, ha, hb', Int.toNat_natCast, Int.toNat_natCast]
    · show b - a ≠ 0
      omega
    · show m.leftIndex + a + (b - a) < 2 ^ 64
      omega

end

/-! ### When ranges are right -/

/-- `lrange` lists the range that the offsets stand for, and `ltrim` leaves it. -/
structure Slices (db : Redis S) (key : Bytes) (start stop : ℤ) (now : ℕ) : Prop where
  lrange : Lists.lrange db key start stop now = .ok (slice start stop (listOf db key now))
  /-- `ltrim` succeeds. -/
  answer : ((Lists.ltrim key start stop now).exec db).1 = .ok ⟨⟩
  ltrim : listOf ((Lists.ltrim key start stop now).exec db).2 key now =
    slice start stop (listOf db key now)
  /-- The key is deleted when nothing is left. -/
  deleted : slice start stop (listOf db key now) = [] →
    ((Lists.ltrim key start stop now).exec db).2.metaCF.get key = none

/-- The offsets that are computed are those of the range, unless it starts beyond the list and
reaches its end. -/
theorem between_real_eq_slice_iff (hxs : xs ≠ []) (start stop : ℤ) :
    between (realStart xs.length start) (realStop xs.length stop) xs = slice start stop xs ↔
      ¬(xs.length ≤ start ∧ (stop = -1 ∨ xs.length - 1 ≤ stop)) := by
  have hpos := List.length_pos_iff.2 hxs
  rw [slice_eq_between]
  constructor
  · rintro he ⟨hstart, hstop⟩
    have hlength := congrArg List.length he
    rw [length_between, length_between] at hlength
    simp only [realStart, realStop, fromEnd] at hlength
    split_ifs at hlength <;> omega
  · intro hgood
    rcases lt_or_ge start xs.length with hstart | hstart
    · refine between_congr ?_ ?_
      · unfold realStart fromEnd
        split_ifs <;> omega
      · unfold realStop fromEnd
        split_ifs <;> omega
    · -- the range is empty either way
      rw [between_eq_nil, between_eq_nil]
      · unfold fromEnd
        split_ifs <;> omega
      · unfold realStart realStop
        split_ifs <;> omega

/-- **Ranges.** For a list that is not empty, `lrange` lists the range of a pair of offsets and
`ltrim` leaves it exactly when the range does not start beyond the list and reach its end. -/
theorem slices_iff (db : Redis S) (t p : ℕ) (h : Inv t p db) (hp : p < 2 ^ 62) (key : Bytes)
    (now : ℕ) (hne : listOf db key now ≠ []) (start stop : ℤ) :
    Slices db key start stop now ↔
      ¬((listOf db key now).length ≤ start ∧
        (stop = -1 ∨ (listOf db key now).length - 1 ≤ stop)) := by
  obtain ⟨m, hm⟩ := exists_meta_of_listOf_ne_nil hne
  have hcount : m.count = _ := (h.found_list hp hm).2.2.2.1
  have hrange := lrange_eq h hp hm start stop
  obtain ⟨hanswer, hleft, hdeleted⟩ := listOf_ltrim h hp hm start stop
  rw [hcount] at hrange hleft hdeleted
  rw [← between_real_eq_slice_iff hne]
  constructor
  · intro hs
    exact Except.ok.inj (hrange.symm.trans hs.lrange)
  · intro he
    rw [he] at hrange hleft hdeleted
    exact ⟨hrange, hanswer, hleft, hdeleted⟩

theorem exec_rpush_snd (values : List Bytes) :
    ((rpush key values now).exec db).2 = ((pushCore key values false true now).exec db).2 := by
  rw [rpush, Program.exec_bind]
  rcases (pushCore key values false true now).exec db with ⟨e | (_ | n), db'⟩ <;> rfl

theorem inv_rpush_empty (key : Bytes) {values : List Bytes} (hlength : values.length < 2 ^ 62) :
    Inv 1 values.length ((rpush key values 1).exec (Redis.empty : Redis S)).2 := by
  have h : Inv 1 (0 + values.length)
      ((pushCore key values false true 1).exec (Redis.empty : Redis S)).2 :=
    inv_pushCore inv_empty Nat.zero_lt_one values false true (by omega)
  rw [Nat.zero_add] at h
  rwa [exec_rpush_snd]

/-- Three elements. -/
def threeElements : Redis ℤ := ((rpush [1] [[97], [98], [99]] 1).exec Redis.empty).2

theorem inv_threeElements : Inv 1 3 threeElements :=
  inv_rpush_empty [1] (show [[97], [98], [99]].length < 2 ^ 62 by decide)

/-- The last two of three elements. -/
theorem slices_last_two :
    listOf threeElements [1] 2 = [[97], [98], [99]] ∧ Slices threeElements [1] (-2) 5 2 := by
  have hlist : listOf threeElements [1] 2 = [[97], [98], [99]] := by decide +kernel
  refine ⟨hlist,
    (slices_iff threeElements 1 3 inv_threeElements (by norm_num) [1] 2 ?_ (-2) 5).2 ?_⟩
  · rw [hlist]
    exact List.cons_ne_nil _ _
  · rw [hlist]
    decide

/-- **A range beyond the list.** The range from the sixth element on of a list of three is empty,
but `lrange` lists the last element and `ltrim` keeps it. -/
theorem lrange_beyond_end :
    slice 5 10 (listOf threeElements [1] 2) = [] ∧
      (lrange threeElements [1] 5 10 2).toOption = some [[99]] ∧
      listOf ((ltrim [1] 5 10 2).exec threeElements).2 [1] 2 = [[99]] :=
  ⟨by decide +kernel, by decide +kernel, by decide +kernel⟩

end Kiwi.ListWindow
