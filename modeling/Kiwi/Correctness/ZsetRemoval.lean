import Kiwi.Correctness.ZsetIndex
import Kiwi.Lib.KeySet

/-!
# Removing members of a zset

`zrem` looks every argument up in the state before its batch, and counts what it finds. An argument
that is listed twice is found twice, so the answer and the count of the zset are off by the number
of repetitions: two members, one of them listed twice, are both gone (`zrem_repeated_drops_zset`).

`zrem_removes_iff` says when `zrem` does what its name says (`Removes`): exactly when no stored
member is listed twice, and fewer than `2 ^ 31` are found, since the answer is an `i32`.
-/

namespace Kiwi.ZsetIndex

open Zsets

variable {S : Type} [Score S] {db : Redis S} {key : Bytes} {version now : ℕ} {m : BaseMetaValue}
  {t : IndexedMap Bytes S} {members : List Bytes}

/-! ### What removal means -/

/-- Every zset that is not empty is an indexed map, and its count, which is a `u64`, is the size of
the map. -/
def Coherent (db : Redis S) : Prop :=
  ∀ key m, db.metaCF.get key = some (.base m) → m.dataType = .zset → m.count ≠ 0 →
    m.count < 2 ^ 64 ∧ ∃ t, Stores db key m.version t ∧ t.size = m.count

/-- The members of the zset at a key with their scores. -/
def zsetOf (db : Redis S) (key : Bytes) (now : ℕ) : SortedMap Bytes S :=
  match db.baseMeta .zset key now with
  | .ok (some m) => db.zsetsDataCF.slice (DataKey.part key m.version)
  | _ => .empty

/-- The arguments that are members. -/
def found (db : Redis S) (key : Bytes) (members : List Bytes) (now : ℕ) : List Bytes :=
  members.filter fun x ↦ ((zsetOf db key now).get x).isSome

/-- `zrem` removes the listed members and says how many there were. -/
structure Removes (db : Redis S) (key : Bytes) (members : List Bytes) (now : ℕ) : Prop where
  /-- The answer is the number of distinct arguments that are members, unless the key holds
  something else. -/
  answer : ((zrem key members now).exec db).1 =
    (db.baseMeta .zset key now).map fun _ ↦ ((found db key members now).dedup.length : ℤ)
  /-- The other members remain with their scores. -/
  remaining : ∀ x, (zsetOf ((zrem key members now).exec db).2 key now).get x =
    if x ∈ members then none else (zsetOf db key now).get x
  /-- The count is the number of remaining members. -/
  count : ∀ m, ((zrem key members now).exec db).2.baseMeta .zset key now = .ok (some m) →
    m.count = (zsetOf ((zrem key members now).exec db).2 key now).size
  coherent : Coherent ((zrem key members now).exec db).2

/-! ### A zset that is found -/

theorem Coherent.found_zset (h : Coherent db) (hm : db.baseMeta .zset key now = .ok (some m)) :
    m.count < 2 ^ 64 ∧ ∃ t, Stores db key m.version t ∧ t.size = m.count := by
  obtain ⟨hlive, hz⟩ := Redis.baseMeta_eq_ok_some_iff.1 hm
  have hvalid := Redis.isValid_of_liveMeta hlive
  simp only [BaseMetaValue.isValid, Bool.and_eq_true, bne_iff_ne] at hvalid
  exact h key m (Redis.liveMeta_eq_some_iff.1 hlive).1 hz hvalid.2

section

variable (hm : db.baseMeta .zset key now = .ok (some m)) (ht : Stores db key m.version t)

include hm ht

theorem zsetOf_of_stores : zsetOf db key now = t.values := by
  rw [zsetOf, hm]
  exact ht.slice_members

theorem map_member_listedRows (members : List Bytes) :
    (listedRows db key m.version members).map ScoreMember.member = found db key members now := by
  rw [found, zsetOf_of_stores hm ht, listedRows, List.map_filterMap]
  induction members with
  | nil => rfl
  | cons x members ih =>
    rw [List.filterMap_cons, List.filter_cons, ← ih, ht.members]
    rcases t.values.get x with _ | s <;> rfl

end

theorem score_of_mem_listedRows (ht : Stores db key version t) {sm : ScoreMember S}
    (h : sm ∈ listedRows db key version members) : t.values.get sm.member = some sm.score := by
  obtain ⟨x, -, hx⟩ := List.mem_filterMap.1 h
  obtain ⟨s, hs, rfl⟩ := Option.map_eq_some_iff.1 hx
  rw [← ht.members]
  exact hs

/-! ### Deleting rows and setting the count -/

/-- The state after the rows of some members are deleted and the count is set. -/
def leave (db : Redis S) (key : Bytes) (m : BaseMetaValue) (rows : List (ScoreMember S))
    (count : ℕ) : Redis S :=
  db.write (rows.flatMap (deleteMember key m.version) ++ [putOrDeleteBaseMeta key m count])

section Leave

variable {rows : List (ScoreMember S)} {count : ℕ}

theorem get_metaCF_leave (db : Redis S) (key : Bytes) (m : BaseMetaValue)
    (rows : List (ScoreMember S)) (count : ℕ) :
    (leave db key m rows count).metaCF.get key =
      if count = 0 then none else some (.base (m.setCount count)) :=
  Redis.get_metaCF_write_append _ _ _ _

theorem agreeAt_leave (db : Redis S) (m : BaseMetaValue) (rows : List (ScoreMember S)) (count : ℕ)
    {k : Bytes} (hk : k ≠ key) : (leave db key m rows count).AgreeAt db k :=
  Redis.agreeAt_write_of_ne (meets_removal (fun _ ↦ trivial) _) hk

theorem stores_leave (ht : Stores db key m.version t)
    (hrows : ∀ sm ∈ rows, t.values.get sm.member = some sm.score) :
    Stores (leave db key m rows count) key m.version
      (t.eraseAll (rows.map ScoreMember.member)) := by
  have hold : ∀ sm ∈ rows, ∀ s ∈ t.values.get sm.member, s = sm.score := fun sm hsm s hs ↦
    Option.some.inj (hs.symm.trans (hrows sm hsm))
  exact (ht.deleteMembers hold).append_meta

section

variable (hm : db.baseMeta .zset key now = .ok (some m))

include hm

theorem baseMeta_leave (rows : List (ScoreMember S)) (count : ℕ) :
    (leave db key m rows count).baseMeta .zset key now =
      .ok (if count = 0 then none else some (m.setCount count)) :=
  Redis.baseMeta_of_setCount hm (get_metaCF_leave db key m rows count)

theorem zsetOf_leave (ht : Stores db key m.version t)
    (hrows : ∀ sm ∈ rows, t.values.get sm.member = some sm.score)
    (hcount : count = (t.eraseAll (rows.map ScoreMember.member)).size) :
    zsetOf (leave db key m rows count) key now =
      (t.eraseAll (rows.map ScoreMember.member)).values := by
  rw [zsetOf, baseMeta_leave hm]
  split_ifs with hzero
  · exact (SortedMap.eq_empty_of_size_eq_zero (hcount.symm.trans hzero)).symm
  · exact (stores_leave ht hrows).slice_members

end

theorem coherent_leave (h : Coherent db) (ht : Stores db key m.version t)
    (hrows : ∀ sm ∈ rows, t.values.get sm.member = some sm.score) (hlt : count < 2 ^ 64)
    (hcount : count = (t.eraseAll (rows.map ScoreMember.member)).size) :
    Coherent (leave db key m rows count) := by
  intro k m' hm' hz hne
  by_cases hk : k = key
  · subst hk
    rw [get_metaCF_leave] at hm'
    split_ifs at hm'
    obtain rfl := MetaValue.base.inj (Option.some.inj hm')
    exact ⟨hlt, _, stores_leave ht hrows, hcount.symm⟩
  · have hagree := agreeAt_leave db m rows count hk
    rw [hagree.metaCF] at hm'
    obtain ⟨hlt', t', ht', hsize⟩ := h k m' hm' hz hne
    exact ⟨hlt', t', ht'.congr hagree, hsize⟩

end Leave

/-! ### What `zrem` leaves -/

/-- The state that `zrem` leaves when it finds something. -/
def removed (db : Redis S) (key : Bytes) (m : BaseMetaValue) (members : List Bytes) : Redis S :=
  db.write ((listedRows db key m.version members).flatMap (deleteMember key m.version) ++
    [putOrDeleteBaseMeta key m (subU64 m.count (listedRows db key m.version members).length)])

section Leaves

variable (hm : db.baseMeta .zset key now = .ok (some m))

include hm

theorem baseMeta_removed (members : List Bytes) :
    (removed db key m members).baseMeta .zset key now =
      .ok (if subU64 m.count (listedRows db key m.version members).length = 0 then none
        else some (m.setCount (subU64 m.count (listedRows db key m.version members).length))) :=
  baseMeta_leave hm _ _

theorem coherent_removed (h : Coherent db) (ht : Stores db key m.version t) (members : List Bytes)
    (hcount : subU64 m.count (listedRows db key m.version members).length =
      (t.eraseAll (found db key members now)).size) : Coherent (removed db key m members) := by
  rw [← map_member_listedRows hm ht] at hcount
  exact coherent_leave h ht (fun sm ↦ score_of_mem_listedRows ht) (Nat.mod_lt _ (by norm_num)) hcount

variable (ht : Stores db key m.version t) (members : List Bytes)
include ht

theorem length_listedRows :
    (listedRows db key m.version members).length = (found db key members now).length := by
  rw [← map_member_listedRows hm ht, List.length_map]

theorem get_eraseAll_found (x : Bytes) :
    (t.eraseAll (found db key members now)).values.get x =
      if x ∈ members then none else (zsetOf db key now).get x := by
  rw [IndexedMap.values_eraseAll, SortedMap.get_eraseAll, found, zsetOf_of_stores hm ht]
  simp only [List.mem_filter]
  rcases hget : t.values.get x with _ | s <;> simp

theorem size_eraseAll_add :
    (t.eraseAll (found db key members now)).size + (found db key members now).dedup.length =
      t.size := by
  have hsize := SortedMap.size_eraseAll_filter t.values members
  rw [← zsetOf_of_stores hm ht, ← found, zsetOf_of_stores hm ht] at hsize
  rw [IndexedMap.size, IndexedMap.values_eraseAll]
  exact hsize

theorem zsetOf_removed (hcount : subU64 m.count (listedRows db key m.version members).length =
      (t.eraseAll (found db key members now)).size) :
    zsetOf (removed db key m members) key now =
      (t.eraseAll (found db key members now)).values := by
  rw [← map_member_listedRows hm ht] at hcount ⊢
  exact zsetOf_leave hm ht (fun sm ↦ score_of_mem_listedRows ht) hcount

end Leaves

/-! ### When `zrem` is right -/

theorem removes_of_unchanged (h : Coherent db) (hfound : found db key members now = [])
    (hexec : (zrem key members now).exec db = ((db.baseMeta .zset key now).map fun _ ↦ 0, db)) :
    Removes db key members now := by
  refine ⟨?_, fun x ↦ ?_, fun m hm ↦ ?_, ?_⟩
  · rw [hexec, hfound]
    rfl
  · rw [hexec]
    split_ifs with hx
    · by_contra hne
      have hsome := Option.isSome_iff_ne_none.2 hne
      have hin : x ∈ found db key members now := List.mem_filter.2 ⟨hx, hsome⟩
      rw [hfound] at hin
      cases hin
    · rfl
  · rw [hexec] at hm ⊢
    obtain ⟨-, t, ht, hsize⟩ := h.found_zset hm
    rw [zsetOf_of_stores hm ht]
    exact hsize.symm
  · rw [hexec]
    exact h

theorem asI32_eq_self_iff (n : ℕ) : asI32 n = n ↔ n < 2 ^ 31 := by
  refine ⟨fun h ↦ ?_, asI32_of_lt⟩
  have hlt : asI32 n < _ := Int.bmod_lt (by norm_num)
  rw [h] at hlt
  omega

theorem length_dedup_found_iff (db : Redis S) (key : Bytes) (members : List Bytes) (now : ℕ) :
    (found db key members now).dedup.length = (found db key members now).length ↔
      (found db key members now).Nodup :=
  ⟨fun he ↦ List.dedup_eq_self.1 ((List.dedup_sublist _).eq_of_length he),
    fun hn ↦ by rw [List.dedup_eq_self.2 hn]⟩

theorem Removes.count_eq (hr : Removes db key members now)
    (hm : db.baseMeta .zset key now = .ok (some m)) (ht : Stores db key m.version t)
    (hexec : (zrem key members now).exec db =
      (.ok (asI32 (found db key members now).length), removed db key m members)) :
    subU64 m.count (found db key members now).length =
      (t.eraseAll (found db key members now)).size := by
  have hmeta := baseMeta_removed hm members
  have hvalues : zsetOf (removed db key m members) key now =
      (t.eraseAll (found db key members now)).values := by
    refine SortedMap.ext_get fun x ↦ ?_
    have hx := hr.remaining x
    rw [hexec] at hx
    rw [get_eraseAll_found hm ht]
    exact hx
  rw [length_listedRows hm ht] at hmeta
  split_ifs at hmeta with hzero
  · have hnone : zsetOf (removed db key m members) key now = .empty := by rw [zsetOf, hmeta]
    rw [hzero, IndexedMap.size, ← hvalues, hnone]
    rfl
  · have hc := hr.count _ (by rw [hexec]; exact hmeta)
    rw [hexec] at hc
    exact hc.trans (congrArg SortedMap.size hvalues)

theorem removes_of_nodup (h : Coherent db)
    (hm : db.baseMeta .zset key now = .ok (some m)) (ht : Stores db key m.version t)
    (hexec : (zrem key members now).exec db =
      (.ok (asI32 (found db key members now).length), removed db key m members))
    (hcount : subU64 m.count (listedRows db key m.version members).length =
      (t.eraseAll (found db key members now)).size)
    (hnodup : (found db key members now).Nodup)
    (hlt : (found db key members now).length < 2 ^ 31) : Removes db key members now := by
  have hvalues := zsetOf_removed hm ht members hcount
  refine ⟨?_, fun x ↦ ?_, fun m' hm' ↦ ?_, ?_⟩
  · rw [hexec, hm, asI32_of_lt hlt, (length_dedup_found_iff db key members now).2 hnodup]
    rfl
  · rw [hexec, hvalues, get_eraseAll_found hm ht]
  · rw [hexec] at hm' ⊢
    rw [hvalues]
    rw [baseMeta_removed hm] at hm'
    split_ifs at hm'
    · cases Except.ok.inj hm'
    · obtain rfl := Option.some.inj (Except.ok.inj hm')
      exact hcount
  · rw [hexec]
    exact coherent_removed hm h ht members hcount

/-- **Removal.** From a coherent state, `zrem` removes the listed members, counts them and keeps the
state coherent exactly when no member is listed twice and fewer than `2 ^ 31` arguments are
members. A list of arguments is shorter than `2 ^ 63`. -/
theorem zrem_removes_iff (db : Redis S) (h : Coherent db) (key : Bytes) (members : List Bytes)
    (hlength : members.length < 2 ^ 63) (now : ℕ) :
    Removes db key members now ↔
      (found db key members now).Nodup ∧ (found db key members now).length < 2 ^ 31 := by
  have hexec := exec_zrem key members now db
  rcases hm : db.baseMeta .zset key now with e | (_ | m) <;> rw [hm] at hexec
  · have hnone : found db key members now = [] := by simp [found, zsetOf, hm]
    exact ⟨fun _ ↦ by simp [hnone], fun _ ↦ removes_of_unchanged h hnone (by rw [hexec, hm]; rfl)⟩
  · have hnone : found db key members now = [] := by simp [found, zsetOf, hm]
    exact ⟨fun _ ↦ by simp [hnone], fun _ ↦ removes_of_unchanged h hnone (by rw [hexec, hm]; rfl)⟩
  obtain ⟨hbound, t, ht, hsize⟩ := h.found_zset hm
  have hrows := length_listedRows hm ht members
  dsimp only at hexec
  split_ifs at hexec with hempty
  · have hnone : found db key members now = [] := by
      rw [← List.length_eq_zero_iff, ← hrows, List.isEmpty_iff.1 hempty]
      rfl
    exact ⟨fun _ ↦ by simp [hnone], fun _ ↦ removes_of_unchanged h hnone (by rw [hexec, hm]; rfl)⟩
  replace hexec : (zrem key members now).exec db =
      (.ok (asI32 (found db key members now).length), removed db key m members) := by
    rw [hexec, ← hrows]
    rfl
  have hleft := size_eraseAll_add hm ht members
  have hle : (found db key members now).length ≤ members.length := List.length_filter_le ..
  have hdedup := length_dedup_found_iff db key members now
  constructor
  · intro hr
    -- nothing was subtracted twice
    have hcount := hr.count_eq hm ht hexec
    have hsame : (found db key members now).dedup.length = (found db key members now).length :=
      (eq_of_subU64_eq_sub hbound (by omega) (by omega) (hcount.trans (by omega))).symm
    have hanswer := hr.answer
    rw [hexec, hm] at hanswer
    have hanswer := Except.ok.inj hanswer
    rw [hsame] at hanswer
    exact ⟨hdedup.1 hsame, (asI32_eq_self_iff _).1 hanswer⟩
  · rintro ⟨hnodup, hlt⟩
    have hsame := hdedup.2 hnodup
    refine removes_of_nodup h hm ht hexec ?_ hnodup hlt
    rw [hrows, subU64_of_le (by omega) hbound]
    omega

variable {rows : List (ScoreMember S)}

theorem coherent_createZset (key : Bytes) {c : ℕ} (hpos : 0 < c)
    (hnodup : (rows.map ScoreMember.member).Nodup) (hlt : rows.length < 2 ^ 64) :
    Coherent (Redis.empty.write (createZset key rows c)) := by
  have hinv : Inv c (Redis.empty.write (createZset key rows c)) :=
    inv_createZset inv_empty hpos hnodup
  intro k m hm hz hcount
  refine ⟨?_, (hinv.metaRows hm hz).2 hcount⟩
  by_cases hk : k = key
  · subst hk
    rw [get_metaCF_write_createZset] at hm
    obtain rfl := MetaValue.base.inj (Option.some.inj hm)
    exact hlt
  · have hagree : (Redis.empty.write (createZset key rows c)).AgreeAt Redis.empty k :=
      Redis.agreeAt_write_of_ne (meets_createZset (fun _ ↦ trivial) trivial _) hk
    rw [hagree.metaCF] at hm
    cases hm

theorem baseMeta_createZset (db : Redis S) (key : Bytes) (hne : rows ≠ []) (c now : ℕ) :
    (db.write (createZset key rows c)).baseMeta .zset key now =
      .ok (some ((BaseMetaValue.new .zset rows.length c).updateVersion c)) := by
  refine Redis.baseMeta_eq_ok_some_iff.2 ⟨Redis.liveMeta_eq_some_iff.2
    ⟨get_metaCF_write_createZset db key rows c, ?_⟩, rfl⟩
  rw [MetaValue.isStale, Bool.or_eq_false_iff]
  exact ⟨beq_false_of_ne (List.length_pos_iff.2 hne).ne', rfl⟩

/-- Two members. -/
def twoMembers : Redis ℤ := Redis.empty.write (createZset [1] [⟨3, [97]⟩, ⟨4, [98]⟩] 1)

theorem coherent_twoMembers : Coherent twoMembers :=
  coherent_createZset [1] Nat.zero_lt_one (by decide) (by decide)

/-- One of two members is removed. -/
theorem zrem_removes_one : Coherent twoMembers ∧ Removes twoMembers [1] [[97], [99]] 2 :=
  ⟨coherent_twoMembers,
    (zrem_removes_iff twoMembers coherent_twoMembers [1] [[97], [99]] (by decide) 2).2
      ⟨by decide +kernel, by decide +kernel⟩⟩

/-- **A repeated argument is counted twice**: the answer is two for one member, and the zset is
dropped with the member that was not listed. -/
theorem zrem_repeated_drops_zset :
    Coherent twoMembers ∧ (zsetOf twoMembers [1] 2).get [98] = some 4 ∧
      ((zrem [1] [[97], [97]] 2).exec twoMembers).1.toOption = some 2 ∧
      (zsetOf ((zrem [1] [[97], [97]] 2).exec twoMembers).2 [1] 2).get [98] = none :=
  ⟨coherent_twoMembers, by decide +kernel, by decide +kernel, by decide +kernel⟩

end Kiwi.ZsetIndex
