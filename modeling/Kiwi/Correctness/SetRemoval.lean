import Kiwi.Correctness.Collection
import Kiwi.Lib.KeySet
import Kiwi.Storage.Sets

/-!
# Removing members of a set

`srem` looks every argument up in the state before its batch and counts what it finds in an `i32`.
An argument that is listed twice is found twice, so the answer and the count of the set are off by
the number of repetitions; when the count reaches zero on that account, the set is dropped with
members that were not listed (`srem_repeated_drops_set`).

`srem_removes_iff` says when `srem` does what its name says (`Removes`). The counter wraps, so
repetitions do no harm when their number is a multiple of `2 ^ 32`; with fewer arguments than that
the condition is that no member is listed twice.
-/

namespace Kiwi.SetRemoval

open Sets

variable {S : Type} [LinearOrder S] {db : Redis S} {key : Bytes} {now : ℕ} {m : BaseMetaValue}

/-! ### What removal means -/

/-- The arguments that are members, one for each time a member is listed. -/
def found (db : Redis S) (key : Bytes) (version : ℕ) (members : List Bytes) : List Bytes :=
  members.filter fun x ↦ hasMember db key version x

/-- `srem` removes the listed members of the set with the meta value `m` and says how many there
were. -/
structure Removes (db : Redis S) (key : Bytes) (m : BaseMetaValue) (members : List Bytes)
    (now : ℕ) : Prop where
  /-- The answer is the number of distinct arguments that are members. -/
  answer : ((srem key members now).exec db).1 =
    .ok ((found db key m.version members).dedup.length : ℤ)
  /-- `sismember` finds the members that are not listed. -/
  sismember : ∀ x, Sets.sismember ((srem key members now).exec db).2 key x now =
    .ok (hasMember db key m.version x && !members.contains x)
  /-- `smembers` lists the members that are not listed. -/
  smembers : Sets.smembers ((srem key members now).exec db).2 key now =
    .ok (((membersAt db key m.version).filter fun x ↦ x ∉ members).map fromUtf8Lossy)
  /-- The count is the number of member rows. -/
  count : ∀ m', ((srem key members now).exec db).2.baseMeta .set key now = .ok (some m') →
    m'.count = (membersAt ((srem key members now).exec db).2 key m'.version).length

/-! ### Rows as a map -/

/-- The member rows under a version. -/
def rowsOf (db : Redis S) (key : Bytes) (version : ℕ) : SortedMap Bytes Unit :=
  (Family.sets S).mapAt db key version

section

variable (db : Redis S) (key : Bytes) (version : ℕ)

theorem hasMember_eq (x : Bytes) :
    hasMember db key version x = ((rowsOf db key version).get x).isSome := by
  rw [rowsOf, Family.get_mapAt]
  rfl

theorem membersAt_eq : membersAt db key version = (rowsOf db key version).keys :=
  congrArg (List.map Prod.fst) ((Family.sets S).rowsAt_table db key version)

end

variable {members : List Bytes}

theorem found_eq (version : ℕ) :
    found db key version members =
      members.filter fun x ↦ ((rowsOf db key version).get x).isSome :=
  List.filter_congr fun x _ ↦ hasMember_eq db key version x

theorem rowsOf_write_deleteMembers (db : Redis S) (key : Bytes) (version : ℕ)
    (members : List Bytes) (o : Option MetaValue) :
    rowsOf (db.write (deleteMembers key version members ++ [.metaCF key o])) key version =
      (rowsOf db key version).eraseAll members := by
  have hwrites : (deleteMembers key version members ++ [.metaCF key o] : Batch S).filterMap
      (Family.sets S).write? =
        (members.map fun x ↦ (x, (none : Option Unit))).map fun w ↦ (⟨key, version, w.1⟩, w.2) := by
    rw [List.filterMap_append]
    refine (List.append_nil _).trans ((setWrites_deleteMembers key version members).trans ?_)
    rw [List.map_map]
    rfl
  rw [rowsOf, Family.mapAt, Family.table_write, hwrites]
  refine (SortedMap.slice_apply_key _ (DataKey.part key version) _).trans ?_
  rw [SortedMap.apply_deletes]
  rfl

/-! ### A set that is left -/

/-- What is known of a state in which `srem` has deleted the rows of the listed members and has
left the right count. -/
theorem removes_of_rows (hm : db.baseMeta .set key now = .ok (some m)) (count : ℕ) {db' : Redis S}
    (hexec : (srem key members now).exec db =
      (.ok ((found db key m.version members).dedup.length : ℤ), db'))
    (hmeta : db'.metaCF.get key = if count = 0 then none else some (.base (m.setCount count)))
    (hrows : rowsOf db' key m.version =
      (rowsOf db key m.version).eraseAll (found db key m.version members))
    (hcount : count = (rowsOf db' key m.version).size) : Removes db key m members now := by
  -- the set is found again unless nothing is left of it
  have hfound : db'.validMeta .set key now =
      .ok (if count = 0 then none else some (m.setCount count)) := by
    rw [Redis.validMeta_eq_baseMeta]
    exact Redis.baseMeta_of_setCount hm hmeta
  have hget : ∀ x, (rowsOf db' key m.version).get x =
      if x ∈ members then none else (rowsOf db key m.version).get x := by
    intro x
    rw [hrows, SortedMap.get_eraseAll, found_eq]
    simp only [List.mem_filter]
    rcases (rowsOf db key m.version).get x with _ | u <;> simp
  have hkeys : (rowsOf db' key m.version).keys =
      (membersAt db key m.version).filter fun x ↦ x ∉ members := by
    rw [hrows, SortedMap.keys_eraseAll, membersAt_eq]
    refine List.filter_congr fun x hx ↦ ?_
    have hx := SortedMap.mem_keys_iff.1 hx
    rw [found_eq]
    simp [hx]
  have hempty : count = 0 → rowsOf db' key m.version = .empty := fun hzero ↦
    SortedMap.eq_empty_of_size_eq_zero (hcount.symm.trans hzero)
  constructor
  · rw [hexec]
  · intro x
    have hx := hget x
    rw [hexec, Sets.sismember, hfound, hasMember_eq]
    split_ifs with hzero
    · rw [hempty hzero, SortedMap.get_empty] at hx
      show Except.ok false = _
      split_ifs at hx with hin
      · simp [hin]
      · simp [← hx]
    · show Except.ok (hasMember db' key m.version x) = _
      rw [hasMember_eq, hx]
      split_ifs with hin <;> simp [hin]
  · rw [hexec, Sets.smembers, hfound, ← hkeys]
    split_ifs with hzero
    · rw [hempty hzero]
      rfl
    · show Except.ok ((membersAt db' key m.version).map fromUtf8Lossy) = _
      rw [membersAt_eq]
  · intro m' hm'
    rw [hexec, ← Redis.validMeta_eq_baseMeta, hfound] at hm'
    split_ifs at hm' with hzero
    · cases Except.ok.inj hm'
    · obtain rfl := Option.some.inj (Except.ok.inj hm')
      rw [hexec, membersAt_eq, SortedMap.keys, List.length_map]
      exact hcount

/-! ### When `srem` is right -/

theorem asI32_eq_iff {n k : ℕ} (h : k ≤ n) : asI32 n = k ↔ k < 2 ^ 31 ∧ 2 ^ 32 ∣ n - k := by
  rw [asI32, Int.bmod_def]
  constructor
  · intro he
    split_ifs at he <;> omega
  · rintro ⟨hlt, q, hq⟩
    split_ifs <;> omega

/-- **Removal.** For a set whose count is the number of its member rows, `srem` removes the listed
members and counts them exactly when fewer than `2 ^ 31` members are listed and the repetitions
among them are a multiple of `2 ^ 32`. -/
theorem srem_removes_iff (db : Redis S) (key : Bytes) (m : BaseMetaValue) (members : List Bytes)
    (now : ℕ) (hm : db.baseMeta .set key now = .ok (some m))
    (hcount : m.count = (membersAt db key m.version).length) (hbound : m.count < 2 ^ 64) :
    Removes db key m members now ↔
      (found db key m.version members).dedup.length < 2 ^ 31 ∧
        2 ^ 32 ∣ (found db key m.version members).length -
          (found db key m.version members).dedup.length := by
  have hexec : (srem key members now).exec db = _ := exec_srem hm members
  rw [← found] at hexec
  dsimp only at hexec
  have hle : (found db key m.version members).dedup.length ≤
      (found db key m.version members).length := (List.dedup_sublist _).length_le
  rw [← asI32_eq_iff hle]
  generalize asI32 (found db key m.version members).length = n at hexec ⊢
  have hleft := SortedMap.size_eraseAll_filter (rowsOf db key m.version) members
  rw [← found_eq] at hleft
  replace hcount : m.count = (rowsOf db key m.version).size := by
    rw [hcount, membersAt_eq, SortedMap.keys, List.length_map]
    rfl
  constructor
  · intro hr
    have hanswer := hr.answer
    rw [hexec] at hanswer
    split_ifs at hanswer <;> exact Except.ok.inj hanswer
  · rintro rfl
    split_ifs at hexec with hpos
    · rw [Int.toNat_natCast, subU64_of_le (by omega) hbound] at hexec
      have hrows := rowsOf_write_deleteMembers db key m.version (found db key m.version members)
        (if m.count - (found db key m.version members).dedup.length = 0 then none
          else some (.base (m.setCount
            (m.count - (found db key m.version members).dedup.length))))
      have hcount' : m.count - (found db key m.version members).dedup.length =
          ((rowsOf db key m.version).eraseAll (found db key m.version members)).size := by
        omega
      exact removes_of_rows hm _ hexec (Redis.get_metaCF_write_append _ _ _ _) hrows
        (hcount'.trans (congrArg SortedMap.size hrows).symm)
    · -- no argument is a member
      have hnone : (found db key m.version members).dedup.length = 0 := by omega
      have hnil : found db key m.version members = [] :=
        (List.dedup_eq_nil _).1 (List.length_eq_zero_iff.1 hnone)
      have hget := (Redis.liveMeta_eq_some_iff.1 (Redis.baseMeta_eq_ok_some_iff.1 hm).1).1
      have hpos := Redis.isValid_of_liveMeta (Redis.baseMeta_eq_ok_some_iff.1 hm).1
      simp only [BaseMetaValue.isValid, Bool.and_eq_true, bne_iff_ne] at hpos
      refine removes_of_rows hm m.count hexec ?_ ?_ hcount
      · rw [if_neg hpos.2]
        exact hget
      · rw [hnil]
        rfl

/-- Two members. -/
def twoMembers : Redis ℤ := ((sadd [1] [[97], [98]] 1).exec Redis.empty).2

/-- The meta value of the two members. -/
def twoMembersMeta : BaseMetaValue := ⟨.set, 2, 1, 0, 0⟩

/-- One of two members is removed. -/
theorem srem_removes_one :
    twoMembers.baseMeta .set [1] 2 = .ok (some twoMembersMeta) ∧
      Removes twoMembers [1] twoMembersMeta [[97], [99]] 2 := by
  have hm : twoMembers.baseMeta .set [1] 2 = .ok (some twoMembersMeta) :=
    Redis.baseMeta_eq_ok_some_iff.2 ⟨by decide +kernel, rfl⟩
  exact ⟨hm, (srem_removes_iff twoMembers [1] twoMembersMeta [[97], [99]] 2 hm
    (by decide +kernel) (by decide)).2 ⟨by decide +kernel, by decide +kernel⟩⟩

/-- **A repeated argument is counted twice**: the answer is two for one member, and the set is
dropped with the member that was not listed. -/
theorem srem_repeated_drops_set :
    twoMembersMeta.count = (membersAt twoMembers [1] twoMembersMeta.version).length ∧
      (sismember twoMembers [1] [98] 2).toOption = some true ∧
      ((srem [1] [[97], [97]] 2).exec twoMembers).1.toOption = some 2 ∧
      (sismember ((srem [1] [[97], [97]] 2).exec twoMembers).2 [1] [98] 2).toOption =
        some false :=
  ⟨by decide +kernel, by decide +kernel, by decide +kernel, by decide +kernel⟩

end Kiwi.SetRemoval
