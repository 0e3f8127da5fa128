import Kiwi.Correctness.Edits.Basic

/-!
# What string operations write

A string is its meta row, so the operations on strings read nothing but live meta values and write
nothing but strings. Of the operations on keys of every type, `del_key` empties a collection and
moves it to a fresh version.
-/

/-- The key and expiry time that an operation sets. -/
def Kiwi.Compaction.setsEtime {S α : Type} : Strings.Operation S α → Option (Bytes × ℕ)
  | .setKeyEtime key etime => some (key, etime)
  | _ => none

namespace Kiwi.Edits

open Program Strings Expiry

variable {S α : Type} [LinearOrder S] {now : ℕ} {a b : Redis S} {key value : Bytes}
variable {E : Bytes → MetaValue → Prop}

/-! ### Reads -/

/-- `get_key_type` looks at live keys only. -/
theorem getKeyType_eq (db : Redis S) :
    getKeyType db key now =
      match db.liveMeta key now with
      | none => .error (.keyNotFound (fromUtf8Lossy key))
      | some m => .ok m.dataType := by
  rw [getKeyType, Redis.liveMeta]
  rcases db.metaCF.get key with _ | m
  · rfl
  · cases h : m.isStale now <;> simp [isLive_eq_not_isStale, h, Option.filter]

theorem expiry_of_not_keyExistsLive (h : ¬keyExistsLive a key now = true) :
    expiry a key now = 0 := by
  rw [keyExistsLive, getKeyType_eq] at h
  rcases hm : a.liveMeta key now with _ | m
  · exact expiry_of_liveMeta_none hm
  · rw [hm] at h
    exact absurd rfl h

namespace SameView

variable (h : SameView now a b)
include h

theorem liveRows : a.metaCF.rows.filter (fun r ↦ isLive now r.2) =
    b.metaCF.rows.filter (fun r ↦ isLive now r.2) := by
  have hmem : ∀ {db : Redis S} {r : Bytes × MetaValue},
      r ∈ db.metaCF.rows.filter (fun r ↦ isLive now r.2) ↔ db.liveMeta r.1 now = some r.2 := by
    intro db r
    rw [List.mem_filter, Redis.liveMeta_eq_some_iff, SortedMap.get_eq_some_iff,
      isLive_eq_not_isStale, Bool.not_eq_true']
  refine SortedMap.rows_eq_of_mem_iff (a.metaCF.sorted.filter _) (b.metaCF.sorted.filter _) ?_
  intro r
  rw [hmem, hmem, h.liveMeta]

theorem scanKeys (pattern : Bytes) :
    Strings.scanKeys a pattern now = Strings.scanKeys b pattern now := by
  have hfilter : ∀ rows : List (Bytes × MetaValue),
      rows.filter (fun r ↦ isLive now r.2 && Glob.matchesPattern pattern r.1) =
        (rows.filter fun r ↦ isLive now r.2).filter fun r ↦ Glob.matchesPattern pattern r.1 := by
    intro rows
    rw [List.filter_filter]
    simp only [Bool.and_comm]
  rw [Strings.scanKeys, Strings.scanKeys, hfilter, hfilter, h.liveRows]

theorem randomKey : Strings.randomKey a now = Strings.randomKey b now := by
  rw [Strings.randomKey, Strings.randomKey, ← List.head?_filter, ← List.head?_filter, h.liveRows]

variable (key : Bytes)

theorem getKeyType : Strings.getKeyType a key now = Strings.getKeyType b key now := by
  rw [getKeyType_eq, getKeyType_eq, h.liveMeta]

theorem keyExistsLive : Strings.keyExistsLive a key now = Strings.keyExistsLive b key now := by
  rw [Strings.keyExistsLive, Strings.keyExistsLive, h.getKeyType]

theorem existing : Strings.existing a key now = Strings.existing b key now := by
  rw [Strings.existing, Strings.existing, h.stringValue]

variable (keys : List Bytes)

theorem sourceValues : Strings.sourceValues a now keys = Strings.sourceValues b now keys := by
  induction keys with
  | nil => rfl
  | cons key keys ih => rw [Strings.sourceValues, Strings.sourceValues, h.stringValue, ih]

theorem mgetBinary : Strings.mgetBinary a keys now = Strings.mgetBinary b keys now := by
  simp only [Strings.mgetBinary, h.stringValue]

end SameView

/-! ### Writes -/

theorem edits_putString {ctime etime : ℕ} (he : E key (.string ⟨value, ctime, etime⟩)) :
    EditBatch E [key] now a [putString key value ctime etime] :=
  meets_singleton (List.mem_singleton_self _) (EditMeta.string rfl he)

omit [LinearOrder S] in
theorem meets_putStrings {M : Bytes → MetaValue → Prop} {R : Bytes → ℕ → Prop}
    {kvs : List (Bytes × Bytes)} (hM : ∀ kv ∈ kvs, M kv.1 (.string ⟨kv.2, now, 0⟩)) :
    Meets (kvs.map Prod.fst) M R (kvs.map fun kv ↦ (putString kv.1 kv.2 now 0 : Entry S)) := by
  intro e hmem
  obtain ⟨kv, hkv, rfl⟩ := List.mem_map.1 hmem
  exact ⟨List.mem_map_of_mem hkv, hM kv hkv⟩

section Operations

variable (h : SameView now a b) (key : Bytes)
include h

theorem commits_setrangeWithOutcome (offset : ℤ) (value : Bytes) :
    CommitsEdits (Kept now a) [key] now a b (setrangeWithOutcome key offset value now) := by
  refine commits_ite (fun _ ↦ commits_throw _) fun _ ↦ commits_ite (fun _ ↦ commits_throw _)
    fun _ ↦ commits_get_bind (commits_lift_bind (h.existing key) fun old hold ↦ ?_)
  refine commits_ite (fun _ ↦ commits_pure _) fun _ ↦ commits_ite (fun _ ↦ commits_throw _)
    fun _ ↦ commits_write_pure (edits_putString ?_)
  exact (expiry_of_existing hold).symm

theorem commits_append (value : Bytes) :
    CommitsEdits (Kept now a) [key] now a b (append key value now) := by
  refine commits_get_bind (commits_lift_bind (h.existing key) fun old hold ↦ ?_)
  refine commits_ite (fun _ ↦ commits_throw _) fun _ ↦ commits_write_pure (edits_putString ?_)
  exact (expiry_of_existing hold).symm

theorem commits_setbit (offset bit : ℤ) :
    CommitsEdits (Kept now a) [key] now a b (setbit key offset bit now) := by
  refine commits_ite (fun _ ↦ commits_throw _) fun _ ↦ commits_ite (fun _ ↦ commits_throw _)
    fun _ ↦ commits_ite (fun _ ↦ commits_throw _) fun _ ↦ ?_
  refine commits_get_bind (commits_lift_bind (h.existing key) fun old hold ↦ ?_)
  exact commits_write_pure (edits_putString (expiry_of_existing hold).symm)

theorem commits_setnx (value : Bytes) :
    CommitsEdits (Kept now a) [key] now a b (setnx key value now) := by
  refine commits_get_bind ?_
  rw [← h.keyExistsLive]
  refine commits_ite (fun _ ↦ commits_pure _) fun hnone ↦ commits_write_pure (edits_putString ?_)
  exact (expiry_of_not_keyExistsLive hnone).symm

theorem commits_msetnx (kvs : List (Bytes × Bytes)) :
    CommitsEdits (Kept now a) (kvs.map Prod.fst) now a b (msetnx kvs now) := by
  refine commits_get_bind ?_
  simp only [← h.keyExistsLive]
  refine commits_ite (fun _ ↦ commits_pure _) fun hnone ↦ commits_write_pure
    (meets_putStrings fun kv hkv ↦ .string rfl ?_)
  exact (expiry_of_not_keyExistsLive fun hlive ↦
    hnone (List.any_eq_true.2 ⟨kv, hkv, hlive⟩)).symm

theorem commits_incrDecr (incr : ℤ) :
    CommitsEdits (Kept now a) [key] now a b (incrDecr key incr now) := by
  refine commits_get_bind (commits_lift_bind (h.stringValue key) fun found hfound ↦ ?_)
  have hexpiry := expiry_of_stringValue hfound
  rcases found with _ | old
  · dsimp only
    rcases checkedAddI64 0 incr with _ | n
    · exact commits_throw _
    · exact commits_write_pure (edits_putString hexpiry.symm)
  · dsimp only
    rcases parseI64 (fromUtf8Lossy old.userValue) with _ | n
    · exact commits_throw _
    dsimp only
    rcases checkedAddI64 n incr with _ | n
    · exact commits_throw _
    · exact commits_write_pure (edits_putString hexpiry.symm)

theorem commits_delKey : CommitsEdits (Kept now a) [key] now a b (delKey key now) := by
  rw [CommitsEdits, CommitsOne, Commits, exec_delKey, exec_delKey, ← h.liveMeta]
  rcases hm : a.liveMeta key now with _ | m
  · exact .unchanged _
  refine .committed _ _ (meets_singleton (List.mem_singleton_self _) ?_)
  cases m with
  | string => exact trivial
  | base | list => exact EditMeta.emptied (Or.inr ⟨_, hm, rfl⟩) rfl

theorem commits_bitop (operation destKey : Bytes) (srcKeys : List Bytes) :
    CommitsEdits (fun _ m ↦ m.etime = 0) [destKey] now a b
      (bitop operation destKey srcKeys now) := by
  rw [CommitsEdits, bitop]
  rcases parseBitOp operation with _ | op
  · exact commits_throw _
  · refine commits_ite (fun _ ↦ commits_throw _) fun _ ↦ commits_ite (fun _ ↦ commits_throw _)
      fun _ ↦ commits_get_bind (commits_lift_bind (h.sourceValues srcKeys) fun values _ ↦ ?_)
    exact commits_write_pure (edits_putString rfl)

omit h in
theorem commits_setex (seconds : ℤ) (value : Bytes) :
    CommitsEdits (fun _ _ ↦ True) [key] now a b (setex key seconds value now) :=
  commits_ite (fun _ ↦ commits_throw _) fun _ ↦ commits_ite (fun _ ↦ commits_throw _) fun _ ↦
    commits_lift_bind rfl fun _ _ ↦ commits_write (edits_putString trivial)

omit h in
theorem commits_psetex (milliseconds : ℤ) (value : Bytes) :
    CommitsEdits (fun _ _ ↦ True) [key] now a b (psetex key milliseconds value now) :=
  commits_ite (fun _ ↦ commits_throw _) fun _ ↦
    commits_ite (fun _ ↦ commits_write (edits_putString trivial)) fun _ ↦
    commits_lift_bind rfl fun _ _ ↦ commits_write (edits_putString trivial)

theorem commits_setKeyEtime (etime : ℕ) :
    CommitsOne (fun w ↦ ∃ m, a.liveMeta key now = some m ∧
      w = [.metaCF key (some (m.setEtime etime))]) a b (setKeyEtime key etime now)
      (setKeyEtime key etime now) := by
  rw [CommitsOne, Commits, exec_setKeyEtime, exec_setKeyEtime, ← h.liveMeta]
  rcases hm : a.liveMeta key now with _ | m
  · exact .unchanged _
  · exact .committed _ _ ⟨m, rfl, rfl⟩

end Operations

theorem commits_incrDecrFloat {S : Type} [Score S] {a b : Redis S} (h : SameView now a b)
    (key : Bytes) (incr : S) :
    CommitsEdits (Kept now a) [key] now a b (incrDecrFloat key incr now) := by
  refine commits_get_bind (commits_lift_bind (h.stringValue key) fun found hfound ↦ ?_)
  have hexpiry := expiry_of_stringValue hfound
  rcases found with _ | v
  · exact commits_ite (fun _ ↦ commits_throw _) fun _ ↦
      commits_write_pure (edits_putString hexpiry.symm)
  · dsimp only
    rcases (Score.parse (fromUtf8Lossy v.userValue) : Option S) with _ | x
    · exact commits_throw _
    · exact commits_ite (fun _ ↦ commits_throw _) fun _ ↦
        commits_write_pure (edits_putString hexpiry.symm)

/-- **String operations.** -/
theorem commits_string {S : Type} [Score S] {a b : Redis S} (h : SameView now a b)
    (o : Strings.Operation S α) (ho : Compaction.setsEtime o = none) :
    CommitsOne (Writes (stringRule o) now a) a b (o.run now) (o.run now) := by
  cases o with
  | setKeyEtime => cases ho
  | keyEtime => exact commits_read (by simp only [keyEtime, h.liveMeta])
  | getKeyType key => exact commits_read (h.getKeyType key)
  | keyExistsLive => exact commits_read (by rw [h.keyExistsLive])
  | delKey key => exact commits_delKey h key
  | scanKeys => exact commits_read (by rw [h.scanKeys])
  | randomKey => exact commits_read (by rw [h.randomKey])
  | strlen => exact commits_read (by simp only [strlen, h.stringValue])
  | getrange => exact commits_read (by simp only [getrange, h.stringValue])
  | getBinary => exact commits_read (by simp only [getBinary, h.stringValue])
  | get => exact commits_read (by simp only [Strings.get, getBinary, h.stringValue])
  | mgetBinary => exact commits_read (by rw [h.mgetBinary])
  | mget => exact commits_read (by simp only [mget, h.mgetBinary])
  | setrangeWithOutcome key offset value => exact commits_setrangeWithOutcome h key offset value
  | setrange key offset value =>
    exact (commits_setrangeWithOutcome h key offset value).bind_pure Prod.fst
  | append key value => exact commits_append h key value
  | set => exact commits_write (edits_putString rfl)
  | setex key seconds value => exact commits_setex key seconds value
  | psetex key milliseconds value => exact commits_psetex key milliseconds value
  | setnx key value => exact commits_setnx h key value
  | getset key =>
    exact commits_get_bind (commits_lift_bind (h.stringValue key) fun _ _ ↦
      commits_write_pure (edits_putString rfl))
  | mset => exact commits_write (meets_putStrings fun _ _ ↦ .string rfl rfl)
  | msetnx kvs => exact commits_msetnx h kvs
  | incrDecr key incr => exact commits_incrDecr h key incr
  | incrDecrFloat key incr => exact commits_incrDecrFloat h key incr
  | setbit key offset value => exact commits_setbit h key offset value
  | getbit => exact commits_read (by simp only [getbit, h.stringValue])
  | bitcount => exact commits_read (by simp only [bitcount, h.stringValue])
  | bitpos =>
    exact commits_read (by simp only [bitpos, h.stringValue])
  | bitop operation destKey srcKeys => exact commits_bitop h operation destKey srcKeys

end Kiwi.Edits
