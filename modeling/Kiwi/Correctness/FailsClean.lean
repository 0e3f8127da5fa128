import Kiwi.Correctness.Edits.Operations

/-!
# Operations that fail

An operation makes its checks, then commits one batch, then answers; if it fails, it fails in a
check and the database is as it was (`Commits.failsCleanAt`).

`rpoplpush` is the exception: it is a pop that commits followed by a push with a check of its own.
If there is an element to pop and the destination holds a value of another type, the element is
popped, the push is refused and the element is gone (`Stranded`). `failed_operations_are_clean`
says that nothing else goes wrong.
-/

namespace Kiwi.FailsClean

open Program Edits

variable {S α : Type} {now : ℕ}

/-! ### Scans and stores -/

open Hashes in
theorem failsCleanAt_hscan [LinearOrder S] {db : Redis S} (key : Bytes) (cursor : ℕ)
    (pattern : Option Bytes)
    (count : Option ℕ) : FailsCleanAt db (hscan key cursor pattern count now) := by
  have hpage : ∀ (size next : ℕ) (rows : List (Bytes × Bytes)),
      FailsCleanAt db (scanPage key pattern size next rows) := by
    intro size next rows
    rw [scanPage]
    dsimp only
    rcases (scanLoop (literalPrefix pattern) size rows).2.head?.filter _ with _ | ⟨field, _⟩
    · exact failsCleanAt_pure _
    · exact failsCleanAt_modify_bind_pure _ _
  refine failsCleanAt_get_bind (failsCleanAt_lift_bind fun found _ ↦ ?_)
  rcases found with _ | m
  · exact failsCleanAt_pure _
  · exact hpage _ _ _

open Zsets in
theorem failsCleanAt_zsetStoreOperation [Score S] {db : Redis S} (destination : Bytes)
    (keys : List Bytes) (weights : List S) (aggregate : Bytes) (isInter : Bool) :
    FailsCleanAt db (zsetStoreOperation destination keys weights aggregate isInter now) := by
  intro e he
  rw [exec_zsetStoreOperation] at he ⊢
  rcases hresult : resultOf db keys weights aggregate isInter now with e' | (_ | result)
  · rfl
  · rfl
  · rw [hresult] at he
    dsimp only at he
    split_ifs at he

/-! ### `rpoplpush` -/

section Lists

variable [LinearOrder S] {db : Redis S}

open Kiwi.Lists

variable {key : Bytes} {values : List Bytes}

/-- A push that creates the list it does not find answers with a length. -/
theorem exists_count_of_pushCore {position : Bool}
    {x : Option ℤ} (h : ((pushCore key values position true now).exec db).1 = .ok x) :
    ∃ n, x = some n := by
  rw [exec_pushCore] at h
  rcases hm : db.listMeta key now with e | found
  · rw [hm] at h
    cases h
  rw [hm] at h
  simp only [Bool.not_true, Bool.and_false, Bool.false_eq_true, if_false] at h
  split_ifs at h
  · exact ⟨_, (Except.ok.inj h).symm⟩
  · exact ⟨_, (Except.ok.inj h).symm⟩

/-- A push fails if its key holds a value of another type, and only then. -/
theorem pushCore_eq_error_iff {position allowCreate : Bool} :
    (∃ e, ((pushCore key values position allowCreate now).exec db).1 = .error e) ↔
      ∃ e, db.listMeta key now = .error e := by
  rw [exec_pushCore]
  rcases db.listMeta key now with e | found
  · exact ⟨fun _ ↦ ⟨e, rfl⟩, fun _ ↦ ⟨e, rfl⟩⟩
  · dsimp only
    split_ifs <;> simp

/-- There is an element to pop from the source, and the destination holds a value of another
type. -/
def Stranded (db : Redis S) (source destination : Bytes) (now : ℕ) : Prop :=
  (∃ m, db.listMeta source now = .ok (some m) ∧
    (db.listsDataCF.get ⟨source, m.version, subU64 m.rightIndex 0⟩).isSome) ∧
  ∃ e, db.listMeta destination now = .error e

variable {m : ListsMetaValue}

theorem tailRows_one (hm : db.listMeta key now = .ok (some m)) :
    tailRows db key m (min 1 m.count) =
      ((db.listsDataCF.get ⟨key, m.version, subU64 m.rightIndex 0⟩).map fun x ↦
        ((⟨key, m.version, subU64 m.rightIndex 0⟩ : DataKey ℕ), x)).toList := by
  have hone : min 1 m.count = 1 := by
    have := count_ne_zero_of_listMeta hm
    omega
  rw [hone, tailRows, foundRows, List.range_one, List.map_singleton]
  rcases hget : db.listsDataCF.get ⟨key, m.version, subU64 m.rightIndex 0⟩ with _ | x <;>
    simp [hget]

theorem listMeta_popBatch (key : Bytes) (popped : List (DataKey ℕ × Bytes)) (m : ListsMetaValue) :
    ¬∃ e, (db.write (popBatch key popped m)).listMeta key now = .error e := by
  rintro ⟨e, he⟩
  have hget : (db.write (popBatch key popped m)).metaCF.get key =
      if m.count = 0 then none else some (.list m) := Redis.get_metaCF_write_append ..
  rw [Redis.listMeta, Redis.liveMeta, hget] at he
  split_ifs at he
  · cases he
  · cases hstale : MetaValue.isStale now (.list m) <;> simp [Option.filter, hstale] at he

theorem listMeta_popBatch_of_ne {key other : Bytes} (h : other ≠ key)
    (popped : List (DataKey ℕ × Bytes)) (m : ListsMetaValue) :
    (db.write (popBatch key popped m)).listMeta other now = db.listMeta other now := by
  have hget : (db.write (popBatch key popped m)).metaCF.get other = db.metaCF.get other := by
    refine SortedMap.get_apply_of_notMem fun hmem ↦ ?_
    obtain ⟨⟨_, o⟩, hw, rfl⟩ := List.mem_map.1 hmem
    rcases List.mem_append.1 (Entry.mem_metaWrites.1 hw) with hrow | hmeta
    · obtain ⟨r, -, hr⟩ := List.mem_map.1 hrow
      cases hr
    · exact h (congrArg Entry.key (List.mem_singleton.1 hmeta))
  rw [Redis.listMeta, Redis.listMeta, Redis.liveMeta, Redis.liveMeta, hget]

/-- The push of `rpoplpush` fails if the destination held a value of another type before the pop. -/
theorem pushCore_after_pop_iff {source destination : Bytes}
    (hm : db.listMeta source now = .ok (some m)) (m' : ListsMetaValue)
    (popped : List (DataKey ℕ × Bytes)) (values : List Bytes) :
    (∃ e, ((pushCore destination values true true now).exec
        (db.write (popBatch source popped m'))).1 = .error e) ↔
      ∃ e, db.listMeta destination now = .error e := by
  rw [pushCore_eq_error_iff]
  by_cases hne : destination = source
  · obtain rfl := hne
    refine ⟨fun h ↦ absurd h (listMeta_popBatch destination popped m'), ?_⟩
    rintro ⟨e, he⟩
    rw [hm] at he
    cases he
  · rw [listMeta_popBatch_of_ne hne]

/-- **`rpoplpush`** fails clean unless it pops an element that it cannot push. -/
theorem failsCleanAt_rpoplpush_iff (source destination : Bytes) :
    FailsCleanAt db (rpoplpush source destination now) ↔ ¬Stranded db source destination now := by
  unfold FailsCleanAt
  rw [rpoplpush, exec_bind, exec_rpopInternal]
  rcases hm : db.listMeta source now with e | (_ | m)
  · refine iff_of_true (fun _ _ ↦ rfl) ?_
    rintro ⟨⟨m, hm', -⟩, -⟩
    rw [hm] at hm'
    cases hm'
  · refine iff_of_true (fun _ _ ↦ rfl) ?_
    rintro ⟨⟨m, hm', -⟩, -⟩
    rw [hm] at hm'
    cases hm'
  dsimp only [Option.getD_none]
  rw [tailRows_one hm]
  rcases hget : db.listsDataCF.get ⟨source, m.version, subU64 m.rightIndex 0⟩ with _ | x
  · refine iff_of_true (fun e he ↦ by cases he) ?_
    rintro ⟨⟨m', hm', hsome⟩, -⟩
    obtain rfl := Option.some.inj (Except.ok.inj (hm.symm.trans hm'))
    rw [hget] at hsome
    cases hsome
  have hstranded : Stranded db source destination now ↔
      ∃ e, db.listMeta destination now = .error e :=
    ⟨And.right, fun h ↦ ⟨⟨m, hm, by rw [hget]; rfl⟩, h⟩⟩
  simp only [Option.map_some, Option.toList_some, List.map_singleton]
  generalize hm' : (m.setRightIndex (subU64 m.rightIndex (min 1 m.count))).setCount
    (m.count - min 1 m.count) = m'
  generalize hdb' : db.write (popBatch source
    [((⟨source, m.version, subU64 m.rightIndex 0⟩ : DataKey ℕ), x)] m') = db'
  -- the row that was popped is gone, so the database has changed
  have hchanged : db' ≠ db := by
    intro heq
    have hgone : db'.listsDataCF.get ⟨source, m.version, subU64 m.rightIndex 0⟩ = none := by
      rw [← hdb']
      exact SortedMap.get_erase_self _ _
    rw [heq, hget] at hgone
    cases hgone
  rw [hstranded, ← pushCore_after_pop_iff hm m'
    [(⟨source, m.version, subU64 m.rightIndex 0⟩, x)] [x], hdb', exec_bind]
  rcases hp : (pushCore destination [x] true true now).exec db' with ⟨e | y, db''⟩
  · have hclean : ((pushCore destination [x] true true now).exec db').2 = db' :=
      (commits_pushCore (.refl now db') destination [x] true true).failsCleanAt e (by rw [hp])
    rw [hp] at hclean
    refine iff_of_false (fun h ↦ hchanged ?_) fun h ↦ h ⟨e, rfl⟩
    exact hclean.symm.trans (h e rfl)
  · obtain ⟨n, rfl⟩ := exists_count_of_pushCore (congrArg Prod.fst hp)
    refine iff_of_true (fun e he ↦ by cases he) ?_
    rintro ⟨e, he⟩
    cases he

end Lists

/-! ### Every operation -/

section Operations

variable [Score S] {db : Redis S}

theorem failsCleanAt_of_plain {o : Operation S α} (ho : isPlain o = true) :
    FailsCleanAt db (o.run now) := (commits_operation (.refl now db) o ho).failsCleanAt

theorem failsCleanAt_string (o : Strings.Operation S α) : FailsCleanAt db (o.run now) := by
  have hplain : isPlain (.string o : Operation S α) = true → FailsCleanAt db (o.run now) :=
    failsCleanAt_of_plain (o := .string o)
  cases o with
  | setKeyEtime key etime => exact (commits_setKeyEtime (.refl now db) key etime).failsCleanAt
  | _ => exact hplain rfl

theorem failsCleanAt_hash (o : Hashes.Operation S α) : FailsCleanAt db (o.run now) := by
  have hplain : isPlain (.hash o : Operation S α) = true → FailsCleanAt db (o.run now) :=
    failsCleanAt_of_plain (o := .hash o)
  cases o with
  | hscan key cursor pattern count => exact failsCleanAt_hscan key cursor pattern count
  | _ => exact hplain rfl

theorem failsCleanAt_set (o : Sets.Operation α) : FailsCleanAt db (o.run now) :=
  failsCleanAt_of_plain (o := .set o) rfl

theorem failsCleanAt_zset (o : Zsets.Operation S α) : FailsCleanAt db (o.run now) := by
  have hplain : isPlain (.zset o) = true → FailsCleanAt db (o.run now) :=
    failsCleanAt_of_plain (o := .zset o)
  cases o with
  | zinterstore destination keys weights aggregate =>
    exact failsCleanAt_zsetStoreOperation destination keys weights aggregate true
  | zunionstore destination keys weights aggregate =>
    exact failsCleanAt_zsetStoreOperation destination keys weights aggregate false
  | _ => exact hplain rfl

/-- The list operation pops an element that it cannot push. -/
def ListStrands (db : Redis S) (now : ℕ) : Lists.Operation α → Prop
  | .rpoplpush source destination => Stranded db source destination now
  | _ => False

/-- The operation pops an element that it cannot push. -/
def Strands (db : Redis S) (now : ℕ) : Operation S α → Prop
  | .list o => ListStrands db now o
  | _ => False

theorem failsCleanAt_list_iff (o : Lists.Operation α) :
    FailsCleanAt db (o.run now) ↔ ¬ListStrands db now o := by
  have hplain : isPlain (.list o : Operation S α) = true → FailsCleanAt db (o.run now) :=
    failsCleanAt_of_plain (o := .list o)
  cases o with
  | rpoplpush source destination => exact failsCleanAt_rpoplpush_iff source destination
  | _ => exact iff_of_true (hplain rfl) id

/-- **Failed operations change nothing**, in every database and for all arguments, except for an
`rpoplpush` that pops an element it cannot push. -/
theorem failed_operations_are_clean (db : Redis S) (now : ℕ) (o : Operation S α) :
    (∀ e, ((o.run now).exec db).1 = .error e → ((o.run now).exec db).2 = db) ↔
      ¬Strands db now o := by
  cases o with
  | string o => exact iff_of_true (failsCleanAt_string o) id
  | list o => exact failsCleanAt_list_iff o
  | hash o => exact iff_of_true (failsCleanAt_hash o) id
  | set o => exact iff_of_true (failsCleanAt_set o) id
  | zset o => exact iff_of_true (failsCleanAt_zset o) id

end Operations

/-- A list of one element, and a string. -/
def listAndString : Redis ℤ :=
  ((Lists.rpush [1] [[97]] 1 >>= fun _ ↦ Strings.set [2] [98] 2).exec .empty).2

/-- The element that was popped is in neither place after the push was refused. -/
theorem rpoplpush_loses_element :
    ((Lists.rpoplpush [1] [2] 3).exec listAndString).1.isOk = false ∧
      Lists.lrange listAndString [1] 0 (-1) 3 = .ok [[97]] ∧
      Lists.lrange ((Lists.rpoplpush [1] [2] 3).exec listAndString).2 [1] 0 (-1) 4 = .ok [] := by
  decide +kernel

end Kiwi.FailsClean
