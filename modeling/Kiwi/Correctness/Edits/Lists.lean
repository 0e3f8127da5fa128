import Kiwi.Correctness.Edits.Basic

/-!
# What list operations write

A list that is created, pushed to at the head or inserted into gets a fresh version; every other
write keeps the meta value's version. `rpoplpush` is a pop followed by a push.
-/

namespace Kiwi.Edits

open Program Kiwi.Lists Expiry

variable {S α : Type} [LinearOrder S] {now : ℕ} {a b : Redis S} {key : Bytes}
variable {m m' : ListsMetaValue} {found : Option ListsMetaValue} {E : Bytes → MetaValue → Prop}

/-! ### Reads -/

namespace SameView

variable (h : SameView now a b)
include h

section

variable (hm : a.listMeta key now = .ok (some m))

include hm

theorem list (i : ℕ) :
    a.listsDataCF.get ⟨key, m.version, i⟩ = b.listsDataCF.get ⟨key, m.version, i⟩ :=
  h.current (.list ⟨key, m.version, i⟩) (Redis.listMeta_eq_ok_some_iff.1 hm) rfl rfl

theorem element (base i : ℕ) :
    a.listsDataCF.get (elementKey key m.version base i) =
      b.listsDataCF.get (elementKey key m.version base i) := h.list hm _

variable (base n : ℕ)

theorem readElements :
    Lists.readElements a key m.version base n = Lists.readElements b key m.version base n := by
  simp only [Lists.readElements, h.element hm]

theorem readIndexed :
    Lists.readIndexed a key m.version base n = Lists.readIndexed b key m.version base n := by
  simp only [Lists.readIndexed, h.element hm]

theorem headRows (n : ℕ) : Lists.headRows a key m n = Lists.headRows b key m n := by
  simp only [Lists.headRows, foundRows, List.filterMap_map, Function.comp_def, h.element hm]

theorem tailRows (n : ℕ) : Lists.tailRows a key m n = Lists.tailRows b key m n := by
  simp only [Lists.tailRows, foundRows, List.filterMap_map, Function.comp_def, h.list hm]

theorem elementsBetween (start stop : ℤ) :
    Lists.elementsBetween a key m start stop = Lists.elementsBetween b key m start stop := by
  simp only [Lists.elementsBetween, h.element hm]

end

/-- A push reads only the list that is live. -/
theorem pushed (hfound : a.listMeta key now = .ok found) (values : List Bytes) (position : Bool) :
    Lists.pushed a key values position (found.getD (newListMeta now)) now =
      Lists.pushed b key values position (found.getD (newListMeta now)) now := by
  cases position with
  | false => rfl
  | true =>
    rcases found with _ | m
    · rfl
    · simp only [Lists.pushed, pushLeft, Option.getD_some, h.readElements hfound]

end SameView

/-! ### Writes -/

section

variable (hm : a.listMeta key now = .ok (some m))

include hm

theorem rowVersion_of_listMeta :
    RowVersion now a key m.version := Or.inr ⟨_, Redis.listMeta_eq_ok_some_iff.1 hm, rfl⟩

theorem editMeta_list (hv : m'.version = m.version)
    (he : m'.etime = m.etime) : EditMeta E now a key (.list m') :=
  .inPlace (Redis.listMeta_eq_ok_some_iff.1 hm) hv rfl he

theorem edits_trimBatch (start stop : ℤ) :
    EditBatch E [key] now a (trimBatch key m start stop) := by
  unfold trimBatch
  dsimp only
  split_ifs
  · exact (meets_deleteElements _ _ _).append (meets_deleteMeta key)
  · exact ((meets_deleteElements _ _ _).append (meets_deleteElements _ _ _)).append
      (meets_meta (editMeta_list hm rfl rfl))

end

/-- A push to a new list and one at the head take a fresh version; one at the tail keeps the
version. -/
theorem edits_pushed (hfound : a.listMeta key now = .ok found) (values : List Bytes)
    (position : Bool) :
    EditBatch (Kept now a) [key] now a
      ((pushed a key values position (found.getD (newListMeta now)) now).1 ++
        [.metaCF key (some (.list
          (pushed a key values position (found.getD (newListMeta now)) now).2))]) := by
  have hversion := @version_pushed S _ a key values position now _ hfound
  have hetime : (pushed a key values position (found.getD (newListMeta now)) now).2.etime =
      expiry a key now := by
    rw [etime_pushed]
    rcases found with _ | m
    · exact (expiry_of_listMeta_none hfound).symm
    · exact (expiry_of_listMeta hfound).symm
  rcases found with _ | m
  · have hfresh : FreshVersion now a key _ := Or.inl hversion
    exact (meets_pushed (Or.inl hfresh)).append (meets_meta (.fresh hfresh hetime))
  · cases position with
    | false =>
      have hrow : RowVersion now a key m.version := rowVersion_of_listMeta hfound
      exact (meets_putElements hrow _ _).append (meets_meta (editMeta_list hfound rfl rfl))
    | true =>
      have hfresh : FreshVersion now a key _ :=
        Or.inr ⟨_, Redis.listMeta_eq_ok_some_iff.1 hfound, hversion⟩
      exact (meets_pushed (Or.inl hfresh)).append (meets_meta (.fresh hfresh hetime))

/-! ### Operations -/

section Operations

variable (h : SameView now a b)
include h

section

variable (key : Bytes) (values : List Bytes) (position allowCreate : Bool)

theorem commits_pushCore :
    Commits Redis.write (fun x w ↦ x.isSome ∧ EditBatch (Kept now a) [key] now a w) a b
      (pushCore key values position allowCreate now)
      (pushCore key values position allowCreate now) := by
  rw [Commits, exec_pushCore, exec_pushCore, ← h.listMeta]
  rcases hfound : a.listMeta key now with e | found
  · exact .unchanged _
  dsimp only
  rw [← h.pushed hfound]
  split_ifs
  · exact .unchanged _
  · exact .unchanged _
  · exact .committed _ _ ⟨rfl, edits_pushed hfound values position⟩

theorem commits_push {f : Option ℤ → Op S ℤ} (hsome : ∀ n, f (some n) = pure n)
    (hnone : CommitsEdits (Kept now a) [key] now a b (f none)) :
    CommitsEdits (Kept now a) [key] now a b
      (pushCore key values position allowCreate now >>= f) := by
  refine (commits_pushCore h key values position allowCreate).bind (fun x ↦ ?_) fun x w hw ↦ ?_
  · rcases x with _ | n
    · exact hnone
    · rw [hsome]
      exact commits_pure n
  · obtain ⟨n, rfl⟩ := Option.isSome_iff_exists.1 hw.1
    exact ⟨n, hsome n, hsome n, hw.2⟩

variable (count : Option ℕ)

theorem commits_lpop : CommitsEdits E [key] now a b (lpop key count now) := by
  rw [CommitsEdits, CommitsOne, Commits, exec_lpop, exec_lpop, ← h.listMeta]
  rcases hm : a.listMeta key now with e | (_ | m)
  · exact .unchanged _
  · exact .unchanged _
  dsimp only
  rw [← h.headRows hm]
  refine .committed _ _ (meets_popBatch ?_ (key_of_mem_headRows m _))
  exact editMeta_list hm rfl rfl

theorem commits_rpopInternal : CommitsEdits E [key] now a b (rpopInternal key count now) := by
  rw [CommitsEdits, CommitsOne, Commits, exec_rpopInternal, exec_rpopInternal, ← h.listMeta]
  rcases hm : a.listMeta key now with e | (_ | m)
  · exact .unchanged _
  · exact .unchanged _
  dsimp only
  rw [← h.tailRows hm]
  refine .committed _ _ (meets_popBatch ?_ (key_of_mem_tailRows m _))
  exact editMeta_list hm rfl rfl

theorem commits_rpop : CommitsEdits E [key] now a b (rpop key count now) := by
  have hpop : CommitsEdits E [key] now a b (rpopInternal key count now) :=
    commits_rpopInternal h key count
  refine hpop.bind (fun x ↦ ?_) fun x w hw ↦ ?_
  · rcases x with _ | (_ | _) <;> exact commits_pure _
  · rcases x with _ | (_ | _) <;> exact ⟨_, rfl, rfl, hw⟩

theorem commits_lset (index : ℤ) (value : Bytes) :
    CommitsEdits E [key] now a b (lset key index value now) := by
  rw [CommitsEdits, CommitsOne, Commits, exec_lset, exec_lset, ← h.listMeta]
  rcases hm : a.listMeta key now with e | (_ | m)
  · exact .unchanged _
  · exact .unchanged _
  dsimp only
  split_ifs
  · exact .committed _ _
      (meets_singleton (List.mem_singleton_self _) (rowVersion_of_listMeta hm))
  · exact .unchanged _

theorem commits_ltrim (start stop : ℤ) :
    CommitsEdits E [key] now a b (ltrim key start stop now) := by
  rw [CommitsEdits, CommitsOne, Commits, exec_ltrim, exec_ltrim, ← h.listMeta]
  rcases hm : a.listMeta key now with e | (_ | m)
  · exact .unchanged _
  · exact .unchanged _
  · exact .committed _ _ (edits_trimBatch hm start stop)

theorem commits_lrem (count : ℤ) (value : Bytes) :
    CommitsEdits E [key] now a b (lrem key count value now) := by
  rw [CommitsEdits, CommitsOne, Commits, exec_lrem, exec_lrem, ← h.listMeta]
  rcases hm : a.listMeta key now with e | (_ | m)
  · exact .unchanged _
  · exact .unchanged _
  dsimp only
  rw [← h.readElements hm]
  split_ifs
  · exact .committed _ _ (meets_remBatch (fun _ ↦ editMeta_list hm) (rowVersion_of_listMeta hm) _)
  · exact .unchanged _

theorem commits_linsert (beforeOrAfter : BeforeOrAfter) (pivot value : Bytes) :
    CommitsEdits (Kept now a) [key] now a b (linsert key beforeOrAfter pivot value now) := by
  rw [CommitsEdits, CommitsOne, Commits, exec_linsert, exec_linsert, ← h.listMeta]
  rcases hm : a.listMeta key now with e | (_ | m)
  · exact .unchanged _
  · exact .unchanged _
  dsimp only
  rw [← h.readIndexed hm]
  rcases lastIndexOf pivot (readIndexed a key m.version m.leftIndex m.count) with _ | i
  · exact .unchanged _
  · have hfresh : FreshVersion now a key (updateVersion m.version now) :=
      Or.inr ⟨_, Redis.listMeta_eq_ok_some_iff.1 hm, rfl⟩
    refine .committed _ _ (meets_insertBatch (fun m' hv he ↦ .fresh ?_ ?_) (Or.inl hfresh) _)
    · exact Or.inr ⟨_, Redis.listMeta_eq_ok_some_iff.1 hm, hv⟩
    · exact he.trans (expiry_of_listMeta hm).symm

end

end Operations

/-- Whether the operation is `rpoplpush`, which commits twice. -/
def isRpoplpush : Lists.Operation α → Bool
  | .rpoplpush _ _ => true
  | _ => false

/-- **List operations.** -/
theorem commits_list {S : Type} [Score S] {a b : Redis S} (h : SameView now a b)
    (o : Lists.Operation α) (ho : isRpoplpush o = false) :
    CommitsOne (Writes (listRule o) now a) a b (o.run now) (o.run now) := by
  cases o with
  | lpush key values => exact commits_push h key values true true (fun _ ↦ rfl) (commits_throw _)
  | rpush key values => exact commits_push h key values false true (fun _ ↦ rfl) (commits_throw _)
  | lpushx key values => exact commits_push h key values true false (fun _ ↦ rfl) (commits_pure 0)
  | rpushx key values =>
    exact commits_push h key values false false (fun _ ↦ rfl) (commits_pure 0)
  | lpop key count => exact commits_lpop h key count
  | rpop key count => exact commits_rpop h key count
  | llen key => exact commits_read (by rw [llen, llen, h.listMeta])
  | lindex key index =>
    exact commits_read (h.bindList key rfl fun m hm ↦ by simp only [h.element hm])
  | lrange key start stop =>
    exact commits_read (h.bindList key rfl fun m hm ↦ by simp only [h.elementsBetween hm])
  | lset key index value => exact commits_lset h key index value
  | ltrim key start stop => exact commits_ltrim h key start stop
  | lrem key count value => exact commits_lrem h key count value
  | linsert key beforeOrAfter pivot value => exact commits_linsert h key beforeOrAfter pivot value
  | rpoplpush source destination => cases ho

end Kiwi.Edits
