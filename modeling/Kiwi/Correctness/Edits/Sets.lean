import Kiwi.Correctness.Edits.Basic

/-!
# What set operations write

A set that is created gets a fresh version. `smove` also looks for the member under the version of
the destination set when it is about to create that set.
-/

namespace Kiwi.Edits

open Program Sets Expiry

variable {S α : Type} [LinearOrder S] {now : ℕ} {a b : Redis S} {key : Bytes} {m : BaseMetaValue}
variable {found : Option BaseMetaValue} {E : Bytes → MetaValue → Prop} {names : List Bytes}

/-! ### Reads -/

/-- The destination of `smove`: what is found, or a new set. -/
theorem destinationMeta_eq (hfound : a.baseMeta .set key now = .ok found) :
    (destinationMeta found now).1 = found.getD (newSetMeta now) := by
  rcases found with _ | m
  · rfl
  · have hvalid := Redis.isValid_of_liveMeta (Redis.baseMeta_eq_ok_some_iff.1 hfound).1
    rw [destinationMeta, if_pos hvalid]
    rfl

theorem clearMembers_eq (db : Redis S) (destination : Bytes) :
    clearMembers db destination now =
      match db.baseMeta .set destination now with
      | .ok (some m) => deleteMembers destination m.version (membersAt db destination m.version)
      | _ => [] := by
  rw [clearMembers, Redis.baseMeta, Redis.liveMeta]
  rcases db.metaCF.get destination with _ | (v | m | m)
  · rfl
  · cases hs : (MetaValue.string v).isStale now <;> simp [Option.filter, hs]
  · have hstale : (MetaValue.base m).isStale now = !m.isValid now := by
      simp [MetaValue.isStale, BaseMetaValue.isValid, bne, Bool.or_comm]
    cases hv : m.isValid now
    · simp [Option.filter, hstale, hv]
    · by_cases ht : m.dataType = .set <;> simp [Option.filter, hstale, hv, ht]
  · cases hs : (MetaValue.list m).isStale now <;> simp [Option.filter, hs]

namespace SameView

variable (h : SameView now a b)
include h

section

variable (hm : a.baseMeta .set key now = .ok (some m))

include hm

theorem hasMember (x : Bytes) :
    Sets.hasMember a key m.version x = Sets.hasMember b key m.version x :=
  congrArg Option.isSome (h.lookup_of_base (r := .set ⟨key, m.version, x⟩) hm rfl rfl)

theorem membersAt : Sets.membersAt a key m.version = Sets.membersAt b key m.version := by
  have hrows : DataKey.rowsAt a.setsDataCF key m.version =
      DataKey.rowsAt b.setsDataCF key m.version :=
    DataKey.rowsAt_congr fun x ↦ h.lookup_of_base (r := .set ⟨key, m.version, x⟩) hm rfl rfl
  rw [Sets.membersAt, Sets.membersAt, hrows]

end

theorem smembers (key : Bytes) : Sets.smembers a key now = Sets.smembers b key now :=
  h.bindValid .set key rfl fun m hm ↦ by simp only [h.membersAt hm]

theorem sismember (key member : Bytes) :
    Sets.sismember a key member now = Sets.sismember b key member now :=
  h.bindValid .set key rfl fun m hm ↦ by simp only [h.hasMember hm]

theorem inAny (member : Bytes) (keys : List Bytes) :
    Sets.inAny a member now keys = Sets.inAny b member now keys := by
  induction keys with
  | nil => rfl
  | cons key keys ih => rw [Sets.inAny, Sets.inAny, h.sismember, ih]

variable (keys : List Bytes)

theorem smallestSet (best : Bytes × ℤ) :
    Sets.smallestSet a now keys best = Sets.smallestSet b now keys best := by
  induction keys generalizing best with
  | nil => rfl
  | cons key keys ih => simp only [Sets.smallestSet, h.validMeta, ih]

theorem inAllExcept (member skip : Bytes) (keys : List Bytes) :
    Sets.inAllExcept a member skip now keys = Sets.inAllExcept b member skip now keys := by
  induction keys with
  | nil => rfl
  | cons key keys ih => simp only [Sets.inAllExcept, h.sismember, ih]

theorem unionMembers : Sets.unionMembers a now keys = Sets.unionMembers b now keys := by
  induction keys with
  | nil => rfl
  | cons key keys ih => rw [Sets.unionMembers, Sets.unionMembers, h.smembers, ih]

theorem sdiff : Sets.sdiff a keys now = Sets.sdiff b keys now := by
  rcases keys with _ | ⟨first, others⟩
  · rfl
  · exact h.bindValid .set first rfl fun m hm ↦ by simp only [h.membersAt hm, h.inAny]

theorem sinter : Sets.sinter a keys now = Sets.sinter b keys now := by
  rcases keys with _ | ⟨first, _ | ⟨second, others⟩⟩
  · rfl
  · exact h.smembers first
  · simp only [Sets.sinter, h.smallestSet, h.smembers, h.inAllExcept]

theorem sunion : Sets.sunion a keys now = Sets.sunion b keys now := by
  rcases keys with _ | ⟨key, keys⟩
  · rfl
  · simp only [Sets.sunion, h.unionMembers]

section

variable (hfound : a.baseMeta .set key now = .ok found)

include hfound

theorem toAdd (members : List Bytes) :
    Sets.toAdd a key found members = Sets.toAdd b key found members := by
  rcases found with _ | m
  · rfl
  · simp only [Sets.toAdd, h.hasMember hfound]

theorem hasMember_getD (x : Bytes) :
    Sets.hasMember a key (found.getD (newSetMeta now)).version x =
      Sets.hasMember b key (found.getD (newSetMeta now)).version x := by
  rcases found with _ | m
  · exact congrArg Option.isSome (h.fresh (.set ⟨key, (newSetMeta now).version, x⟩) rfl)
  · exact h.hasMember hfound x

theorem addMember (member : Bytes) :
    Sets.addMember a key found member now = Sets.addMember b key found member now := by
  simp only [Sets.addMember, destinationMeta_eq hfound, h.hasMember_getD hfound]

end

theorem clearMembers (destination : Bytes) :
    Sets.clearMembers a destination now = Sets.clearMembers b destination now := by
  rw [clearMembers_eq, clearMembers_eq, ← h.baseMeta]
  rcases hm : a.baseMeta .set destination now with e | (_ | m)
  · rfl
  · rfl
  · simp only [h.membersAt hm]

end SameView

/-! ### Writes -/

theorem edits_removeMembers (hkey : key ∈ names) (hm : a.baseMeta .set key now = .ok (some m))
    (members : List Bytes) (count : ℕ) :
    EditBatch E names now a
      (deleteMembers key m.version members ++ [putOrDeleteBaseMeta key m count]) := by
  refine (meets_deleteMembers hkey _ _).append ?_
  rw [putOrDeleteBaseMeta]
  split_ifs
  · exact meets_singleton hkey trivial
  · exact meets_singleton hkey (editMeta_setCount hm count)

section

variable (hfound : a.baseMeta .set key now = .ok found)

include hfound

theorem rowVersion_getD : RowVersion now a key (found.getD (newSetMeta now)).version := by
  rcases found with _ | m
  · exact rowVersion_zero now a key
  · exact rowVersion_of_baseMeta hfound

theorem editMeta_getD (count : ℕ) :
    EditMeta (Kept now a) now a key (.base ((found.getD (newSetMeta now)).setCount count)) := by
  rcases found with _ | m
  · exact EditMeta.fresh (freshVersion_zero now a key) (expiry_of_baseMeta_none hfound).symm
  · exact editMeta_setCount hfound count

end

theorem edits_addMember (hkey : key ∈ names) (hfound : a.baseMeta .set key now = .ok found)
    (member : Bytes) : EditBatch (Kept now a) names now a (addMember a key found member now) := by
  simp only [addMember, destinationMeta_eq hfound]
  split_ifs
  · exact meets_nil
  all_goals
    exact (meets_putMembers hkey (rowVersion_getD hfound) _).append
      (meets_singleton hkey (editMeta_getD hfound _))

section Operations

variable (h : SameView now a b)
include h

theorem commits_sadd (key : Bytes) (members : List Bytes) :
    CommitsEdits (Kept now a) [key] now a b (sadd key members now) := by
  rw [CommitsEdits, CommitsOne, Commits, exec_sadd, exec_sadd, ← h.baseMeta]
  split_ifs
  · exact .unchanged _
  rcases hfound : a.baseMeta .set key now with e | found
  · exact .unchanged _
  have hkey := List.mem_singleton_self key
  dsimp only
  rw [← h.toAdd hfound]
  split_ifs
  · exact .unchanged _
  · exact .committed _ _ (meets_cons hkey (editMeta_getD hfound _)
      (meets_putMembers hkey (rowVersion_getD hfound) _))
  · exact .unchanged _

theorem commits_srem (key : Bytes) (members : List Bytes) :
    CommitsEdits E [key] now a b (srem key members now) := by
  refine commits_ite (fun _ ↦ commits_pure _) fun _ ↦ commits_get_bind ?_
  rw [Redis.validMeta_eq_baseMeta, Redis.validMeta_eq_baseMeta]
  refine commits_lift_bind (h.baseMeta .set key) fun found hfound ↦ ?_
  rcases found with _ | m
  · exact commits_pure _
  · simp only [h.hasMember hfound]
    exact commits_ite (fun _ ↦ commits_write_pure
      (edits_removeMembers (List.mem_singleton_self _) hfound _ _)) fun _ ↦ commits_pure _

theorem commits_spop (rng : Rng) (key : Bytes) (count : Option ℤ) :
    CommitsEdits E [key] now a b (spop rng key count now) := by
  rw [CommitsEdits, CommitsOne, Commits, exec_spop, exec_spop, ← h.baseMeta]
  rcases hm : a.baseMeta .set key now with e | (_ | m)
  · exact .unchanged _
  · exact .unchanged _
  dsimp only
  rw [← h.membersAt hm]
  split_ifs
  · exact .unchanged _
  · exact .unchanged _
  · exact .committed _ _ (edits_removeMembers (List.mem_singleton_self _) hm _ _)

theorem commits_smove (source destination member : Bytes) :
    CommitsEdits (Kept now a) [source, destination] now a b
      (smove source destination member now) := by
  rw [CommitsEdits, CommitsOne, Commits, exec_smove, exec_smove, ← h.baseMeta, ← h.baseMeta]
  rcases hsrc : a.baseMeta .set source now with e | (_ | src)
  · exact .unchanged _
  · exact .unchanged _
  dsimp only
  rw [← h.hasMember hsrc]
  split_ifs
  · rcases hdest : a.baseMeta .set destination now with e | found
    · exact .unchanged _
    · dsimp only
      rw [← h.addMember hdest]
      exact .committed _ _ ((edits_removeMembers (by simp) hsrc _ _).append
        (edits_addMember (by simp) hdest member))
  · exact .unchanged _

theorem commits_clearAndStoreSet (destination : Bytes) (members : List Bytes) :
    CommitsEdits (fun _ m ↦ m.etime = 0) [destination] now a b
      (clearAndStoreSet destination members now) := by
  have hkey := List.mem_singleton_self destination
  have hclear : EditBatch (fun _ m ↦ m.etime = 0) [destination] now a
      (clearMembers a destination now) := meets_clearMembers a destination now
  refine commits_get_bind ?_
  dsimp only
  rw [← h.clearMembers]
  refine commits_ite (fun _ ↦ commits_write_pure (hclear.append (meets_singleton hkey trivial)))
    fun _ ↦ commits_write_pure (hclear.append (meets_cons hkey ?_
      (meets_putMembers hkey (rowVersion_zero now a destination) _)))
  exact EditMeta.fresh (freshVersion_zero now a destination) rfl

theorem commits_setStore {keys : List Bytes} {e : Error} {f : Redis S → Except Error (List Bytes)}
    (hf : f a = f b) (destination : Bytes) :
    CommitsEdits (fun _ m ↦ m.etime = 0) [destination] now a b
      (if keys.isEmpty then throw e
        else do
          let db ← get
          let members ← f db
          clearAndStoreSet destination members now : Op S ℤ) :=
  commits_ite (fun _ ↦ commits_throw e) fun _ ↦ commits_get_bind
    (commits_lift_bind hf fun members _ ↦ commits_clearAndStoreSet h destination members)

end Operations

/-- **Set operations.** -/
theorem commits_set {S : Type} [Score S] {a b : Redis S} (h : SameView now a b)
    (o : Sets.Operation α) : CommitsOne (Writes (setRule o) now a) a b (o.run now) (o.run now) := by
  cases o with
  | sadd key members => exact commits_sadd h key members
  | srem key members => exact commits_srem h key members
  | spop rng key count => exact commits_spop h rng key count
  | smove source destination member => exact commits_smove h source destination member
  | scard => exact commits_read (by rw [scard, scard, h.validMeta])
  | smembers key => exact commits_read (h.smembers key)
  | sismember key member => exact commits_read (h.sismember key member)
  | smismember key =>
    exact commits_read (h.bindValid .set key rfl fun m hm ↦ by simp only [h.hasMember hm])
  | srandmember _ key | sscan key =>
    exact commits_read (h.bindValid .set key rfl fun m hm ↦ by simp only [h.membersAt hm])
  | sdiff keys => exact commits_read (h.sdiff keys)
  | sinter keys => exact commits_read (h.sinter keys)
  | sunion keys => exact commits_read (h.sunion keys)
  | sdiffstore destination keys => exact commits_setStore h (h.sdiff keys) destination
  | sinterstore destination keys => exact commits_setStore h (h.sinter keys) destination
  | sunionstore destination keys => exact commits_setStore h (h.sunion keys) destination

end Kiwi.Edits
