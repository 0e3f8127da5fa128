import Kiwi.Lib.IndexedMap
import Kiwi.Runtime.ZincrbyCalls
import Kiwi.Storage.Strings

/-!
# The two indexes of a zset

A zset is stored twice: by member, with the score, and by score and member. `Stores` says that the
rows under a version are the two tables of an `IndexedMap`, which are coherent by construction; the
lemmas of the first two sections say which operation on indexed maps each batch of writes carries
out. `Inv` is what holds in every reachable state: every zset that is not empty is such a map, its
count is the size of the map, and every version in use is at most the last reading of the clock, so
that a zset that is created finds nothing under its version.
-/

namespace Kiwi.ZsetIndex

open Zsets

variable {S : Type} [Score S] {db : Redis S} {key : Bytes} {version : ℕ}

/-! ### One member -/

/-- The rows under a version are the tables of an indexed map. -/
structure Stores (db : Redis S) (key : Bytes) (version : ℕ) (t : IndexedMap Bytes S) : Prop where
  members : ∀ x, db.zsetsDataCF.get ⟨key, version, x⟩ = t.values.get x
  scores : ∀ s x, db.zsetsScoreCF.get (scoreKey key version s x) = t.index.get (toLex (s, x))

variable {t : IndexedMap Bytes S} {sm : ScoreMember S}

omit [Score S] in
theorem scoreKey_inj {s s' : S} {x x' : Bytes} :
    scoreKey key version s x = scoreKey key version s' x' ↔ toLex (s, x) = toLex (s', x') := by
  simp [scoreKey]

theorem mem_scoreRows_iff_get :
    sm ∈ scoreRows db key version ↔
      db.zsetsScoreCF.get (scoreKey key version sm.score sm.member) = some () := by
  rw [scoreRows, List.mem_map]
  constructor
  · rintro ⟨⟨d, u⟩, hr, rfl⟩
    exact DataKey.mem_rowsAt_iff.1 hr
  · intro hget
    exact ⟨(toLex (sm.score, sm.member), ()), DataKey.mem_rowsAt_iff.2 hget, rfl⟩

theorem Stores.congr {db' : Redis S} (h : Stores db key version t) (hagree : db'.AgreeAt db key) :
    Stores db' key version t :=
  ⟨fun x ↦ (hagree.zsetsDataCF _ _).trans (h.members x),
    fun s x ↦ (hagree.zsetsScoreCF _ _).trans (h.scores s x)⟩

theorem Stores.append_meta {b : Batch S} {o : Option MetaValue}
    (h : Stores (db.write b) key version t) :
    Stores (db.write (b ++ [.metaCF key o])) key version t := by
  rw [Redis.write_append]
  exact ⟨h.members, h.scores⟩

section

variable (h : Stores db key version t)

include h

/-- Putting a member that is not stored. -/
theorem Stores.putMember (hnew : t.values.get sm.member = none) :
    Stores (db.write (Zsets.putMember key version sm)) key version
      (t.insert sm.member sm.score) := by
  constructor
  · intro x
    show (db.zsetsDataCF.insert _ _).get _ = (t.values.insert _ _).get x
    rw [SortedMap.get_insert, SortedMap.get_insert, h.members]
    simp
  · intro s x
    show (db.zsetsScoreCF.insert _ _).get _ = ((t.dropIndex sm.member).insert _ _).get _
    rw [IndexedMap.dropIndex, hnew, SortedMap.get_insert, SortedMap.get_insert, h.scores]
    simp only [scoreKey_inj]

theorem Stores.moveMember {old : S} (hold : t.values.get sm.member = some old) :
    Stores (db.write (.zsetsScoreCF (scoreKey key version old sm.member) none ::
      Zsets.putMember key version sm)) key version (t.insert sm.member sm.score) := by
  constructor
  · intro x
    show (db.zsetsDataCF.insert _ _).get _ = (t.values.insert _ _).get x
    rw [SortedMap.get_insert, SortedMap.get_insert, h.members]
    simp
  · intro s x
    show ((db.zsetsScoreCF.erase _).insert _ _).get _ = ((t.dropIndex sm.member).insert _ _).get _
    rw [IndexedMap.dropIndex, hold]
    dsimp only
    rw [SortedMap.get_insert, SortedMap.get_insert, SortedMap.get_erase, SortedMap.get_erase,
      h.scores]
    simp only [scoreKey_inj]
    split_ifs <;> rfl

/-- Deleting a member that is stored with the score, or that is not stored. -/
theorem Stores.deleteMember (hold : ∀ s ∈ t.values.get sm.member, s = sm.score) :
    Stores (db.write (Zsets.deleteMember key version sm)) key version (t.erase sm.member) := by
  constructor
  · intro x
    show (db.zsetsDataCF.erase _).get _ = (t.values.erase _).get x
    rw [SortedMap.get_erase, SortedMap.get_erase, h.members]
    simp
  · intro s x
    show (db.zsetsScoreCF.erase _).get _ = (t.dropIndex sm.member).get _
    rw [SortedMap.get_erase, IndexedMap.get_dropIndex, h.scores]
    simp only [scoreKey_inj]
    by_cases hx : x = sm.member
    · subst hx
      rw [if_pos rfl]
      split_ifs with hs
      · rfl
      · -- the member has no row with another score
        refine Option.eq_none_iff_forall_ne_some.2 fun u hu ↦ hs ?_
        rw [hold s (t.coherent.2 hu)]
    · rw [if_neg hx, if_neg fun he ↦ hx (congrArg (fun p ↦ (ofLex p).2) he)]

end

/-- The score an argument of `zadd` leaves its member with: the stored score when that is near. -/
def scoreAfter (existing : Option S) (score : S) : S :=
  match existing with
  | some old => if Score.near old score then old else score
  | none => score

/-- One argument of `zadd`: the table it leaves differs in that member only, and is larger by one if
the member is new. -/
theorem Stores.addOne (h : Stores db key version t) (sm : ScoreMember S) :
    ∃ t', Stores (db.write (Zsets.addOne key version
        (db.zsetsDataCF.get ⟨key, version, sm.member⟩) sm).1) key version t' ∧
      t'.size = t.size + (if (Zsets.addOne key version
        (db.zsetsDataCF.get ⟨key, version, sm.member⟩) sm).2 then 1 else 0) ∧
      ∀ x, t'.values.get x = if x = sm.member then some (scoreAfter (t.values.get x) sm.score)
        else t.values.get x := by
  rw [h.members]
  rcases hget : t.values.get sm.member with _ | old
  · refine ⟨_, h.putMember hget, ?_, fun x ↦ ?_⟩
    · rw [IndexedMap.size_insert, hget]
      rfl
    · show (t.values.insert _ _).get x = _
      rw [SortedMap.get_insert]
      split_ifs with hx
      · rw [hx, hget]
        rfl
      · rfl
  · by_cases hnear : Score.near old sm.score = true
    · refine ⟨t, by simpa [Zsets.addOne, hnear] using h, by simp [Zsets.addOne, hnear], fun x ↦ ?_⟩
      split_ifs with hx
      · rw [hx, hget, scoreAfter, if_pos hnear]
      · rfl
    · simp only [Zsets.addOne, hnear]
      refine ⟨_, h.moveMember hget, ?_, fun x ↦ ?_⟩
      · rw [IndexedMap.size_insert, hget]
        rfl
      · show (t.values.insert _ _).get x = _
        rw [SortedMap.get_insert]
        split_ifs with hx
        · rw [hx, hget, scoreAfter, if_neg hnear]
        · rfl

/-! ### Several members -/

section Lists

variable {members : List (ScoreMember S)}

theorem get_write_addOne_of_ne {existing : Option S} {x : Bytes} (hx : x ≠ sm.member) :
    (db.write (addOne key version existing sm).1).zsetsDataCF.get ⟨key, version, x⟩ =
      db.zsetsDataCF.get ⟨key, version, x⟩ := by
  refine SortedMap.get_apply_of_notMem fun hin ↦ ?_
  obtain ⟨⟨k, o⟩, hmem, hk⟩ := List.mem_map.1 hin
  have hmem := Entry.mem_zsetWrites.1 hmem
  unfold addOne at hmem
  rcases existing with _ | old
  · simp_all [putMember]
  · dsimp only at hmem
    split_ifs at hmem <;> simp_all [putMember]

section

variable (h : Stores db key version t)

include h

section

variable (hnodup : (members.map ScoreMember.member).Nodup)

include hnodup

/-- All arguments of `zadd`. -/
theorem Stores.additions :
    ∃ t', Stores (db.write ((Zsets.additions db key version members).flatMap Prod.fst)) key
        version t' ∧
      t'.size = t.size + (Zsets.additions db key version members).countP Prod.snd ∧
      ∀ x, t'.values.get x = ((members.find? fun sm ↦ sm.member = x).map fun sm ↦
        scoreAfter (t.values.get x) sm.score).or (t.values.get x) := by
  -- each argument reads the state before the first, which for its member is still the state
  induction members generalizing db t with
  | nil => exact ⟨t, h, rfl, fun _ ↦ rfl⟩
  | cons sm members ih =>
    rw [List.map_cons, List.nodup_cons] at hnodup
    obtain ⟨t₁, h₁, hsize₁, hget₁⟩ := h.addOne sm
    obtain ⟨t', h', hsize', hget'⟩ := ih h₁ hnodup.2
    have hsame : Zsets.additions (db.write (Zsets.addOne key version
        (db.zsetsDataCF.get ⟨key, version, sm.member⟩) sm).1) key version members =
          Zsets.additions db key version members := by
      refine List.map_congr_left fun sm' hsm' ↦ ?_
      rw [get_write_addOne_of_ne fun he ↦ hnodup.1 (he ▸ List.mem_map_of_mem hsm')]
    rw [hsame] at h' hsize'
    refine ⟨t', ?_, ?_, fun x ↦ ?_⟩
    · rw [Zsets.additions, List.map_cons, List.flatMap_cons, Redis.write_append]
      exact h'
    · show _ = t.size + (Zsets.addOne key version
        (db.zsetsDataCF.get ⟨key, version, sm.member⟩) sm ::
          Zsets.additions db key version members).countP Prod.snd
      rw [hsize', hsize₁, List.countP_cons]
      omega
    · rw [hget', hget₁, List.find?_cons]
      by_cases hx : x = sm.member
      · -- no later argument has this member
        have hnone : (members.find? fun sm' ↦ sm'.member = x) = none := by
          rw [List.find?_eq_none]
          intro sm' hsm' he
          refine hnodup.1 (List.mem_map.2 ⟨sm', hsm', ?_⟩)
          rw [of_decide_eq_true he, hx]
        rw [hnone, if_pos hx, decide_eq_true hx.symm]
        rfl
      · rw [if_neg hx, decide_eq_false (Ne.symm hx)]

theorem Stores.putMembers (hnew : ∀ sm ∈ members, t.values.get sm.member = none) :
    ∃ t', Stores (db.write (members.flatMap (Zsets.putMember key version))) key version t' ∧
      t'.size = t.size + members.length := by
  induction members generalizing db t with
  | nil => exact ⟨t, h, rfl⟩
  | cons sm members ih =>
    rw [List.map_cons, List.nodup_cons] at hnodup
    have hsm := hnew sm List.mem_cons_self
    obtain ⟨t', h', hsize⟩ := ih (h.putMember hsm) hnodup.2 fun sm' hsm' ↦ by
      have hne : sm'.member ≠ sm.member := fun he ↦ hnodup.1 (he ▸ List.mem_map_of_mem hsm')
      show (t.values.insert _ _).get _ = none
      rw [SortedMap.get_insert_of_ne _ _ hne]
      exact hnew sm' (List.mem_cons_of_mem _ hsm')
    refine ⟨t', ?_, ?_⟩
    · rw [List.flatMap_cons, Redis.write_append]
      exact h'
    · rw [hsize, IndexedMap.size_insert, hsm, List.length_cons]
      simp only [Option.isSome_none, Bool.false_eq_true, if_false]
      omega

end

theorem Stores.deleteMembers (hold : ∀ sm ∈ members, ∀ s ∈ t.values.get sm.member, s = sm.score) :
    Stores (db.write (members.flatMap (Zsets.deleteMember key version))) key version
      (t.eraseAll (members.map ScoreMember.member)) := by
  induction members generalizing db t with
  | nil => exact h
  | cons sm members ih =>
    rw [List.flatMap_cons, Redis.write_append]
    refine ih (h.deleteMember (hold sm List.mem_cons_self)) fun sm' hsm' s hs ↦ ?_
    -- what is left after the first was there before
    have hs : (t.values.erase sm.member).get sm'.member = some s := hs
    rw [SortedMap.get_erase] at hs
    split_ifs at hs
    exact hold sm' (List.mem_cons_of_mem _ hsm') s hs

theorem Stores.mem_scoreRows_iff :
    sm ∈ scoreRows db key version ↔ t.values.get sm.member = some sm.score := by
  rw [t.coherent, ← h.scores, mem_scoreRows_iff_get]

theorem Stores.slice_members : db.zsetsDataCF.slice (DataKey.part key version) = t.values :=
  SortedMap.ext_get fun x ↦ (SortedMap.get_slice _ _ _).trans (h.members x)

theorem Stores.slice_scores : db.zsetsScoreCF.slice (DataKey.part key version) = t.index :=
  SortedMap.ext_get fun x ↦ (SortedMap.get_slice _ _ _).trans (h.scores (ofLex x).1 (ofLex x).2)

theorem Stores.nodup_scoreRows : ((scoreRows db key version).map ScoreMember.member).Nodup := by
  have hperm := t.keys_index_perm
  rw [scoreRows, DataKey.rowsAt_eq_rows_slice, h.slice_scores, List.map_map]
  rw [SortedMap.keys, List.map_map] at hperm
  exact hperm.nodup_iff.2 t.values.nodup_keys

theorem Stores.size_eraseAll_of_sublist (hsub : members.Sublist (Zsets.scoreRows db key version)) :
    (t.eraseAll (members.map ScoreMember.member)).size + members.length = t.size := by
  have hnodup := h.nodup_scoreRows.sublist (hsub.map ScoreMember.member)
  have hpresent : ∀ x ∈ members.map ScoreMember.member, (t.values.get x).isSome := by
    intro x hx
    obtain ⟨sm, hsm, rfl⟩ := List.mem_map.1 hx
    rw [h.mem_scoreRows_iff.1 (hsub.subset hsm)]
    rfl
  have hsize := SortedMap.size_eraseAll hnodup hpresent
  rw [List.length_map] at hsize
  rw [IndexedMap.size, IndexedMap.values_eraseAll]
  exact hsize

end

end Lists

/-! ### The invariant -/

/-- Every zset that is not empty is an indexed map with as many rows as its count says, and every
version in use is at most `c`. -/
structure Inv (c : ℕ) (db : Redis S) : Prop where
  metaRows : ∀ {key m}, db.metaCF.get key = some (.base m) → m.dataType = .zset → m.version ≤ c ∧
    (m.count ≠ 0 → ∃ t, Stores db key m.version t ∧ t.size = m.count)
  memberRows : ∀ {k s}, db.zsetsDataCF.get k = some s → k.version ≤ c
  scoreRows : ∀ {k u}, db.zsetsScoreCF.get k = some u → k.version ≤ c

theorem inv_empty : Inv 0 (Redis.empty : Redis S) :=
  ⟨fun h ↦ by simp [Redis.empty] at h, fun h ↦ by simp [Redis.empty] at h,
    fun h ↦ by simp [Redis.empty] at h⟩

variable {c c' now v : ℕ} {m : BaseMetaValue} {b : Batch S}

section

variable (h : Inv c db)
include h

theorem Inv.mono (hc : c ≤ c') : Inv c' db :=
  ⟨fun hm hz ↦ ⟨(h.metaRows hm hz).1.trans hc, (h.metaRows hm hz).2⟩,
    fun hk ↦ (h.memberRows hk).trans hc, fun hk ↦ (h.scoreRows hk).trans hc⟩

/-- **A batch for one key.** It keeps the invariant if the rows it puts carry an allowed version and
the zset it leaves at its key is an indexed map of the size its count says. -/
theorem Inv.write (hc : c ≤ c') (hb : Meets [key] (fun _ _ ↦ True) (fun _ v ↦ v ≤ c') b)
    (hmeta : ∀ m, (db.write b).metaCF.get key = some (.base m) → m.dataType = .zset →
      m.version ≤ c' ∧ (m.count ≠ 0 → ∃ t, Stores (db.write b) key m.version t ∧
        t.size = m.count)) : Inv c' (db.write b) := by
  constructor
  · intro k m hm hz
    by_cases hk : k = key
    · subst hk
      exact hmeta m hm hz
    · have hagree : (db.write b).AgreeAt db k := Redis.agreeAt_write_of_ne hb.toNames hk
      rw [hagree.metaCF] at hm
      obtain ⟨hle, htable⟩ := h.metaRows hm hz
      refine ⟨hle.trans hc, fun hcount ↦ ?_⟩
      obtain ⟨t, ht, hsize⟩ := htable hcount
      exact ⟨t, ht.congr hagree, hsize⟩
  · intro k s hs
    rcases SortedMap.get_apply_eq_some hs with hput | hold
    · exact (hb _ (Entry.mem_zsetWrites.1 hput)).2
    · exact (h.memberRows hold).trans hc
  · intro k u hu
    rcases SortedMap.get_apply_eq_some hu with hput | hold
    · exact (hb _ (Entry.mem_scoreWrites.1 hput)).2
    · exact (h.scoreRows hold).trans hc

theorem Inv.stores_empty (hv : c < v) : Stores db key v .empty := by
  constructor
  · refine fun x ↦ Option.eq_none_iff_forall_ne_some.2 fun s hs ↦ ?_
    exact absurd (h.memberRows hs) (not_le.2 hv)
  · refine fun s x ↦ Option.eq_none_iff_forall_ne_some.2 fun u hu ↦ ?_
    exact absurd (h.scoreRows hu) (not_le.2 hv)

theorem Inv.found (hm : db.baseMeta .zset key now = .ok (some m)) :
    db.metaCF.get key = some (.base m) ∧ m.dataType = .zset ∧ m.version ≤ c ∧ m.count ≠ 0 ∧
      ∃ t, Stores db key m.version t ∧ t.size = m.count := by
  obtain ⟨hlive, hz⟩ := Redis.baseMeta_eq_ok_some_iff.1 hm
  have hvalid := Redis.isValid_of_liveMeta hlive
  have hcount : m.count ≠ 0 := by
    simp only [BaseMetaValue.isValid, Bool.and_eq_true, bne_iff_ne] at hvalid
    exact hvalid.2
  obtain ⟨hget, -⟩ := Redis.liveMeta_eq_some_iff.1 hlive
  obtain ⟨hv, ht⟩ := h.metaRows hget hz
  exact ⟨hget, hz, hv, hcount, ht hcount⟩

/-! ### One operation -/

theorem inv_createZset (hnow : c < now) {members : List (ScoreMember S)}
    (hnodup : (members.map ScoreMember.member).Nodup) :
    Inv now (db.write (createZset key members now)) := by
  have hversion : updateVersion 0 now = now := updateVersion_of_lt (by omega)
  refine h.write hnow.le (meets_createZset (fun _ ↦ trivial) hversion.le members) fun m hm _ ↦ ?_
  rw [get_metaCF_write_createZset] at hm
  obtain rfl := MetaValue.base.inj (Option.some.inj hm)
  refine ⟨hversion.le, fun _ ↦ ?_⟩
  have hempty : Stores (db.write [.metaCF key (some (.base ((BaseMetaValue.new .zset members.length
      now).updateVersion now)))]) key (updateVersion 0 now) .empty := by
    rw [hversion]
    have hbefore : Stores db key now .empty := h.stores_empty hnow
    exact hbefore.append_meta (b := [])
  obtain ⟨t, ht, hsize⟩ := hempty.putMembers hnodup fun _ _ ↦ rfl
  rw [← Redis.write_append] at ht
  exact ⟨t, ht, hsize.trans (Nat.zero_add _)⟩

theorem inv_zadd (hnow : c < now) (scoreMembers : List (ScoreMember S)) :
    Inv now ((zadd key scoreMembers now).exec db).2 := by
  have hnodup : ((firstBy ScoreMember.member scoreMembers).map ScoreMember.member).Nodup :=
    nodup_map_firstBy
  rw [exec_zadd]
  generalize firstBy ScoreMember.member scoreMembers = members at hnodup
  dsimp only
  split_ifs
  · exact h.mono hnow.le
  rcases hm : db.baseMeta .zset key now with e | (_ | m)
  · exact h.mono hnow.le
  · exact inv_createZset h hnow hnodup
  · dsimp only
    split_ifs with hcheck
    · obtain ⟨-, -, hv, -, t, ht, hsize⟩ := h.found hm
      refine h.write hnow.le ((meets_additions (hv.trans hnow.le) members).append
        (meets_meta trivial)) fun m' hm' _ ↦ ?_
      rw [Redis.get_metaCF_write_append] at hm'
      obtain rfl := MetaValue.base.inj (Option.some.inj hm')
      refine ⟨hv.trans hnow.le, fun _ ↦ ?_⟩
      obtain ⟨t', ht', hsize', -⟩ := ht.additions hnodup
      refine ⟨t', ht'.append_meta, ?_⟩
      rw [BaseMetaValue.checkModifyCount, decide_eq_true_iff] at hcheck
      show t'.size = min (m.count + _) (2 ^ 64 - 1)
      omega
    · exact h.mono hnow.le

theorem inv_zincrby (hnow : c < now) (increment : S) (member : Bytes) :
    Inv now ((zincrby key increment member now).exec db).2 := by
  have hadd : Inv now ((do
      let _ ← zadd key [⟨increment, member⟩] now
      return Score.format increment : Op S Bytes).exec db).2 := by
    rw [Program.exec_bind_pure]
    exact inv_zadd h hnow _
  rw [exec_zincrby_eq, Program.exec_bind, exec_zincrbyLocked]
  rcases hm : db.baseMeta .zset key now with e | (_ | m)
  · exact h.mono hnow.le
  · exact hadd
  dsimp only [Option.bind_some]
  rcases hget : db.zsetsDataCF.get ⟨key, m.version, member⟩ with _ | current
  · exact hadd
  dsimp only [Option.map_some]
  split_ifs
  · exact h.mono hnow.le
  obtain ⟨hget', hz, hv, -, t, ht, hsize⟩ := h.found hm
  rw [ht.members] at hget
  refine h.write hnow.le (meets_moveMember (hv.trans hnow.le) current ⟨_, member⟩) fun m' hm' _ ↦ ?_
  -- the meta row is the one that was found
  obtain rfl : m = m' := MetaValue.base.inj (Option.some.inj (hget'.symm.trans hm'))
  refine ⟨hv.trans hnow.le, fun _ ↦ ⟨_, ht.moveMember hget, ?_⟩⟩
  rw [IndexedMap.size_insert, hget]
  exact hsize

theorem inv_zremrangeby (range : Range S) : Inv c ((zremrangeby key range now).exec db).2 := by
  rw [exec_zremrangeby]
  rcases hm : db.baseMeta .zset key now with e | (_ | m)
  · exact h
  · exact h
  dsimp only
  rcases hsel : range.select (scoreRows db key m.version) m with e | selected
  · exact h
  dsimp only
  rw [exec_removeSelected]
  split_ifs
  · exact h
  obtain ⟨-, -, hv, -, t, ht, hsize⟩ := h.found hm
  have hsub := Range.select_sublist hsel
  refine h.write le_rfl (meets_removal (fun _ ↦ trivial) selected) fun m' hm' _ ↦ ?_
  rw [putOrDeleteBaseMeta, Redis.get_metaCF_write_append] at hm'
  split_ifs at hm'
  obtain rfl := MetaValue.base.inj (Option.some.inj hm')
  refine ⟨hv, fun _ ↦ ?_⟩
  have hrows : ∀ sm ∈ selected, t.values.get sm.member = some sm.score := fun sm hsm ↦
    ht.mem_scoreRows_iff.1 (hsub.subset hsm)
  have hdeleted := ht.deleteMembers fun sm hsm s hs ↦ Option.some.inj (hs.symm.trans (hrows sm hsm))
  have hsize' := ht.size_eraseAll_of_sublist hsub
  refine ⟨_, hdeleted.append_meta, ?_⟩
  show _ = m.count - selected.length
  omega

theorem inv_clearDestination (destination : Bytes) :
    Inv c (db.write (clearDestination db destination now)) := by
  refine h.write le_rfl meets_clearDestination fun m' hm' _ ↦ ?_
  rw [get_metaCF_clearDestination] at hm'
  cases hm'

theorem inv_zsetStoreOperation (hnow : c < now) (destination : Bytes)
    (keys : List Bytes) (weights : List S) (aggregate : Bytes) (isInter : Bool) :
    Inv now ((zsetStoreOperation destination keys weights aggregate isInter now).exec db).2 := by
  rw [exec_zsetStoreOperation]
  rcases hres : resultOf db keys weights aggregate isInter now with e | (_ | result)
  · exact h.mono hnow.le
  · exact h.mono hnow.le
  dsimp only
  have hclear : Inv c (db.write (clearDestination db destination now)) :=
    inv_clearDestination h destination
  split_ifs
  · exact hclear.mono hnow.le
  · rw [Redis.write_append]
    exact inv_createZset hclear hnow (nodup_of_resultOf hres)

theorem inv_delKey (hnow : c < now) : Inv now ((Strings.delKey key now).exec db).2 := by
  rw [Strings.exec_delKey]
  rcases hm : db.liveMeta key now with _ | m
  · exact h.mono hnow.le
  refine h.write hnow.le (meets_anyMeta (fun _ ↦ trivial) _) fun m' hm' hz ↦ ?_
  have hget := Redis.get_metaCF_write_append db [] key (Strings.deletedMeta now m)
  rw [List.nil_append, hm'] at hget
  -- only a zset leaves a zset, and it is empty
  rcases m with v | m | m
  · cases hget
  · obtain rfl := MetaValue.base.inj (Option.some.inj hget)
    have hv := (h.metaRows (Redis.liveMeta_eq_some_iff.1 hm).1 hz).1
    exact ⟨(updateVersion_of_lt (by omega)).le, fun hc ↦ absurd rfl hc⟩
  · cases hget

end

/-! ### Runs -/

/-- The operations that write zsets, and deletion. -/
inductive Command (S : Type)
  | zadd (key : Bytes) (scoreMembers : List (ScoreMember S))
  | zincrby (key : Bytes) (increment : S) (member : Bytes)
  | zremrangebyrank (key : Bytes) (start stop : ℤ)
  | zremrangebyscore (key : Bytes) (minScore maxScore : S)
  | zremrangebylex (key min max : Bytes)
  | zunionstore (destination : Bytes) (keys : List Bytes) (weights : List S) (aggregate : Bytes)
  | zinterstore (destination : Bytes) (keys : List Bytes) (weights : List S) (aggregate : Bytes)
  | delKey (key : Bytes)

/-- What a command leaves. -/
def Command.step (db : Redis S) (now : ℕ) : Command S → Redis S
  | zadd key scoreMembers => ((Zsets.zadd key scoreMembers now).exec db).2
  | zincrby key increment member => ((Zsets.zincrby key increment member now).exec db).2
  | zremrangebyrank key start stop => ((Zsets.zremrangebyrank key start stop now).exec db).2
  | zremrangebyscore key minScore maxScore =>
    ((Zsets.zremrangebyscore key minScore maxScore now).exec db).2
  | zremrangebylex key min max => ((Zsets.zremrangebylex key min max now).exec db).2
  | zunionstore destination keys weights aggregate =>
    ((Zsets.zunionstore destination keys weights aggregate now).exec db).2
  | zinterstore destination keys weights aggregate =>
    ((Zsets.zinterstore destination keys weights aggregate now).exec db).2
  | delKey key => ((Strings.delKey key now).exec db).2

theorem inv_step (h : Inv c db) (hnow : c < now) (command : Command S) :
    Inv now (command.step db now) := by
  cases command with
  | zadd key scoreMembers => exact inv_zadd h hnow scoreMembers
  | zincrby key increment member => exact inv_zincrby h hnow increment member
  | zremrangebyrank key start stop => exact (inv_zremrangeby h (.rank start stop)).mono hnow.le
  | zremrangebyscore key minScore maxScore =>
    exact (inv_zremrangeby h (.score minScore maxScore)).mono hnow.le
  | zremrangebylex key min max => exact (inv_zremrangeby h (.lex min max)).mono hnow.le
  | zunionstore destination keys weights aggregate =>
    exact inv_zsetStoreOperation h hnow destination keys weights aggregate false
  | zinterstore destination keys weights aggregate =>
    exact inv_zsetStoreOperation h hnow destination keys weights aggregate true
  | delKey key => exact inv_delKey h hnow

/-- The state after a run from the empty database. -/
def stateAfter (steps : List (ℕ × Command S)) : Redis S :=
  (Run.final (Run.tick Command.step) (0, Redis.empty) steps).2

/-- A run on an advancing clock. -/
def ClockAdvances (steps : List (ℕ × Command S)) : Prop :=
  Run.Allowed (Run.tick Command.step) Run.Advances (0, (Redis.empty : Redis S)) steps

instance (steps : List (ℕ × Command S)) : Decidable (ClockAdvances steps) :=
  inferInstanceAs (Decidable (Run.Allowed ..))

theorem exists_inv_stateAfter {steps : List (ℕ × Command S)} (h : ClockAdvances steps) :
    ∃ c, Inv c (stateAfter steps) := by
  have hstep : ∀ (s : ℕ × Redis S) (a : ℕ × Command S), Inv s.1 s.2 → Run.Advances s a →
      Inv (Run.tick Command.step s a).1 (Run.tick Command.step s a).2 :=
    fun _ a hs ha ↦ inv_step hs ha a.2
  exact ⟨_, Run.invariant (I := fun s ↦ Inv s.1 s.2) hstep inv_empty h⟩

/-- **The two indexes agree.** In every state reached from the empty database on an advancing clock,
the member rows and the score rows of a live zset are the same pairs, a member has no second score
row, and the count is the number of rows on either side and positive. -/
theorem member_rows_iff_score_rows (steps : List (ℕ × Command S)) (hclock : ClockAdvances steps)
    (key : Bytes) (m : BaseMetaValue) (now : ℕ)
    (hm : (stateAfter steps).liveMeta key now = some (.base m)) (hz : m.dataType = .zset) :
    (∀ x s, (stateAfter steps).zsetsDataCF.get ⟨key, m.version, x⟩ = some s ↔
      (stateAfter steps).zsetsScoreCF.get (scoreKey key m.version s x) = some ()) ∧
    (∀ x s s', (stateAfter steps).zsetsScoreCF.get (scoreKey key m.version s x) = some () →
      (stateAfter steps).zsetsScoreCF.get (scoreKey key m.version s' x) = some () → s = s') ∧
    (DataKey.rowsAt (stateAfter steps).zsetsDataCF key m.version).length = m.count ∧
    (DataKey.rowsAt (stateAfter steps).zsetsScoreCF key m.version).length = m.count ∧
    0 < m.count := by
  obtain ⟨c, h⟩ := exists_inv_stateAfter hclock
  obtain ⟨-, -, -, hcount, t, ht, hsize⟩ := h.found (Redis.baseMeta_eq_ok_some_iff.2 ⟨hm, hz⟩)
  have hiff : ∀ x s, (stateAfter steps).zsetsDataCF.get ⟨key, m.version, x⟩ = some s ↔
      (stateAfter steps).zsetsScoreCF.get (scoreKey key m.version s x) = some () := by
    intro x s
    rw [ht.members, ht.scores]
    exact t.coherent
  refine ⟨hiff, fun x s s' hs hs' ↦ ?_, ?_, ?_, Nat.pos_of_ne_zero hcount⟩
  · exact Option.some.inj (((hiff x s).2 hs).symm.trans ((hiff x s').2 hs'))
  · rw [DataKey.rowsAt_eq_rows_slice, ← hsize]
    exact congrArg SortedMap.size ht.slice_members
  · rw [DataKey.rowsAt_eq_rows_slice, ← hsize, ← t.size_index_eq]
    exact congrArg SortedMap.size ht.slice_scores

/-- A zset with a repeated member, an update, an increment, a range removal and a union. -/
def addMoveRemoveUnite : List (ℕ × Command ℤ) :=
  [(1, .zadd [1] [⟨3, [97]⟩, ⟨1, [98]⟩, ⟨9, [97]⟩, ⟨7, [99]⟩]), (2, .zadd [1] [⟨4, [97]⟩]),
    (3, .zincrby [1] 5 [98]), (4, .zremrangebyrank [1] (-1) (-1)),
    (5, .zunionstore [2] [[1], [1]] [] [83, 85, 77])]

/-- The union that the run stores has two members, each with a row in both families. -/
theorem member_rows_iff_score_rows_addMoveRemoveUnite :
    ∃ m : BaseMetaValue, m.count = 2 ∧
      (stateAfter addMoveRemoveUnite).liveMeta [2] 6 = some (.base m) ∧
      ∀ x s, (stateAfter addMoveRemoveUnite).zsetsDataCF.get ⟨[2], m.version, x⟩ = some s ↔
        (stateAfter addMoveRemoveUnite).zsetsScoreCF.get (scoreKey [2] m.version s x) =
          some () := by
  have hrun : (stateAfter addMoveRemoveUnite).liveMeta [2] 6 =
      some (.base ⟨.zset, 2, 5, 5, 0⟩) := by
    decide +kernel
  refine ⟨_, ?_, hrun, ?_⟩
  · rfl
  · exact (member_rows_iff_score_rows addMoveRemoveUnite (by decide +kernel) [2] _ 6 hrun rfl).1

end Kiwi.ZsetIndex
