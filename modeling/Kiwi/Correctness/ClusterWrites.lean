import Kiwi.Correctness.Edits.Operations
import Kiwi.Correctness.Liveness
import Kiwi.Raft.BinlogBatch

/-!
# Writes of a cluster

An operation that writes one key does the same through a `BinlogBatch` whose binlog is applied at
once as through a `RocksBatch` (`cluster_writes_eq_standalone`). The encoded keys of its writes give
the user key back (`inferUserKey_physicalKey`): zeros of the key are escaped, so the first double
zero behind the reserved bytes ends it whatever follows. Hence the binlog has the slot of the key,
passes the checks and is applied to the instance on which the operation runs.

A batch with keys of several slots fails before `append_log_fn` is called.
-/

namespace Kiwi.Raft

open Program Edits

variable {S α : Type}

/-! ### The user key of an encoded key -/

theorem inferUserKey_encodedKey {cfIdx tail : ℕ} {userKey rest : Bytes} (hcf : cfIdx ≠ 6)
    (htail : tailLength cfIdx = some tail)
    (hrest : if cfIdx = 0 ∨ cfIdx = 3 then rest.length + 16 = tail else tail ≤ rest.length + 16) :
    inferUserKey cfIdx (encodedKey userKey rest) = .ok userKey := by
  have hlen := two_le_length_encodeUserKey userKey
  have hle : tail ≤ rest.length + 16 := by
    split_ifs at hrest
    · exact hrest.ge
    · exact hrest
  have hdrop : (encodedKey userKey rest).drop 8 =
      encodeUserKey userKey ++ (rest ++ List.replicate 16 0) := by
    rw [encodedKey, List.drop_left' (by simp)]
  rw [inferUserKey, if_neg hcf, htail]
  dsimp only
  rw [hdrop, seekUserkeyDelim_encodeUserKey, List.take_left' rfl, if_neg, if_neg, if_pos,
    decodeUserKey_encodeUserKey]
  · simpa using hrest
  · simp
  · rw [encodedKey]
    simp
    omega

/-- **The user key of every write.** -/
theorem inferUserKey_physicalKey (codec : RowCodec S) (e : Kiwi.Entry S) :
    inferUserKey (cfOf e).idx (physicalKey codec e) = .ok e.key := by
  cases e with
  | metaCF => exact inferUserKey_encodedKey (show 0 ≠ 6 by decide) rfl rfl
  | hashesDataCF =>
    refine inferUserKey_encodedKey (show 1 ≠ 6 by decide) rfl ?_
    rw [List.length_append, MetaValue.length_leBytes]
    exact Nat.add_le_add_right (Nat.le_add_right 8 _) 16
  | setsDataCF =>
    refine inferUserKey_encodedKey (show 2 ≠ 6 by decide) rfl ?_
    rw [List.length_append, MetaValue.length_leBytes]
    exact Nat.add_le_add_right (Nat.le_add_right 8 _) 16
  | listsDataCF =>
    refine inferUserKey_encodedKey (show 3 ≠ 6 by decide) rfl ?_
    rw [List.length_append, MetaValue.length_leBytes, MetaValue.length_leBytes]
    rfl
  | zsetsDataCF =>
    refine inferUserKey_encodedKey (show 4 ≠ 6 by decide) rfl ?_
    rw [List.length_append, MetaValue.length_leBytes]
    exact Nat.add_le_add_right (Nat.le_add_right 8 _) 16
  | zsetsScoreCF =>
    refine inferUserKey_encodedKey (show 5 ≠ 6 by decide) rfl ?_
    rw [List.length_append, List.length_append, MetaValue.length_leBytes, MetaValue.length_leBytes,
      ← Nat.add_assoc]
    exact Nat.add_le_add_right (Nat.le_add_right 16 _) 16

/-! ### Commits of one key -/

variable {codec : RowCodec S} {key : Bytes} {b : Batch S}

/-- All writes of a batch are of one key. -/
def OnKey (key : Bytes) (b : Batch S) : Prop := ∀ e ∈ b, e.key = key

theorem inferSlotIdx_of_onKey (h : OnKey key b) :
    inferSlotIdx (some (keyToSlotId key)) (b.map (toBinlogEntry codec)) = .ok (keyToSlotId key) := by
  induction b with
  | nil => rfl
  | cons e b ih =>
    rw [List.map_cons, inferSlotIdx, toBinlogEntry, inferUserKey_physicalKey,
      h e List.mem_cons_self]
    dsimp only
    rw [if_neg (not_not.2 rfl)]
    exact ih fun e he ↦ h e (List.mem_cons_of_mem _ he)

theorem checkEntries_of_onKey (h : OnKey key b) :
    checkEntries (keyToSlotId key) (b.map (toBinlogEntry codec)) = .ok () := by
  induction b with
  | nil => rfl
  | cons e b ih =>
    have hcheck : checkEntry (keyToSlotId key) (toBinlogEntry codec e) = .ok () := by
      have hkey := inferUserKey_physicalKey codec e
      rw [h e List.mem_cons_self] at hkey
      rw [checkEntry, toBinlogEntry]
      rcases physicalValue codec e with _ | value <;> simp [hkey]
    rw [List.map_cons, checkEntries, hcheck]
    exact ih fun e he ↦ h e (List.mem_cons_of_mem _ he)

theorem ofIdx_idx (cf : ColumnFamilyIndex) : ColumnFamilyIndex.ofIdx cf.idx = some cf := by
  cases cf <;> rfl

theorem buildBatch_map (instanceId : ℕ) :
    buildBatch instanceId (b.map (toBinlogEntry codec)) = .ok (b.map (toRocks codec instanceId)) := by
  induction b with
  | nil => rfl
  | cons e b ih =>
    have hop : toWriteOp instanceId (toBinlogEntry codec e) = .ok (toRocks codec instanceId e) := by
      rw [toWriteOp, toBinlogEntry, ofIdx_idx, toRocks]
      rcases physicalValue codec e with _ | value <;> rfl
    rw [List.map_cons, buildBatch, hop, ih]
    rfl

/-- A storage whose instances are open and whose database is that of the binlogs. -/
structure Ready (storage : Storage) (instanceNum : ℕ) : Prop where
  isOpen : storage.Open
  dbId : storage.dbId = 0
  instanceNum : storage.instanceNum = instanceNum

variable {storage : Storage} {instanceNum : ℕ}

section

variable (hstorage : Ready storage instanceNum)

include hstorage

theorem validateBinlog_of_onKey (hb : b ≠ []) (h : OnKey key b) :
    validateBinlog storage ⟨0, keyToSlotId key, b.map (toBinlogEntry codec)⟩ = .ok () := by
  rw [validateBinlog, hstorage.dbId, if_neg (by decide), if_neg (not_not.2 rfl),
    validateBinlogEntries, if_neg (by simpa using hb)]
  exact checkEntries_of_onKey h

/-- **A commit of one key.** -/
theorem commitBinlog_eq_commitRocks (h : OnKey key b) :
    commitBinlog codec b storage = commitRocks codec (instanceOf instanceNum key) b storage := by
  obtain rfl := hstorage.instanceNum
  rw [commitBinlog, binlogCommit]
  rcases b with _ | ⟨e, b⟩
  · rfl
  have hslot : inferSlotIdx none ((e :: b).map (toBinlogEntry codec)) = .ok (keyToSlotId key) := by
    rw [List.map_cons, inferSlotIdx, toBinlogEntry, inferUserKey_physicalKey,
      h e List.mem_cons_self]
    exact inferSlotIdx_of_onKey fun e he ↦ h e (List.mem_cons_of_mem _ he)
  rw [if_neg (by simp), hslot]
  dsimp only
  rw [applyNow, onBinlogWrite_of_valid hstorage.isOpen
    (validateBinlog_of_onKey hstorage (List.cons_ne_nil e b) h), Binlog.batch, buildBatch_map]
  rfl

theorem ready_of_commitBinlog {storage' : Storage}
    (h : OnKey key b) (hcommit : commitBinlog codec b storage = .ok storage') :
    Ready storage' instanceNum := by
  rw [commitBinlog_eq_commitRocks hstorage h] at hcommit
  obtain rfl := Except.ok.inj hcommit
  exact ⟨⟨hstorage.isOpen.pos, hstorage.isOpen.insts⟩, hstorage.dbId, hstorage.instanceNum⟩

end

/-! ### Commits of several slots -/

theorem inferSlotIdx_some (codec : RowCodec S) {slot : ℕ} (h : ∃ e ∈ b, keyToSlotId e.key ≠ slot) :
    ∃ message, inferSlotIdx (some slot) (b.map (toBinlogEntry codec)) =
      .error (.batch message) := by
  induction b with
  | nil =>
    obtain ⟨e, he, -⟩ := h
    exact absurd he List.not_mem_nil
  | cons e b ih =>
    rw [List.map_cons, inferSlotIdx, toBinlogEntry, inferUserKey_physicalKey]
    dsimp only
    by_cases hslot : slot = keyToSlotId e.key
    · rw [if_neg (not_not.2 hslot)]
      refine ih ?_
      obtain ⟨e', he', hne⟩ := h
      rcases List.mem_cons.1 he' with rfl | he'
      · exact absurd hslot.symm hne
      · exact ⟨e', he', hne⟩
    · rw [if_pos hslot]
      exact ⟨_, rfl⟩

/-- **Several slots.** The commit fails whatever `append_log_fn` does, so it is not called. -/
theorem binlogCommit_of_slots (codec : RowCodec S) {T : Type}
    (appendLogFn : Binlog → T → Except WriteError T)
    {e e' : Kiwi.Entry S} (he : e ∈ b) (he' : e' ∈ b)
    (hne : keyToSlotId e.key ≠ keyToSlotId e'.key) (t : T) :
    ∃ message, binlogCommit appendLogFn (b.map (toBinlogEntry codec)) t =
      .error (.batch message) := by
  rcases b with _ | ⟨first, b⟩
  · exact absurd he List.not_mem_nil
  have hother : ∃ e ∈ b, keyToSlotId e.key ≠ keyToSlotId first.key := by
    rcases List.mem_cons.1 he with rfl | he
    · rcases List.mem_cons.1 he' with rfl | he'
      · exact absurd rfl hne
      · exact ⟨e', he', hne.symm⟩
    · by_cases heq : keyToSlotId e.key = keyToSlotId first.key
      · rcases List.mem_cons.1 he' with rfl | he'
        · exact absurd heq hne
        · exact ⟨e', he', fun heq' ↦ hne (heq.trans heq'.symm)⟩
      · exact ⟨e, he, heq⟩
  obtain ⟨message, hmessage⟩ := inferSlotIdx_some codec hother
  refine ⟨message, ?_⟩
  rw [binlogCommit, if_neg (by simp), List.map_cons, inferSlotIdx, toBinlogEntry,
    inferUserKey_physicalKey]
  dsimp only
  rw [hmessage]

/-! ### Operations that write one key -/

section

variable [Score S]

/-- The operation is a script whose batches are of one key. -/
abbrev KeyScript (key : Bytes) (p : Op S α) : Prop := Scripted Redis.write (OnKey key) p

theorem onKey_of_rule {r : Expiry.Rule} {now : ℕ} {db : Redis S}
    (hr : r = .keeps [key] ∨ r = .resets [key] ∨ r = .sets [key]) (hb : Writes r now db b) :
    OnKey key b := by
  rcases hr with rfl | rfl | rfl <;> exact fun e he ↦ List.mem_singleton.1 (hb e he).1

omit [Score S] in
theorem rule_of_writtenKey {o : Operation S α} (h : writtenKey? o = some key) :
    Expiry.rule o = .keeps [key] ∨ Expiry.rule o = .resets [key] ∨
      Expiry.rule o = .sets [key] := by
  cases o with
  | string o => cases o <;> cases h <;> simp [Expiry.rule, Expiry.stringRule]
  | list o => cases o <;> cases h <;> simp [Expiry.rule, Expiry.listRule]
  | hash o => cases o <;> cases h <;> simp [Expiry.rule, Expiry.hashRule]
  | set o => cases o <;> cases h <;> simp [Expiry.rule, Expiry.setRule]
  | zset o => cases o <;> cases h <;> simp [Expiry.rule, Expiry.zsetRule]

/-- **Operations that write one key** are scripts with batches of that key. -/
theorem keyScript_run (o : Operation S α) (h : writtenKey? o = some key) (now : ℕ) :
    KeyScript key (o.run now) := by
  have hplain : isPlain o = true → KeyScript key (o.run now) := fun ho ↦
    scripted_of_commits fun db ↦ (commits_operation (.refl now db) o ho).mono fun _ _ hb ↦
      onKey_of_rule (rule_of_writtenKey h) hb
  cases o with
  | string o =>
    cases o with
    | setKeyEtime key etime =>
      cases h
      refine scripted_of_commits fun db ↦
        (commits_setKeyEtime (.refl now db) key etime).mono fun _ b hb e he ↦ ?_
      obtain ⟨m, -, rfl⟩ := hb
      rw [List.mem_singleton.1 he]
      rfl
    | _ => exact hplain rfl
  | list o | hash o => cases o <;> first | exact hplain rfl | cases h
  | set => exact hplain rfl
  | zset o => cases o <;> first | exact hplain rfl | cases h

/-- With a `RocksBatch`, a script does to what it sees of the instance what its program does. -/
theorem runRocks_eq_exec {view : Contents → ℕ → Redis S} {instanceId : ℕ}
    (hview : ∀ (contents : Contents) (b : Batch S),
      view (contents.write (b.map (toRocks codec instanceId))) instanceId =
        (view contents instanceId).write b)
    (sc : OpScript S α) (storage : Storage) :
    ((runRocks codec view instanceId sc storage).1,
        view (runRocks codec view instanceId sc storage).2.contents instanceId) =
      (((sc.denote Redis.write).exec (view storage.contents instanceId)).1.mapError
          WriteError.other,
        ((sc.denote Redis.write).exec (view storage.contents instanceId)).2) := by
  rw [← Script.runWith_write]
  induction sc generalizing storage with
  | done r => cases r <;> rfl
  | look next ih => exact ih _ storage
  | commit b next ih =>
    have hnext := ih { storage with
      contents := storage.contents.write (b.map (toRocks codec instanceId)) }
    rw [hview] at hnext
    exact hnext

/-- **The write path of a cluster.** An operation that writes one key, in the instance of the key,
does the same with a `BinlogBatch` as with a `RocksBatch`; the encoded keys of all its writes give
the key back, and its binlogs pass the checks. A batch with keys of several slots fails and leaves
the storage as it was, whatever `append_log_fn` would do. -/
theorem cluster_writes_eq_standalone (codec : RowCodec S) (view : Contents → ℕ → Redis S) :
    (∀ {α : Type} (o : Operation S α) (key : Bytes) (now : ℕ), writtenKey? o = some key →
      ∃ sc : OpScript S α, sc.denote Redis.write = o.run now ∧
        (sc.All fun b ↦ ∀ e ∈ b,
          inferUserKey (toBinlogEntry codec e).cfIdx (toBinlogEntry codec e).key = .ok key) ∧
        ∀ storage : Storage, storage.Open → storage.dbId = 0 →
          (sc.All fun b ↦ b ≠ [] → validateBinlog storage
            ⟨0, keyToSlotId key, b.map (toBinlogEntry codec)⟩ = .ok ()) ∧
          runBinlog codec view (instanceOf storage.instanceNum key) sc storage =
            runRocks codec view (instanceOf storage.instanceNum key) sc storage) ∧
    ∀ b : Batch S, (∃ e ∈ b, ∃ e' ∈ b, keyToSlotId e.key ≠ keyToSlotId e'.key) →
      (∀ (T : Type) (appendLogFn : Binlog → T → Except WriteError T) (t : T), ∃ message,
        binlogCommit appendLogFn (b.map (toBinlogEntry codec)) t = .error (.batch message)) ∧
      ∀ (α : Type) (sc : OpScript S α) (storage : Storage) (instanceId : ℕ), ∃ message,
        runBinlog codec view instanceId (.commit b sc) storage =
          (.error (.batch message), storage) := by
  refine ⟨fun o key now ho ↦ ?_, fun b hb ↦ ?_⟩
  · obtain ⟨sc, hdenote, hall⟩ := keyScript_run o ho now
    refine ⟨sc, hdenote, hall.mono fun b hb e he ↦ ?_, fun storage hopen hdb ↦ ?_⟩
    · rw [← hb e he]
      exact inferUserKey_physicalKey codec e
    · have hready : Ready storage storage.instanceNum := ⟨hopen, hdb, rfl⟩
      refine ⟨hall.mono fun b hb hne ↦ validateBinlog_of_onKey hready hne hb, ?_⟩
      rw [runBinlog, runRocks]
      refine Script.runWith_congr (P := OnKey key)
        (I := fun storage' ↦ Ready storage' storage.instanceNum) ?_ ?_ hall hready
      · exact fun b storage' hb hstorage ↦ commitBinlog_eq_commitRocks hstorage hb
      · exact fun b storage' storage'' hb hstorage ↦ ready_of_commitBinlog hstorage hb
  · obtain ⟨e, he, e', he', hne⟩ := hb
    refine ⟨fun T appendLogFn t ↦ binlogCommit_of_slots codec appendLogFn he he' hne t,
      fun α sc storage instanceId ↦ ?_⟩
    obtain ⟨message, hmessage⟩ := binlogCommit_of_slots codec applyNow he he' hne storage
    refine ⟨message, ?_⟩
    rw [runBinlog, Script.runWith, commitBinlog, hmessage]

end

/-- A `SET` of a key with a zero and a one in it, in a storage with three instances. -/
theorem set_eq_standalone :
    ∃ sc : OpScript ℤ PUnit, sc.denote Redis.write = Strings.set [0, 1, 0] [2] 7 ∧
      runBinlog ⟨Int.toNat, id, [], id, fun _ ↦ [], []⟩ (fun _ _ ↦ Redis.empty)
          (instanceOf 3 [0, 1, 0]) sc ⟨0, 3, 3, Database.empty⟩ =
        runRocks ⟨Int.toNat, id, [], id, fun _ ↦ [], []⟩ (fun _ _ ↦ Redis.empty)
          (instanceOf 3 [0, 1, 0]) sc ⟨0, 3, 3, Database.empty⟩ := by
  obtain ⟨sc, hdenote, -, hrun⟩ := (cluster_writes_eq_standalone (S := ℤ)
    ⟨Int.toNat, id, [], id, fun _ ↦ [], []⟩ fun _ _ ↦ Redis.empty).1
      (.string (.set [0, 1, 0] [2])) [0, 1, 0] 7 rfl
  exact ⟨sc, hdenote, (hrun ⟨0, 3, 3, Database.empty⟩ ⟨by decide, rfl⟩ rfl).2⟩

end Kiwi.Raft
