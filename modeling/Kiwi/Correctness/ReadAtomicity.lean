import Kiwi.Storage.Reads

/-!
# Reads and the states they see

A read that makes several accesses answers as if it had run alone on one of the states that were
current while it ran, if the commits of others in the meantime are `Harmless`. Before the first
access of a read every commit is harmless to it, and to `hmget` and `smismember` every commit is,
since they read everything from one snapshot.

The other reads look their rows up under the version that they found in the meta value. `smembers`,
`sismember`, `zrangebyscore`, `zscore` and `hgetall` use nothing else of it. A commit that changes
rows under that version is harmless to them if the key then still has a collection under it, or if
it takes away all of the rows and the key with them; commits that leave these rows alone, such as a
deletion, always are. `lindex`, `lrange` and `zrange` also use the count and the indexes of the meta
value; to them a commit is harmless if it leaves the key alone.

Commits that are not harmless lead to answers that no state explains (`answers_of_no_state`).
-/

namespace Kiwi

variable {S α β : Type} [Score S] {db db' : Redis S} {key : Bytes} {now version : ℕ}

/-! ### Reads alone -/

variable {ks : List (DataKey ℕ)}

theorem Reads.alone_elements (acc : List Bytes) :
    (elements acc ks).alone Access.look db = .ok (acc ++ ks.filterMap db.listsDataCF.get) := by
  induction ks generalizing acc with
  | nil =>
    rw [List.filterMap_nil, List.append_nil]
    rfl
  | cons k ks ih =>
    rw [elements, Reading.alone, ih, List.append_assoc]
    rcases hget : db.listsDataCF.get k with _ | x
    · rw [List.filterMap_cons_none hget, show Access.look (.element k) db = none from hget]
      rfl
    · rw [List.filterMap_cons_some hget, show Access.look (.element k) db = some x from hget]
      rfl

theorem Reads.filterMap_rangeKeys (m : ListsMetaValue) (start stop : ℤ) :
    (rangeKeys key m start stop).filterMap db.listsDataCF.get =
      Lists.elementsBetween db key m start stop := by
  rw [rangeKeys, Lists.elementsBetween]
  split_ifs
  · rfl
  · rw [List.filterMap_map]
    rfl

/-- A read that answers `missing` where there is no key, and else goes on with its meta value. -/
theorem alone_afterCheck {M : Type} (checked : Except Error (Option M)) {missing : α}
    {next : M → Reading (Access S) (Except Error α)} {f : Option M → Except Error α}
    (hmissing : .ok missing = f none) (hnext : ∀ m, (next m).alone Access.look db = f (some m)) :
    (afterCheck checked missing next).alone Access.look db = checked >>= f := by
  rcases checked with e | (_ | m)
  · rfl
  · exact hmissing
  · exact hnext m

/-- **Alone**, the accesses give the answer of the operation. -/
theorem MultiRead.alone_reading (read : MultiRead S α) (now : ℕ) (db : Redis S) :
    (read.reading now).alone Access.look db = read.answer db now := by
  cases read with
  | lindex key index =>
    rw [answer, Lists.lindex]
    refine alone_afterCheck (db.listMeta key now) rfl fun m ↦ ?_
    show Reading.alone Access.look db (if _ then _ else _) = if _ then _ else _
    split_ifs <;> rfl
  | lrange key start stop =>
    rw [answer, Lists.lrange]
    refine alone_afterCheck (db.listMeta key now) rfl fun m ↦ ?_
    dsimp only
    rw [Reads.alone_elements, Reads.filterMap_rangeKeys]
    rfl
  | smembers key =>
    rw [answer, Sets.smembers, Redis.validMeta_eq_baseMeta]
    exact alone_afterCheck (db.baseMeta .set key now) rfl fun _ ↦ rfl
  | sismember key member =>
    rw [answer, Sets.sismember, Redis.validMeta_eq_baseMeta]
    exact alone_afterCheck (db.baseMeta .set key now) rfl fun _ ↦ rfl
  | smismember key members =>
    rw [answer, Sets.smismember, Redis.validMeta_eq_baseMeta]
    exact alone_afterCheck (db.baseMeta .set key now) rfl fun _ ↦ rfl
  | zrange key start stop withScores =>
    rw [answer, Zsets.zrange, Redis.validMeta_eq_baseMeta]
    exact alone_afterCheck (db.baseMeta .zset key now) rfl fun _ ↦ rfl
  | zrangebyscore key minScore maxScore withScores offset count =>
    rw [answer, Zsets.zrangebyscore, Redis.validMeta_eq_baseMeta]
    exact alone_afterCheck (db.baseMeta .zset key now) rfl fun _ ↦ rfl
  | zscore key member =>
    rw [answer, Zsets.zscore, Redis.validMeta_eq_baseMeta]
    exact alone_afterCheck (db.baseMeta .zset key now) rfl fun _ ↦ rfl
  | hgetall key =>
    show (afterCheck (db.baseMeta .hash key now) _ _).alone Access.look db = _
    rw [answer, Hashes.hgetall, Hashes.storedFields]
    rcases db.baseMeta .hash key now with e | (_ | m) <;> rfl
  | hmget key fields =>
    rw [answer, Hashes.hmget]
    exact alone_afterCheck (db.baseMeta .hash key now) rfl fun _ ↦ rfl

/-! ### Harmless commits -/

/-- The rows under a version of a key are the same. -/
def SameRows (key : Bytes) (version : ℕ) (db db' : Redis S) : Prop :=
  ∀ r : Row S, r.key = key → r.version = version → db'.lookup r = db.lookup r

/-- There are no rows under a version of a key. -/
def NoRowsAt (key : Bytes) (version : ℕ) (db : Redis S) : Prop :=
  ∀ r : Row S, r.key = key → r.version = version → db.lookup r = none

theorem sameRows_of_agreeAt (h : db.AgreeAt db' key) (version : ℕ) :
    SameRows key version db db' := by
  rintro r rfl -
  cases r with
  | hash k => exact (h.hashesDataCF k.version k.data).symm
  | set k => exact (h.setsDataCF k.version k.data).symm
  | list k => exact (h.listsDataCF k.version k.data).symm
  | zset k => exact (h.zsetsDataCF k.version k.data).symm
  | score k => exact (h.zsetsScoreCF k.version k.data).symm

/-- What a commit may do to the rows of a collection that somebody is about to look at. -/
inductive Tame (now : ℕ) (t : BaseType) (key : Bytes) (version : ℕ) (db db' : Redis S) : Prop
  /-- The key has the collection afterwards. -/
  | current {m : BaseMetaValue} (h : db'.baseMeta t key now = .ok (some m)) (hv : m.version = version)
  | unchanged (h : SameRows key version db db')
  /-- The rows are gone and so is the key. -/
  | gone (hrows : NoRowsAt key version db') (hkey : db'.liveMeta key now = none)

/-- The type of the collection, for a read that uses the version and nothing else of its meta
value. -/
def MultiRead.byVersion : MultiRead S α → Option BaseType
  | smembers _ | sismember _ _ => some .set
  | zrangebyscore _ _ _ _ _ _ | zscore _ _ => some .zset
  | hgetall _ => some .hash
  | _ => none

/-- A commit is harmless to a read of which `rest` is left. -/
def Harmless (read : MultiRead S α) (now : ℕ) (rest : Reading (Access S) (Except Error α))
    (db : Redis S) (b : Batch S) : Prop :=
  ∀ version ∈ nextVersion rest, db.AgreeAt (db.write b) read.key ∨
    ∃ t ∈ read.byVersion, Tame now t read.key version db (db.write b)

/-! ### Reads that leave the key alone -/

/-- The access looks at data of the key. -/
def Access.On (key : Bytes) : {β : Type} → Access S β → Prop
  | _, metaValue _ | _, snapshot => False
  | _, element k => k.key = key
  | _, setMember k | _, zsetMember k => k.key = key
  | _, fields k _ | _, members k _ | _, scores k _ => k = key

/-- All further accesses look at data of the key. -/
inductive OnKey (key : Bytes) : Reading (Access S) α → Prop
  | done (answer : α) : OnKey key (.done answer)
  | access {β : Type} {what : Access S β} {next : β → Reading (Access S) α} (h : what.On key)
      (hnext : ∀ x, OnKey key (next x)) : OnKey key (.access what next)

variable {what : Access S β}

theorem Access.look_of_agreeAt (h : db.AgreeAt db' key) (hon : what.On key) :
    what.look db' = what.look db := by
  cases what with
  | metaValue k => cases hon
  | snapshot => cases hon
  | element k => obtain rfl := hon; exact (h.listsDataCF k.version k.data).symm
  | setMember k => obtain rfl := hon; exact (h.setsDataCF k.version k.data).symm
  | zsetMember k => obtain rfl := hon; exact (h.zsetsDataCF k.version k.data).symm
  | fields k version =>
    obtain rfl := hon
    exact (DataKey.rowsAt_congr (h.hashesDataCF version)).symm
  | members k version =>
    obtain rfl := hon
    exact congrArg (List.map Prod.fst) (DataKey.rowsAt_congr (h.setsDataCF version)).symm
  | scores k version =>
    obtain rfl := hon
    exact congrArg (List.map _) (DataKey.rowsAt_congr (h.zsetsScoreCF version)).symm

theorem OnKey.alone_of_agreeAt {r : Reading (Access S) α} (hr : OnKey key r)
    (h : db.AgreeAt db' key) : r.alone Access.look db' = r.alone Access.look db := by
  induction hr with
  | done answer => rfl
  | access hon _ ih =>
    rw [Reading.alone, Reading.alone, Access.look_of_agreeAt h hon]
    exact ih _

theorem OnKey.next {next : β → Reading (Access S) α} {x : β}
    (h : OnKey key (.access what next)) : OnKey key (next x) := by
  cases h with
  | access _ hnext => exact hnext x

theorem OnKey.afterCheck {M : Type} {checked : Except Error (Option M)} {missing : α}
    {next : M → Reading (Access S) (Except Error α)} (h : ∀ m, OnKey key (next m)) :
    OnKey key (afterCheck checked missing next) := by
  rcases checked with e | (_ | m)
  · exact .done _
  · exact .done _
  · exact h m

theorem Access.On.exists_version (h : what.On key) : ∃ version, what.version? = some version := by
  cases what with
  | metaValue k => cases h
  | snapshot => cases h
  | _ => exact ⟨_, rfl⟩

/-- The rest of a read that looks only at data of its key is not affected by what is harmless,
unless the read goes by the version alone. -/
theorem OnKey.alone_of_harmless {read : MultiRead S α} (hread : read.byVersion = none)
    {rest : Reading (Access S) (Except Error α)} (hrest : OnKey read.key rest) {b : Batch S}
    (h : Harmless read now rest db b) :
    rest.alone Access.look (db.write b) = rest.alone Access.look db := by
  cases hrest with
  | done answer => rfl
  | access hon hnext =>
    obtain ⟨version, hversion⟩ := hon.exists_version
    rcases h version hversion with hagree | ⟨t, ht, -⟩
    · exact OnKey.alone_of_agreeAt (.access hon hnext) hagree
    · rw [hread] at ht
      cases ht

variable {answer : Except Error α} {seen : List (Redis S)}

/-- **Reads that use the whole meta value.** -/
theorem exists_alone_of_onKey (read : MultiRead S α) (hread : read.byVersion = none)
    {next : β → Reading (Access S) (Except Error α)} (hnext : ∀ x, OnKey read.key (next x))
    (h : Reading.Among Access.look Redis.write (Harmless read now) db (.access what next) seen
      answer) :
    ∃ c ∈ seen, (Reading.access what next).alone Access.look c = answer :=
  h.exists_alone (P := OnKey read.key) hnext (fun _ _ _ h ↦ h.next)
    fun _ _ _ hr hok ↦ Or.inl (hr.alone_of_harmless hread hok)

theorem Reads.onKey_elements (h : ∀ k ∈ ks, k.key = key)
    (acc : List Bytes) : OnKey key (elements (S := S) acc ks) := by
  induction ks generalizing acc with
  | nil => exact .done _
  | cons k ks ih =>
    exact .access (h k List.mem_cons_self) fun x ↦
      ih (fun k' hk' ↦ h k' (List.mem_cons_of_mem _ hk')) _

theorem Reads.key_of_mem_rangeKeys {m : ListsMetaValue} {start stop : ℤ} {k : DataKey ℕ}
    (h : k ∈ rangeKeys key m start stop) : k.key = key := by
  rw [rangeKeys] at h
  split_ifs at h
  · cases h
  · obtain ⟨i, -, rfl⟩ := List.mem_map.1 h
    rfl

/-! ### Reads by version -/

section ByVersion

variable {t : BaseType} {w : ℕ → Access S β} {f : β → α} {missing : α}

/-- What is left of such a read: its look at the rows, or nothing. -/
def LooksOnce (w : ℕ → Access S β) (f : β → α) (rest : Reading (Access S) (Except Error α)) :
    Prop :=
  (∃ version, rest = .access (w version) fun x ↦ .done (.ok (f x))) ∨ ∃ answer, rest = .done answer

theorem looksOnce_afterCheck (checked : Except Error (Option BaseMetaValue)) :
    LooksOnce w f (afterCheck checked missing fun m ↦
      .access (w m.version) fun x ↦ .done (.ok (f x))) := by
  rcases checked with e | (_ | m)
  · exact Or.inr ⟨_, rfl⟩
  · exact Or.inr ⟨_, rfl⟩
  · exact Or.inl ⟨m.version, rfl⟩

theorem LooksOnce.next {γ : Type} {look : Access S γ}
    {next : γ → Reading (Access S) (Except Error α)} {x : γ}
    (h : LooksOnce w f (.access look next)) : LooksOnce w f (next x) := by
  rcases h with ⟨version, h⟩ | ⟨answer, h⟩
  · cases h
    exact Or.inr ⟨_, rfl⟩
  · cases h

/-- **Reads by version.** The look at the rows under a version finds the same in the same rows, and
the answer for a missing key if there are none. -/
theorem exists_alone_of_looksOnce {γ : Type} (read : MultiRead S α) (hread : read.byVersion = some t)
    (w : ℕ → Access S β) {first : Access S γ} {g : γ → Option MetaValue}
    (hfirst : ∀ db : Redis S, g (first.look db) = db.metaCF.get read.key)
    (hversion : ∀ version, (w version).version? = some version)
    (hsame : ∀ version db db', SameRows read.key version db db' →
      (w version).look db' = (w version).look db)
    (hnone : ∀ version db, NoRowsAt read.key version db → f ((w version).look db) = missing)
    (h : Reading.Among Access.look Redis.write (Harmless read now) db
      (.access first fun found ↦ afterCheck (baseMetaOf t now (g found)) missing fun m ↦
        .access (w m.version) fun x ↦ .done (.ok (f x))) seen answer) :
    ∃ c ∈ seen, (Reading.access first fun found ↦
      afterCheck (baseMetaOf t now (g found)) missing fun m ↦
        .access (w m.version) fun x ↦ .done (.ok (f x))).alone Access.look c = answer := by
  refine h.exists_alone (P := LooksOnce w f) (fun _ ↦ looksOnce_afterCheck _) (fun _ _ _ h ↦ h.next)
    fun rest db b hrest hok ↦ ?_
  rcases hrest with ⟨version, rfl⟩ | ⟨answer, rfl⟩
  · have htame : Tame now t read.key version db (db.write b) := by
      rcases hok version (hversion version) with hagree | ⟨t', ht', htame⟩
      · exact .unchanged (sameRows_of_agreeAt hagree version)
      · rw [hread] at ht'
        obtain rfl := Option.some.inj ht'
        exact htame
    have hwhole : (Reading.access first fun found ↦
        afterCheck (baseMetaOf t now (g found)) missing fun m ↦
          .access (w m.version) fun x ↦ .done (.ok (f x))).alone Access.look (db.write b) =
        (afterCheck ((db.write b).baseMeta t read.key now) missing fun m ↦
          .access (w m.version) fun x ↦ .done (.ok (f x))).alone Access.look (db.write b) := by
      rw [Reading.alone, hfirst, baseMetaOf_get]
    cases htame with
    | current hm hv =>
      refine Or.inr ?_
      rw [hwhole, hm, ← hv]
      rfl
    | unchanged hrows =>
      refine Or.inl ?_
      rw [Reading.alone, Reading.alone, hsame version db _ hrows]
      rfl
    | gone hrows hkey =>
      refine Or.inr ?_
      rw [hwhole, Redis.baseMeta_eq_ok_none_iff.2 hkey, Reading.alone, Reading.alone,
        hnone version _ hrows]
      rfl
  · exact Or.inl rfl

end ByVersion

section

variable (h : SameRows key version db db')

include h

theorem SameRows.rowsAt_hash :
    DataKey.rowsAt db'.hashesDataCF key version = DataKey.rowsAt db.hashesDataCF key version :=
  DataKey.rowsAt_congr fun d ↦ h (.hash ⟨key, version, d⟩) rfl rfl

theorem SameRows.membersAt : Sets.membersAt db' key version = Sets.membersAt db key version :=
  congrArg (List.map Prod.fst) (DataKey.rowsAt_congr fun d ↦ h (.set ⟨key, version, d⟩) rfl rfl)

theorem SameRows.scoreRows : Zsets.scoreRows db' key version = Zsets.scoreRows db key version :=
  congrArg (List.map _) (DataKey.rowsAt_congr fun d ↦ h (.score ⟨key, version, d⟩) rfl rfl)

end

theorem rowsAt_eq_nil {D V : Type} [LinearOrder D] {m : SortedMap (DataKey D) V}
    (h : ∀ d, m.get ⟨key, version, d⟩ = none) : DataKey.rowsAt m key version = [] := by
  rw [List.eq_nil_iff_forall_not_mem]
  rintro ⟨d, x⟩ hin
  have hget := DataKey.mem_rowsAt_iff.1 hin
  rw [h] at hget
  cases hget

/-- **Reads see one state.** Whatever others commit while a read runs, if all of it is harmless to
the read, it answers as it would have answered alone on a state that was current in the meantime. -/
theorem read_sees_one_state (read : MultiRead S α) (now : ℕ) (db : Redis S) (seen : List (Redis S))
    (answer : Except Error α)
    (h : Reading.Among Access.look Redis.write (Harmless read now) db (read.reading now) seen
      answer) :
    ∃ c ∈ seen, read.answer c now = answer := by
  suffices hone : ∃ c ∈ seen, (read.reading now).alone Access.look c = answer by
    obtain ⟨c, hc, heq⟩ := hone
    exact ⟨c, hc, (read.alone_reading now c).symm.trans heq⟩
  cases read with
  | lindex key index =>
    rw [MultiRead.reading, Reads.lindex] at h ⊢
    refine exists_alone_of_onKey (.lindex key index) rfl (fun found ↦ .afterCheck fun m ↦ ?_) h
    dsimp only
    split_ifs
    · exact .access rfl fun _ ↦ .done _
    · exact .done _
  | lrange key start stop =>
    rw [MultiRead.reading, Reads.lrange] at h ⊢
    exact exists_alone_of_onKey (.lrange key start stop) rfl (fun found ↦ .afterCheck fun m ↦
      Reads.onKey_elements (fun _ hk ↦ Reads.key_of_mem_rangeKeys hk) _) h
  | zrange key start stop withScores =>
    rw [MultiRead.reading, Reads.zrange] at h ⊢
    refine exists_alone_of_onKey (.zrange key start stop withScores) rfl
      (fun found ↦ .afterCheck fun m ↦ .access ?_ fun _ ↦ .done _) h
    exact rfl
  | smembers key =>
    rw [MultiRead.reading, Reads.smembers] at h ⊢
    refine exists_alone_of_looksOnce (.smembers key) rfl (.members key) (g := id) (fun _ ↦ rfl)
      (fun _ ↦ rfl) (fun version db db' hrows ↦ ?_) (fun version db hnone ↦ ?_) h
    · exact SameRows.membersAt hrows
    · exact congrArg (fun rows ↦ (rows.map Prod.fst).map fromUtf8Lossy)
        (rowsAt_eq_nil fun d ↦ hnone (.set ⟨key, version, d⟩) rfl rfl)
  | sismember key member =>
    rw [MultiRead.reading, Reads.sismember] at h ⊢
    refine exists_alone_of_looksOnce (.sismember key member) rfl
      (fun version ↦ .setMember ⟨key, version, member⟩) (g := id) (fun _ ↦ rfl) (fun _ ↦ rfl)
      (fun version db db' hrows ↦ ?_) (fun version db hnone ↦ ?_) h
    · exact hrows (.set ⟨key, version, member⟩) rfl rfl
    · exact congrArg Option.isSome (hnone (.set ⟨key, version, member⟩) rfl rfl)
  | zrangebyscore key minScore maxScore withScores offset count =>
    rw [MultiRead.reading, Reads.zrangebyscore] at h ⊢
    refine exists_alone_of_looksOnce (.zrangebyscore key minScore maxScore withScores offset count)
      rfl (.scores key) (g := id) (fun _ ↦ rfl) (fun _ ↦ rfl)
      (fun _ _ _ hrows ↦ hrows.scoreRows) (fun version db hnone ↦ ?_) h
    show Zsets.listing withScores (Zsets.limited offset count
      (Zsets.scoreRange (Zsets.scoreRows db key version) minScore maxScore)) = []
    rw [Zsets.scoreRows, rowsAt_eq_nil fun d ↦ hnone (.score ⟨key, version, d⟩) rfl rfl]
    simp [Zsets.scoreRange, Zsets.limited, Zsets.listing]
  | zscore key member =>
    rw [MultiRead.reading, Reads.zscore] at h ⊢
    refine exists_alone_of_looksOnce (.zscore key member) rfl
      (fun version ↦ .zsetMember ⟨key, version, member⟩) (g := id) (fun _ ↦ rfl) (fun _ ↦ rfl)
      (fun version db db' hrows ↦ ?_) (fun version db hnone ↦ ?_) h
    · exact hrows (.zset ⟨key, version, member⟩) rfl rfl
    · exact congrArg (Option.map (Score.format (S := S))) (hnone (.zset ⟨key, version, member⟩) rfl rfl)
  | hgetall key =>
    rw [MultiRead.reading, Reads.hgetall] at h ⊢
    refine exists_alone_of_looksOnce (.hgetall key) rfl (.fields key)
      (g := fun snapshot : Redis S ↦ snapshot.metaCF.get key) (fun _ ↦ rfl) (fun _ ↦ rfl)
      (fun version db db' hrows ↦ ?_) (fun version db hnone ↦ ?_) h
    · exact SameRows.rowsAt_hash hrows
    · exact congrArg (List.map _) (rowsAt_eq_nil fun d ↦ hnone (.hash ⟨key, version, d⟩) rfl rfl)
  | smismember key members =>
    rw [MultiRead.reading, Reads.smismember] at h ⊢
    exact exists_alone_of_onKey (.smismember key members) rfl
      (fun found ↦ .afterCheck fun m ↦ .done _) h
  | hmget key fields =>
    rw [MultiRead.reading, Reads.hmget] at h ⊢
    exact exists_alone_of_onKey (.hmget key fields) rfl (fun found ↦ .afterCheck fun m ↦ .done _) h

/-- A set of one member. -/
def oneMember : Redis ℤ :=
  Redis.empty.write (.metaCF [1] (some (.base ⟨.set, 1, 1, 0, 0⟩)) :: Sets.putMembers [1] 1 [[97]])

/-- What adding a second member commits. -/
def addSecond : Batch ℤ :=
  .metaCF [1] (some (.base (BaseMetaValue.modifyCount ⟨.set, 1, 1, 0, 0⟩ 1))) ::
    Sets.putMembers [1] 1 [[98]]

theorem sadd_commits_addSecond :
    ((Sets.sadd [1] [[98]] 2).exec oneMember).2 = oneMember.write addSecond := by
  have hm : oneMember.baseMeta .set [1] 2 = .ok (some ⟨.set, 1, 1, 0, 0⟩) := by decide +kernel
  have hadd : Sets.toAdd oneMember [1] (some ⟨.set, 1, 1, 0, 0⟩)
    (firstBy fromUtf8Lossy [[98]]) = [[98]] := by decide +kernel
  rw [Sets.exec_sadd, if_neg (by decide), hm]
  dsimp only
  rw [hadd, if_neg (by decide), if_pos (by decide +kernel)]
  rfl

/-- A member is added between the accesses of `smembers`, which answers with both. -/
theorem smembers_sees_added_member :
    ((Sets.sadd [1] [[98]] 2).exec oneMember).2 = oneMember.write addSecond ∧
      ∃ c ∈ [oneMember, oneMember.write addSecond],
        (MultiRead.smembers [1]).answer c 3 = .ok [[97], [98]] := by
  refine ⟨sadd_commits_addSecond, read_sees_one_state (.smembers [1]) 3 oneMember _ _ ?_⟩
  refine .access (.write ?_ (.access (.done _ _)))
  intro version hversion
  refine Or.inr ⟨.set, rfl, .current (m := ⟨.set, 2, 1, 0, 0⟩) (by decide +kernel) ?_⟩
  exact Option.some.inj hversion

/-! ### Answers of no state -/

/-- Nobody's answer on a state that was current. -/
def Unexplained (read : MultiRead ℤ α) (now : ℕ) (db : Redis ℤ) (b : Batch ℤ)
    (answer : Except Error α) : Prop :=
  Reading.Among Access.look Redis.write (fun _ _ _ ↦ True) db (read.reading now)
      [db, db.write b] answer ∧
    read.answer db now ≠ answer ∧ read.answer (db.write b) now ≠ answer

/-- The meta value of a list of one element. -/
def oneElementMeta : ListsMetaValue := ⟨1, 1, 9223372036854775807, 9223372036854775808, 0, 0⟩

/-- A list of one element. -/
def oneElement : Redis ℤ :=
  Redis.empty.write (Lists.putElements [1] 1 9223372036854775807 [[97]] ++
    [.metaCF [1] (some (.list oneElementMeta))])

/-- What `lpush` commits: the list moves to another version. -/
def pushFront : Batch ℤ :=
  (Lists.pushed oneElement [1] [[98]] true oneElementMeta 2).1 ++
    [.metaCF [1] (some (.list (Lists.pushed oneElement [1] [[98]] true oneElementMeta 2).2))]

/-- A zset of one member. -/
def oneScore : Redis ℤ := Redis.empty.write (Zsets.createZset [1] [⟨5, [97]⟩] 1)

/-- The meta value of the zset. -/
def oneScoreMeta : BaseMetaValue := ⟨.zset, 1, 1, 1, 0⟩

/-- What `zadd` commits: a member before the other. -/
def addBefore : Batch ℤ :=
  (Zsets.additions oneScore [1] 1 [⟨3, [98]⟩]).flatMap Prod.fst ++
    [.metaCF [1] (some (.base (oneScoreMeta.modifyCount 1)))]

/-- A set of two members. -/
def twoMembersSet : Redis ℤ :=
  Redis.empty.write (.metaCF [1] (some (.base ⟨.set, 2, 1, 0, 0⟩)) ::
    Sets.putMembers [1] 1 [[97], [98]])

/-- What `srem` of one member, listed twice, commits: the set is dropped, but not its rows. -/
def removeTwice : Batch ℤ :=
  Sets.deleteMembers [1] 1 [[97], [97]] ++ [putOrDeleteBaseMeta [1] ⟨.set, 2, 1, 0, 0⟩ 0]

theorem lpush_commits_pushFront :
    ((Lists.lpush [1] [[98]] 2).exec oneElement).2 = oneElement.write pushFront := by
  have hm : oneElement.listMeta [1] 2 = .ok (some oneElementMeta) := by decide +kernel
  rw [Lists.exec_lpush, hm]
  rfl

theorem zadd_commits_addBefore :
    ((Zsets.zadd [1] [⟨3, [98]⟩] 2).exec oneScore).2 = oneScore.write addBefore := by
  have hm : oneScore.baseMeta .zset [1] 2 = .ok (some oneScoreMeta) := by decide +kernel
  rw [Zsets.exec_zadd]
  dsimp only
  rw [if_neg (by decide), hm]
  dsimp only
  rw [if_pos (by decide +kernel)]
  rfl

theorem srem_commits_removeTwice :
    ((Sets.srem [1] [[97], [97]] 2).exec twoMembersSet).2 = twoMembersSet.write removeTwice := by
  have hm : twoMembersSet.validMeta .set [1] 2 = .ok (some ⟨.set, 2, 1, 0, 0⟩) := by decide +kernel
  rw [Sets.srem, Program.exec_ite, if_neg (by decide), Program.exec_get_bind, hm]
  rfl

/-- **Answers of no state.** `lrange` finds nothing of a list of one element that is pushed to;
`zrange` finds the new first member and, by the old count, no other; `smembers` finds what a removal
with a repeated argument has left behind. -/
theorem answers_of_no_state :
    (((Lists.lpush [1] [[98]] 2).exec oneElement).2 = oneElement.write pushFront ∧
      Unexplained (.lrange [1] 0 (-1)) 3 oneElement pushFront (.ok [])) ∧
    (((Zsets.zadd [1] [⟨3, [98]⟩] 2).exec oneScore).2 = oneScore.write addBefore ∧
      Unexplained (.zrange [1] 0 (-1) false) 3 oneScore addBefore (.ok [[98]])) ∧
    ((Sets.srem [1] [[97], [97]] 2).exec twoMembersSet).2 = twoMembersSet.write removeTwice ∧
      Unexplained (.smembers [1]) 3 twoMembersSet removeTwice (.ok [[98]]) := by
  refine ⟨⟨lpush_commits_pushFront, ?_, by decide +kernel, by decide +kernel⟩,
    ⟨zadd_commits_addBefore, ?_, by decide +kernel, by decide +kernel⟩,
    srem_commits_removeTwice, ?_, by decide +kernel, by decide +kernel⟩
  · exact .access (.write trivial (.access (.done _ _)))
  · exact .access (.write trivial (.access (.done _ _)))
  · exact .access (.write trivial (.access (.done _ _)))

end Kiwi
