import Kiwi.Correctness.Compaction.Relation

/-!
# Operations on databases that are alike

Most operations commit one batch of edits, and `Pre.agree` covers them. What is left are those that
do more. `set_key_etime` is the one operation that changes the expiry time of a collection in place.
`hscan` stores a cursor. `rpoplpush` commits twice, and what holds before its push is what held
before its pop, since a pop leaves no version behind that was not there before.

A zset store is the one operation that does not write the same batch on both sides: it clears its
destination by the meta value that is stored there, live or not, and deletes the score rows that it
finds under the version it reads from it. What the two sides delete differs only in rows of the
destination that are stored, so under versions up to `d`; and afterwards the destination is gone or
has the version `now`, so that none of those rows is in sight.
-/

namespace Kiwi.Compaction

open Program Edits

variable {S α : Type} [Score S] {d now : ℕ} {a b : Redis S} {key : Bytes}

/-! ### Strings -/

theorem agree_setKeyEtime (h : Pre d now a b) (key : Bytes) (etime : ℕ) :
    Agree (Post (EtimeAfter (some (key, etime))) d now a) a b
      (Strings.setKeyEtime key etime now) (Strings.setKeyEtime key etime now) := by
  rw [Agree, Strings.exec_setKeyEtime, Strings.exec_setKeyEtime, ← h.liveMeta]
  rcases hm : a.liveMeta key now with _ | m
  · exact ⟨rfl, h.post.etimeAfter _⟩
  have hversion := h.version_lt hm
  have hmoves : Moves (EtimeAfter (some (key, etime))) now a
      (a.write [.metaCF key (some (m.setEtime etime))]) := by
    intro k m' hm' hstring
    obtain ⟨hget, hlive⟩ := Redis.liveMeta_eq_some_iff.1 hm'
    rcases SortedMap.get_apply_eq_some hget with hput | hold
    · obtain ⟨rfl, he⟩ := Prod.ext_iff.1 (List.mem_singleton.1 hput)
      obtain rfl := Option.some.inj he
      exact Or.inl ⟨m, hm, m.setEtime_version etime, m.setEtime_dataType etime,
        Or.inr (by rw [m.setEtime_etime])⟩
    · exact Or.inl ⟨m', Redis.liveMeta_eq_some_iff.2 ⟨hold, hlive⟩, rfl, rfl, Or.inl rfl⟩
  have hle : UpTo [key] now ([.metaCF key (some (m.setEtime etime))] : Batch S) :=
    meets_meta ((m.setEtime_version etime).le.trans hversion.le)
  exact ⟨rfl, h.alike.write h.lt hmoves, hmoves, (h.left.of_le h.lt.le).write hle,
    (h.right.of_le h.lt.le).write hle⟩

/-- **String operations.** -/
theorem agree_string (h : Pre d now a b) (o : Strings.Operation S α) :
    Agree (Post (EtimeAfter (setsEtime o)) d now a) a b (o.run now) (o.run now) := by
  -- every operation but one leaves expiry times alone
  have hkeep : setsEtime o = none →
      Agree (Post (EtimeAfter (setsEtime o)) d now a) a b (o.run now) (o.run now) := fun ho ↦ by
    have hagree := h.agree_of_writes (commits_string h.sameView o ho)
    exact ⟨hagree.1, hagree.2.etimeAfter _⟩
  cases o with
  | setKeyEtime key etime => exact agree_setKeyEtime h key etime
  | _ => exact hkeep rfl

/-! ### Lists -/

section Lists

open Kiwi.Lists

/-- What holds after a pop: what holds after any operation, and versions that are no newer than
before. -/
def PopPost (d now : ℕ) (a a' b' : Redis S) : Prop :=
  Post SameEtime d now a a' b' ∧ VersionsLe d a' ∧ VersionsLe d b'

theorem PopPost.pre {a' b' : Redis S} (h : PopPost d now a a' b') (hlt : d < now) :
    Pre d now a' b' := ⟨h.1.alike, hlt, h.2.1, h.2.2⟩

section

variable (h : Pre d now a b)

include h

theorem agree_rpopInternal (key : Bytes) (count : Option ℕ) :
    Agree (PopPost d now a) a b (rpopInternal key count now) (rpopInternal key count now) := by
  have hsame : PopPost d now a a b := ⟨h.post, h.left, h.right⟩
  rw [Agree, exec_rpopInternal, exec_rpopInternal, ← h.sameView.listMeta]
  rcases hm : a.listMeta key now with e | (_ | m)
  · exact ⟨rfl, hsame⟩
  · exact ⟨rfl, hsame⟩
  dsimp only
  rw [← h.sameView.tailRows hm]
  generalize min (count.getD 1) m.count = n
  generalize hm' : (m.setRightIndex (subU64 m.rightIndex n)).setCount (m.count - n) = m'
  have hversion : m'.version = m.version := by rw [← hm']; rfl
  have hetime : m'.etime = m.etime := by rw [← hm']; rfl
  have hle : UpTo [key] d (popBatch key (Lists.tailRows a key m n) m' : Batch S) :=
    meets_popBatch (hversion.le.trans
      (h.left.metaRows (Redis.liveMeta_eq_some_iff.1 (Redis.listMeta_eq_ok_some_iff.1 hm)).1))
      (key_of_mem_tailRows m n)
  have hedits : EditBatch (fun _ _ ↦ True) [key] now a
      (popBatch key (Lists.tailRows a key m n) m') :=
    meets_popBatch (editMeta_list hm hversion hetime) (key_of_mem_tailRows m n)
  exact ⟨rfl, h.write (h.safe hedits), h.left.write hle, h.right.write hle⟩

theorem agree_rpoplpush (source destination : Bytes) :
    Agree (Post SameEtime d now a) a b (rpoplpush source destination now)
      (rpoplpush source destination now) := by
  refine agree_bind (agree_rpopInternal h source none) (fun _ _ hst ↦ hst.1) fun x s t _ hst ↦ ?_
  rcases x with _ | (_ | ⟨value, rest⟩)
  · exact agree_pure hst.1 _
  · exact agree_pure hst.1 _
  -- the push starts from what the pop left; seen from the start, both moves count
  have hpost : ∀ {s' t' : Redis S}, Post SameEtime d now s s' t' → Post SameEtime d now a s' t' :=
    fun h' ↦ ⟨h'.alike, hst.1.moves.trans h'.moves, h'.left, h'.right⟩
  have hpre := hst.pre h.lt
  have hpush := (commits_pushCore hpre.sameView destination [value] true true).agree hpre.post
    fun _ _ hw ↦ hpre.write (hpre.safe hw.2)
  refine agree_bind hpush (fun _ _ hst' ↦ hpost hst') fun y _ _ _ hst' ↦ ?_
  rcases y with _ | y
  · exact agree_throw (hpost hst') _
  · exact agree_pure (hpost hst') _

/-- **List operations.** -/
theorem agree_list (o : Lists.Operation α) :
    Agree (Post SameEtime d now a) a b (o.run now) (o.run now) := by
  cases o with
  | rpoplpush source destination => exact agree_rpoplpush h source destination
  | _ => exact h.agree_of_writes (commits_list h.sameView _ rfl)

end

end Lists

/-! ### Hashes -/

section Hashes

open Hashes

section

variable (h : Pre d now a b)

include h

theorem Pre.insertCursor (k x : Bytes) :
    Post SameEtime d now a { a with scanCursorsStore := a.scanCursorsStore.insert k x }
      { b with scanCursorsStore := b.scanCursorsStore.insert k x } := by
  have hlookup : ∀ (db : Redis S) (store : SortedMap Bytes Bytes) (r : Row S),
      ({ db with scanCursorsStore := store } : Redis S).lookup r = db.lookup r := by
    intro db store r
    cases r <;> rfl
  refine ⟨⟨h.alike.live, fun r ↦ ?_, ?_⟩, .refl a, ⟨h.post.left.metaRows, fun hx ↦ ?_⟩,
    ⟨h.post.right.metaRows, fun hx ↦ ?_⟩⟩
  · rw [hlookup, hlookup]
    exact h.alike.rows r
  · exact congrArg (fun store : SortedMap Bytes Bytes ↦ store.insert k x) h.alike.cursors
  · rw [hlookup] at hx
    exact h.post.left.dataRows hx
  · rw [hlookup] at hx
    exact h.post.right.dataRows hx

theorem agree_scanPage (key : Bytes) (pattern : Option Bytes) (size next : ℕ)
    (rows : List (Bytes × Bytes)) :
    Agree (Post SameEtime d now a) a b (scanPage key pattern size next rows)
      (scanPage key pattern size next rows) := by
  rw [scanPage]
  dsimp only
  rcases (scanLoop (literalPrefix pattern) size rows).2.head?.filter _ with _ | ⟨field, _⟩
  · exact agree_pure h.post _
  · exact agree_modify_bind (agree_pure (h.insertCursor _ _) _)

theorem agree_hscan (key : Bytes) (cursor : ℕ) (pattern : Option Bytes) (count : Option ℕ) :
    Agree (Post SameEtime d now a) a b (hscan key cursor pattern count now)
      (hscan key cursor pattern count now) := by
  refine agree_get_bind (agree_lift_bind h.post (h.sameView.baseMeta .hash key) fun found hfound ↦ ?_)
  rcases found with _ | m
  · exact agree_pure h.post _
  have hstart : startPoint a key cursor pattern = startPoint b key cursor pattern := by
    simp only [startPoint, h.alike.cursors]
  have hrows : scanRows a key m.version cursor pattern =
      scanRows b key m.version cursor pattern := by
    rw [scanRows, scanRows, hstart, h.sameView.hashRows hfound]
  show Agree _ a b (scanPage _ _ _ _ _) (scanPage _ _ _ _ _)
  rw [hrows]
  exact agree_scanPage h key pattern _ _ _

/-- **Hash operations.** -/
theorem agree_hash (o : Hashes.Operation S α) :
    Agree (Post SameEtime d now a) a b (o.run now) (o.run now) := by
  cases o with
  | hscan key cursor pattern count => exact agree_hscan h key cursor pattern count
  | _ => exact h.agree_of_writes (commits_hash h.sameView _ rfl)

end

end Hashes

/-! ### Zsets -/

section Zsets

open Zsets

variable {destination : Bytes} {db : Redis S}

variable {r : Row S}

theorem put_notMem_clearDestination {x : r.Value} :
    r.entry (some x) ∉ clearDestination db destination now := by
  intro h
  have hputs : Meets [destination] (fun _ _ ↦ False) (fun _ _ ↦ False)
      (clearDestination db destination now) := meets_clearDestination
  have hfalse := (hputs _ h).2
  cases r <;> exact hfalse

/-- The lookups of a key that a batch does not name. -/
theorem lookup_write_of_key {w : Batch S} (h : ∀ e ∈ w, e.key ≠ r.key) :
    (db.write w).lookup r = db.lookup r := by
  have hframe : Redis.AgreeAt (db.write w) db r.key := Redis.agreeAt_write h
  cases r with
  | hash k => exact hframe.hashesDataCF k.version k.data
  | set k => exact hframe.setsDataCF k.version k.data
  | list k => exact hframe.listsDataCF k.version k.data
  | zset k => exact hframe.zsetsDataCF k.version k.data
  | score k => exact hframe.zsetsScoreCF k.version k.data

/-- What a store writes after clearing its destination: batches of that key which leave no meta
value there or one under the version `now`. -/
structure Storing (now : ℕ) (destination : Bytes) (w : Batch S) : Prop where
  /-- It is for the destination, and versions are at most `now`. -/
  upTo : UpTo [destination] now w
  /-- The destination has no meta value afterwards, or one that is new. -/
  stored : ∃ o : Option MetaValue, (∀ m ∈ o, m.version = now) ∧
    ∀ db : Redis S, db.metaCF.get destination = none → (db.write w).metaCF.get destination = o

theorem storing_nil (now : ℕ) (destination : Bytes) : Storing now destination ([] : Batch S) := by
  refine ⟨meets_nil, none, fun m hm ↦ ?_, fun db hdb ↦ hdb⟩
  cases hm

theorem storing_createZset (h : Pre d now a b) (destination : Bytes)
    (members : List (ScoreMember S)) :
    Storing now destination (createZset destination members now) where
  upTo := meets_createZset (fun _ ↦ h.updateVersion_zero.le) h.updateVersion_zero.le members
  stored := by
    refine ⟨some (.base ((BaseMetaValue.new .zset members.length now).updateVersion now)),
      fun m hm ↦ ?_, fun db _ ↦ get_metaCF_write_createZset db destination members now⟩
    rw [← Option.some.inj hm]
    exact h.updateVersion_zero

/-- Clearing leaves no row that is not old. -/
theorem lookup_write_clearDestination (hdb : VersionsLe d db) (hold : ¬r.version ≤ d) :
    (db.write (clearDestination db destination now)).lookup r = none := by
  rcases hx : (db.write (clearDestination db destination now)).lookup r with _ | x
  · rfl
  · rcases Redis.lookup_write_eq_some hx with hput | hstored
    · exact absurd hput put_notMem_clearDestination
    · exact absurd (hdb.dataRows hstored) hold

section

variable (h : Pre d now a b)

include h

/-- **Clearing and storing.** -/
theorem Pre.store {w : Batch S} (hw : Storing now destination w) :
    Post SameEtime d now a (a.write (clearDestination a destination now ++ w))
      (b.write (clearDestination b destination now ++ w)) := by
  have hle : ∀ db : Redis S, UpTo [destination] now (clearDestination db destination now ++ w) :=
    fun db ↦ meets_clearDestination.append hw.upTo
  obtain ⟨o, hnew, hget⟩ := hw.stored
  have hdestination : ∀ db : Redis S,
      (db.write (clearDestination db destination now ++ w)).metaCF.get destination = o := by
    intro db
    rw [Redis.write_append]
    exact hget _ get_metaCF_clearDestination
  -- any other key has its meta value left alone
  have hother : ∀ (db : Redis S) {key : Bytes}, key ≠ destination →
      (db.write (clearDestination db destination now ++ w)).metaCF.get key = db.metaCF.get key :=
    fun db key hne ↦ (Redis.agreeAt_write_of_ne (hle db).toNames hne).metaCF
  have hmoves : Moves SameEtime now a (a.write (clearDestination a destination now ++ w)) := by
    intro key m' hm' _
    by_cases hkey : key = destination
    · obtain rfl := hkey
      exact Or.inr (hnew m' ((hdestination a).symm.trans (Redis.liveMeta_eq_some_iff.1 hm').1))
    · rw [liveMeta_congr (hother a hkey)] at hm'
      exact Or.inl ⟨m', hm', rfl, rfl, rfl⟩
  refine ⟨⟨fun key ↦ ?_, fun r ↦ ?_, h.alike.cursors⟩, hmoves,
    (h.left.of_le h.lt.le).write (hle a), (h.right.of_le h.lt.le).write (hle b)⟩
  · by_cases hkey : key = destination
    · obtain rfl := hkey
      exact liveMeta_congr ((hdestination a).trans (hdestination b).symm) now
    · rw [liveMeta_congr (hother a hkey), liveMeta_congr (hother b hkey)]
      exact h.alike.live key
  by_cases hkey : r.key = destination
  · by_cases hold : r.version ≤ d
    · -- an old row of the destination is out of sight now, whatever the two sides did to it
      refine Or.inr ⟨hold, ?_⟩
      rintro ⟨m, hm, -, hv⟩
      have hm := (Redis.liveMeta_eq_some_iff.1 hm).1
      rw [hkey, hdestination a] at hm
      have := hnew m hm
      have := h.lt
      omega
    · -- a row that is not old was stored on neither side
      refine Or.inl ?_
      rw [Redis.write_append, Redis.write_append]
      rcases Redis.lookup_write_cases w r with hdecided | hsame
      · exact hdecided _ _
      · rw [hsame, hsame, lookup_write_clearDestination h.left hold,
          lookup_write_clearDestination h.right hold]
  · have hframe : ∀ db : Redis S,
        (db.write (clearDestination db destination now ++ w)).lookup r = db.lookup r := fun db ↦
      lookup_write_of_key fun e he heq ↦ hkey (heq.symm.trans ((hle db).key_eq e he))
    rw [hframe a, hframe b]
    exact (h.alike.rows r).imp_right fun hr ↦
      ⟨hr.1, hmoves.not_current hr.2 (hr.1.trans_lt h.lt)⟩

theorem agree_zsetStoreOperation (destination : Bytes) (keys : List Bytes)
    (weights : List S) (aggregate : Bytes) (isInter : Bool) :
    Agree (Post SameEtime d now a) a b
      (zsetStoreOperation destination keys weights aggregate isInter now)
      (zsetStoreOperation destination keys weights aggregate isInter now) := by
  rw [Agree, exec_zsetStoreOperation, exec_zsetStoreOperation, ← h.sameView.resultOf]
  rcases Zsets.resultOf a keys weights aggregate isInter now with e | (_ | result)
  · exact ⟨rfl, h.post⟩
  · exact ⟨rfl, h.post⟩
  dsimp only
  split_ifs
  · have hpost := h.store (storing_nil now destination)
    rw [List.append_nil, List.append_nil] at hpost
    exact ⟨rfl, hpost⟩
  · exact ⟨rfl, h.store (storing_createZset h destination result)⟩

/-- **Zset operations.** -/
theorem agree_zset (o : Zsets.Operation S α) :
    Agree (Post SameEtime d now a) a b (o.run now) (o.run now) := by
  cases o with
  | zinterstore destination keys weights aggregate =>
    exact agree_zsetStoreOperation h destination keys weights aggregate true
  | zunionstore destination keys weights aggregate =>
    exact agree_zsetStoreOperation h destination keys weights aggregate false
  | _ => exact h.agree_of_writes (commits_zset h.sameView _ rfl)

end

end Zsets

end Kiwi.Compaction
