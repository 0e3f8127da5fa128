import Kiwi.Correctness.Compaction.Operations
import Kiwi.Lib.Run

/-!
# Deleted members stay deleted

Deleting a collection leaves its data rows behind: only the meta row changes, and the rows are out
of sight because they carry a version that is not current. So a deleted member comes back exactly
when the collection is created again *under the version its old rows carry*.

The runs here are made of the operations that create, fill, delete, expire and overwrite
collections, under a clock that never goes back. Beside the database, a run keeps for every key what
has been written to it since the key last ceased to exist (`Tracked`). What a read can see
(`Sees`) should be among that.

It need not be. A new collection takes its version from the clock alone, without looking at the
version that deletion stored in the meta row, so a collection that is deleted and created again
within one microsecond gets its old version back, and with it its old rows
(`hgetall_returns_deleted_field`). What is needed is that the version an operation moves a key to
is not in use (`Command.TakesFreshVersion`); then nothing comes back
(`reads_return_written_since_end`). A clock that advances with every operation gives that
(`takesFreshVersion_of_strict_clock`).
-/

namespace Kiwi.Resurrection

open Zsets (ScoreMember scoreKey)

/-! ### What collections contain -/

/-- Something a collection can contain. -/
inductive Item (S : Type)
  /-- A field of a hash, with its value. -/
  | field (field value : Bytes)
  | member (member : Bytes)
  /-- A member of a zset, with its score. -/
  | scored (member : Bytes) (score : S)
  | element (value : Bytes)
  deriving DecidableEq

/-- The type of the collections that contain such an item. -/
def Item.dataType {S : Type} : Item S → DataType
  | field _ _ => .hash
  | member _ => .set
  | scored _ _ => .zset
  | element _ => .list

variable {S : Type}

section LinearOrder

variable [LinearOrder S]

/-- A row for the item is stored under a key and version. -/
def Stored (db : Redis S) (key : Bytes) (version : ℕ) : Item S → Prop
  | .field f v => db.hashesDataCF.get ⟨key, version, f⟩ = some v
  | .member x => db.setsDataCF.get ⟨key, version, x⟩ = some ()
  | .scored x s => db.zsetsScoreCF.get ⟨key, version, toLex (s, x)⟩ = some ()
  | .element x => ∃ i, db.listsDataCF.get ⟨key, version, i⟩ = some x

/-- The item for which an entry puts a row. -/
def itemOf : Entry S → Option (Item S)
  | .hashesDataCF k (some v) => some (.field k.data v)
  | .setsDataCF k (some _) => some (.member k.data)
  | .zsetsScoreCF k (some _) => some (.scored (ofLex k.data).2 (ofLex k.data).1)
  | .listsDataCF _ (some x) => some (.element x)
  | _ => none

/-- All that a batch puts is `ok`. -/
def PutsOnly (ok : Item S → Prop) (b : Batch S) : Prop := ∀ e ∈ b, ∀ item ∈ itemOf e, ok item

/-- The item is in the collection that clients see at a key. -/
def Sees (db : Redis S) (key : Bytes) (now : ℕ) (item : Item S) : Prop :=
  ∃ m, db.liveMeta key now = some m ∧ m.dataType = item.dataType ∧ Stored db key m.version item

/-- No row of a type is stored under a key and version. -/
def NoRows (db : Redis S) (key : Bytes) (version : ℕ) : DataType → Prop
  | .hash => DataKey.rowsAt db.hashesDataCF key version = []
  | .set => DataKey.rowsAt db.setsDataCF key version = []
  | .zset => DataKey.rowsAt db.zsetsScoreCF key version = []
  | .list => DataKey.rowsAt db.listsDataCF key version = []
  | _ => True

instance (db : Redis S) (key : Bytes) (version : ℕ) (t : DataType) :
    Decidable (NoRows db key version t) :=
  match t with
  | .hash | .set | .zset | .list => inferInstanceAs (Decidable (_ = _))
  | .string | .none | .all | .vectorSet => inferInstanceAs (Decidable True)

variable {db db' : Redis S} {key : Bytes} {now now' version : ℕ} {item : Item S} {b : Batch S}

theorem stored_write (h : Stored (db.write b) key version item) :
    (∃ e ∈ b, item ∈ itemOf e) ∨ Stored db key version item := by
  cases item with
  | field => exact (SortedMap.get_apply_eq_some h).imp_left fun hput ↦
      ⟨_, Entry.mem_hashWrites.1 hput, rfl⟩
  | member => exact (SortedMap.get_apply_eq_some h).imp_left fun hput ↦
      ⟨_, Entry.mem_setWrites.1 hput, rfl⟩
  | scored => exact (SortedMap.get_apply_eq_some h).imp_left fun hput ↦
      ⟨_, Entry.mem_scoreWrites.1 hput, rfl⟩
  | element =>
    obtain ⟨i, hi⟩ := h
    exact (SortedMap.get_apply_eq_some hi).imp
      (fun hput ↦ ⟨_, Entry.mem_listWrites.1 hput, rfl⟩) fun hget ↦ ⟨i, hget⟩

theorem not_stored_of_noRows (h : NoRows db key version item.dataType) :
    ¬Stored db key version item := by
  cases item with
  | field | member | scored | element =>
    simp [Stored, DataKey.get_eq_none_of_rowsAt_eq_nil h]

theorem Stored.congr (h : db.AgreeAt db' key) :
    Stored db key version item ↔ Stored db' key version item := by
  cases item with
  | field => rw [Stored, Stored, h.hashesDataCF]
  | member => rw [Stored, Stored, h.setsDataCF]
  | scored => rw [Stored, Stored, h.zsetsScoreCF]
  | element => simp only [Stored, h.listsDataCF]

theorem Sees.congr (h : db.AgreeAt db' key) : Sees db key now item ↔ Sees db' key now item := by
  simp only [Sees, Redis.liveMeta, h.metaCF, Stored.congr h]

theorem Sees.of_le (h : now ≤ now') (hs : Sees db key now' item) : Sees db key now item := by
  obtain ⟨m, hm, ht, hst⟩ := hs
  exact ⟨m, Redis.liveMeta_mono h hm, ht, hst⟩

end LinearOrder

/-! ### Runs -/

/-- The operations of a run. Reads change nothing and are left to the statements. -/
inductive Command (S : Type)
  | hset (key field value : Bytes)
  | sadd (key : Bytes) (members : List Bytes)
  | zadd (key : Bytes) (scoreMembers : List (ScoreMember S))
  | lpush (key : Bytes) (values : List Bytes)
  | rpush (key : Bytes) (values : List Bytes)
  | delKey (key : Bytes)
  | setKeyEtime (key : Bytes) (etime : ℕ)
  | set (key value : Bytes)

namespace Command

/-- The key of a command. -/
def key : Command S → Bytes
  | hset k _ _ | sadd k _ | zadd k _ | lpush k _ | rpush k _ | delKey k | setKeyEtime k _
  | set k _ => k

/-- What a command writes. -/
def items : Command S → List (Item S)
  | hset _ f v => [.field f v]
  | sadd _ xs => xs.map .member
  | zadd _ sms => sms.map fun sm ↦ .scored sm.member sm.score
  | lpush _ vs | rpush _ vs => vs.map .element
  | delKey _ | setKeyEtime _ _ | set _ _ => []

/-- The type of the collection that a command adds to. -/
def dataType? : Command S → Option DataType
  | hset _ _ _ => some .hash
  | sadd _ _ => some .set
  | zadd _ _ => some .zset
  | lpush _ _ | rpush _ _ => some .list
  | delKey _ | setKeyEtime _ _ | set _ _ => none

/-- Whether a command deletes or overwrites what its key holds. -/
def ends : Command S → Bool
  | delKey _ | set _ _ => true
  | _ => false

/-- Whether the outcome is a success, and the contents. -/
def outcome [LinearOrder S] {α : Type} (r : Except Error α × Redis S) : Bool × Redis S :=
  (r.1.isOk, r.2)

variable [Score S]

/-- Run a command: whether it succeeds, and the contents it leaves. -/
def exec (c : Command S) (now : ℕ) (db : Redis S) : Bool × Redis S :=
  match c with
  | hset k f v => outcome ((Hashes.hset k f v now).exec db)
  | sadd k xs => outcome ((Sets.sadd k xs now).exec db)
  | zadd k sms => outcome ((Zsets.zadd k sms now).exec db)
  | lpush k vs => outcome ((Lists.lpush k vs now).exec db)
  | rpush k vs => outcome ((Lists.rpush k vs now).exec db)
  | delKey k => outcome ((Strings.delKey k now).exec db)
  | setKeyEtime k e => outcome ((Strings.setKeyEtime k e now).exec db)
  | set k v => outcome ((Strings.set k v now).exec db)

/-- The version to which a command moves its key, if it does: a new collection takes its version
from the clock, and a push at the head of a list moves the list to a new version. -/
def newVersion (c : Command S) (now : ℕ) (db : Redis S) : Option (DataType × ℕ) :=
  match c, db.liveMeta c.key now with
  | hset _ _ _, none => some (.hash, updateVersion 0 now)
  | sadd _ _, none => some (.set, updateVersion 0 now)
  | zadd _ _, none => some (.zset, updateVersion 0 now)
  | lpush _ _, none | rpush _ _, none => some (.list, updateVersion 0 now)
  | lpush _ _, some (.list m) => some (.list, updateVersion m.version now)
  | _, _ => none

/-- A version to which the command moves its key is not in use by old rows of the key. -/
def TakesFreshVersion (c : Command S) (now : ℕ) (db : Redis S) : Prop :=
  match c.newVersion now db with
  | none => True
  | some (t, v) => NoRows db c.key v t

instance (c : Command S) (now : ℕ) (db : Redis S) : Decidable (c.TakesFreshVersion now db) :=
  match h : c.newVersion now db with
  | none => isTrue (by rw [TakesFreshVersion, h]; trivial)
  | some (t, v) => decidable_of_iff (NoRows db c.key v t) (by rw [TakesFreshVersion, h])

end Command

/-! ### What a command commits -/

/-- What a batch committed by a command does to the key of the command. -/
inductive Effect [Score S] (c : Command S) (now : ℕ) (db : Redis S) (b : Batch S) : Prop
  | ended (ends : c.ends = true) (gone : ∀ m, (db.write b).metaCF.get c.key = some m →
        m.isStale now = true ∨ m.dataType = .string)
  /-- There is a collection now. It has the version of the live collection that was there, or the
  version the command moves to; what was put is what the command writes or what was visible
  before. -/
  | stored (m : MetaValue) (ends : c.ends = false)
      (atKey : (db.write b).metaCF.get c.key = some m) (type : ∀ t ∈ c.dataType?, m.dataType = t)
      (puts : PutsOnly (fun item ↦ item ∈ c.items ∨ Sees db c.key now item) b)
      (version : (∃ m₀, db.liveMeta c.key now = some m₀ ∧ m.version = m₀.version ∧
          m.dataType = m₀.dataType) ∨
        c.newVersion now db = some (m.dataType, m.version))

/-- What a command does: it leaves the database alone, or commits one batch that names only its
key. -/
inductive Outcome [Score S] (c : Command S) (now : ℕ) (db : Redis S) : Bool × Redis S → Prop
  /-- Nothing is committed; a command that deletes does so only when there is nothing to delete. -/
  | unchanged (ok : Bool) (h : ok = true → c.ends = true → db.liveMeta c.key now = none) :
      Outcome c now db (ok, db)
  | committed (b : Batch S) (names : Names c.key b) (effect : Effect c now db b) :
      Outcome c now db (true, db.write b)

variable {c : Command S} {now : ℕ}

theorem Outcome.refused [Score S] {db : Redis S} :
    Outcome c now db (false, db) := .unchanged false fun h ↦ absurd h Bool.false_ne_true

theorem Outcome.kept [Score S] {db : Redis S} (h : c.ends = false) : Outcome c now db (true, db) :=
  .unchanged true fun _ hends ↦ absurd (h.symm.trans hends) Bool.false_ne_true

section Puts

variable {ok : Item S → Prop} {k : Bytes} {version : ℕ}

theorem putsOnly_nil : PutsOnly ok ([] : Batch S) := fun _ h ↦ absurd h List.not_mem_nil

theorem PutsOnly.append {b b' : Batch S} (h : PutsOnly ok b) (h' : PutsOnly ok b') :
    PutsOnly ok (b ++ b') := List.forall_mem_append.2 ⟨h, h'⟩

variable {b : Batch S}

theorem PutsOnly.cons {e : Entry S} (h : PutsOnly ok b)
    (he : ∀ item ∈ itemOf e, ok item) : PutsOnly ok (e :: b) := List.forall_mem_cons.2 ⟨he, h⟩

theorem PutsOnly.cons_of_none {e : Entry S} (h : PutsOnly ok b)
    (he : itemOf e = none) : PutsOnly ok (e :: b) :=
  h.cons fun _ hitem ↦ absurd (he.symm.trans hitem) (Option.some_ne_none _).symm

theorem putsOnly_meta (o : Option MetaValue) (h : PutsOnly ok b) :
    PutsOnly ok (.metaCF k o :: b) := h.cons_of_none rfl

theorem putsOnly_flatMap {A : Type} {l : List A} {f : A → Batch S}
    (h : ∀ a ∈ l, PutsOnly ok (f a)) : PutsOnly ok (l.flatMap f) := by
  intro e he
  obtain ⟨a, ha, he⟩ := List.mem_flatMap.1 he
  exact h a ha e he

theorem putsOnly_putFields {fields : List (Bytes × Bytes)} (h : ∀ r ∈ fields, ok (.field r.1 r.2)) :
    PutsOnly ok (Hashes.putFields k version fields) := by
  refine List.forall_mem_map.2 fun r hr item hitem ↦ ?_
  obtain rfl := Option.some.inj hitem
  exact h r hr

theorem putsOnly_putMembers {members : List Bytes} (h : ∀ x ∈ members, ok (.member x)) :
    PutsOnly ok (Sets.putMembers k version members) := by
  refine List.forall_mem_map.2 fun x hx item hitem ↦ ?_
  obtain rfl := Option.some.inj hitem
  exact h x hx

section

variable {sm : ScoreMember S} (h : ok (.scored sm.member sm.score))

include h

theorem putsOnly_putMember : PutsOnly ok (Zsets.putMember k version sm) := by
  refine PutsOnly.cons_of_none (putsOnly_nil.cons fun item hitem ↦ ?_) rfl
  obtain rfl := Option.some.inj hitem
  exact h

theorem putsOnly_addOne [Score S] {old : Option S} :
    PutsOnly ok (Zsets.addOne k version old sm).1 := by
  unfold Zsets.addOne
  rcases old with _ | old
  · exact putsOnly_putMember h
  · dsimp only
    split_ifs
    · exact putsOnly_nil
    · exact (putsOnly_putMember h).cons_of_none rfl

end

theorem putsOnly_putElements {base : ℕ} {xs : List Bytes} (h : ∀ x ∈ xs, ok (.element x)) :
    PutsOnly ok (Lists.putElements k version base xs) := by
  intro e he item hitem
  obtain ⟨j, hj, rfl⟩ := List.mem_mapIdx.1 he
  obtain rfl := Option.some.inj hitem
  exact h _ (List.getElem_mem hj)

end Puts

section Outcomes

variable [Score S] (db : Redis S) (now : ℕ)

open Program

theorem outcome_hset (k f v : Bytes) :
    Outcome (.hset k f v) now db ((Command.hset k f v).exec now db) := by
  have hexec : (Command.hset k f v).exec now db =
      Command.outcome ((Hashes.hsetWithOutcome k f v now).exec db) := by
    show Command.outcome ((Hashes.hset k f v now).exec db) = _
    rw [Hashes.hset, exec_bind_pure]
    rcases (Hashes.hsetWithOutcome k f v now).exec db with ⟨_ | _, _⟩ <;> rfl
  have hputs {version : ℕ} : PutsOnly (fun item ↦ item ∈ (Command.hset k f v : Command S).items ∨
      Sees db k now item) (Hashes.putFields k version [(f, v)]) := by
    refine putsOnly_putFields fun r hr ↦ Or.inl ?_
    rw [List.mem_singleton.1 hr]
    exact List.mem_singleton_self _
  rw [hexec, Hashes.hsetWithOutcome, Hashes.exec_updateField]
  rcases h : db.baseMeta .hash k now with e | (_ | m)
  · exact .refused
  · refine .committed _ (Hashes.meets_createNewHash (fun _ ↦ trivial) trivial _)
      (.stored (.base ((BaseMetaValue.new .hash 1 now).updateVersion now)) rfl
        (by simp [Hashes.createNewHash, Command.key]) (fun _ ↦ Option.some.inj)
        (putsOnly_meta _ hputs) (Or.inr ?_))
    simp [Command.newVersion, Command.key, Redis.baseMeta_eq_ok_none_iff.1 h, MetaValue.dataType,
      MetaValue.version, BaseMetaValue.new, BaseMetaValue.updateVersion, BaseType.toDataType]
  · obtain ⟨hm, ht⟩ := Redis.baseMeta_eq_ok_some_iff.1 h
    have htype : ∀ t ∈ (Command.hset k f v : Command S).dataType?, m.dataType.toDataType = t := by
      rw [ht]
      exact fun _ ↦ Option.some.inj
    dsimp only
    rcases db.hashesDataCF.get ⟨k, m.version, f⟩ with _ | old
    · dsimp only
      split_ifs
      · exact .committed _ (meets_put trivial (Hashes.meets_putFields trivial _))
          (.stored (.base (m.modifyCount 1)) rfl (by simp [Command.key]) htype
            (putsOnly_meta _ hputs) (Or.inl ⟨_, hm, rfl, rfl⟩))
      · exact .refused
    · by_cases heq : old = v
      · simp only [heq, if_true]
        exact .kept rfl
      · simp only [heq, if_false]
        exact .committed _ (Hashes.meets_putFields trivial _)
          (.stored (.base m) rfl
            (by simpa [Command.key] using (Redis.liveMeta_eq_some_iff.1 hm).1) htype hputs
            (Or.inl ⟨_, hm, rfl, rfl⟩))

variable (k : Bytes)

theorem outcome_sadd (xs : List Bytes) :
    Outcome (.sadd k xs) now db ((Command.sadd k xs).exec now db) := by
  show Outcome _ _ _ (Command.outcome ((Sets.sadd k xs now).exec db))
  rw [Sets.exec_sadd]
  split_ifs with hempty
  · exact .kept rfl
  rcases h : db.baseMeta .set k now with e | found
  · exact .refused
  dsimp only
  split_ifs with hnew hcheck
  · exact .kept rfl
  · have htype : (found.getD (Sets.newSetMeta now)).dataType = .set := by
      rcases found with _ | m
      · rfl
      · exact (Redis.baseMeta_eq_ok_some_iff.1 h).2
    refine .committed _
      (meets_put trivial (Sets.meets_putMembers (List.mem_singleton_self _) trivial _))
      (.stored (.base ((found.getD (Sets.newSetMeta now)).modifyCount _)) rfl
        (by simp [Command.key]; rfl) (fun t ht ↦ ?_)
        (putsOnly_meta _ (putsOnly_putMembers fun x hx ↦ Or.inl ?_)) ?_)
    · exact (congrArg BaseType.toDataType htype).trans (Option.some.inj ht)
    · exact List.mem_map_of_mem (mem_of_mem_firstBy (Sets.mem_of_mem_toAdd hx))
    · rcases found with _ | m
      · refine Or.inr ?_
        simp [Command.newVersion, Command.key, Redis.baseMeta_eq_ok_none_iff.1 h]
        exact ⟨rfl, rfl⟩
      · exact Or.inl ⟨_, (Redis.baseMeta_eq_ok_some_iff.1 h).1, rfl, rfl⟩
  · exact .refused

theorem outcome_zadd (sms : List (ScoreMember S)) :
    Outcome (.zadd k sms) now db ((Command.zadd k sms).exec now db) := by
  show Outcome _ _ _ (Command.outcome ((Zsets.zadd k sms now).exec db))
  have hitem {sm : ScoreMember S} (hsm : sm ∈ firstBy ScoreMember.member sms) :
      Item.scored sm.member sm.score ∈ (Command.zadd k sms).items ∨
        Sees db k now (.scored sm.member sm.score) :=
    Or.inl (List.mem_map_of_mem (f := fun sm : ScoreMember S ↦ Item.scored _ _)
      (mem_of_mem_firstBy hsm))
  rw [Zsets.exec_zadd]
  dsimp only
  split_ifs with hempty
  · exact .kept rfl
  rcases h : db.baseMeta .zset k now with e | (_ | m)
  · exact .refused
  · refine .committed _ (Zsets.meets_createZset (fun _ ↦ trivial) trivial _)
      (.stored (.base ((BaseMetaValue.new .zset _ now).updateVersion now)) rfl
        (Zsets.get_metaCF_write_createZset _ _ _ _) (fun _ ↦ Option.some.inj)
        (putsOnly_meta _ (putsOnly_flatMap fun sm hsm ↦ putsOnly_putMember (hitem hsm)))
        (Or.inr ?_))
    simp [Command.newVersion, Command.key, Redis.baseMeta_eq_ok_none_iff.1 h]
    exact ⟨rfl, rfl⟩
  · dsimp only
    obtain ⟨hm, ht⟩ := Redis.baseMeta_eq_ok_some_iff.1 h
    split_ifs with hcheck
    · refine .committed _ ((Zsets.meets_additions trivial _).append (meets_meta trivial))
        (.stored (.base (m.modifyCount _)) rfl (Redis.get_metaCF_write_append _ _ _ _)
          (fun t ht' ↦ (congrArg BaseType.toDataType ht).trans (Option.some.inj ht'))
          ((putsOnly_flatMap fun p hp ↦ ?_).append (putsOnly_meta _ putsOnly_nil))
          (Or.inl ⟨_, hm, rfl, rfl⟩))
      obtain ⟨sm, hsm, rfl⟩ := List.mem_map.1 hp
      exact putsOnly_addOne (hitem hsm)
    · exact .refused

theorem outcome_delKey : Outcome (.delKey k) now db ((Command.delKey k).exec now db) := by
  show Outcome _ _ _ (Command.outcome ((Strings.delKey k now).exec db))
  rw [Strings.exec_delKey]
  rcases h : db.liveMeta k now with _ | m
  · exact .unchanged true fun _ _ ↦ h
  · refine .committed _ (meets_anyMeta (fun _ ↦ trivial) _) (.ended rfl fun m' hm' ↦ ?_)
    have hm' : Strings.deletedMeta now m = some m' := by simpa [Command.key, SortedMap.get_write]
      using hm'
    cases m with
    | string => simp [Strings.deletedMeta] at hm'
    | base | list =>
      obtain rfl := Option.some.inj hm'
      exact Or.inl rfl

theorem outcome_setKeyEtime (etime : ℕ) :
    Outcome (.setKeyEtime k etime) now db ((Command.setKeyEtime k etime).exec now db) := by
  show Outcome _ _ _ (Command.outcome ((Strings.setKeyEtime k etime now).exec db))
  rw [Strings.exec_setKeyEtime]
  rcases h : db.liveMeta k now with _ | m
  · exact .kept rfl
  · exact .committed _ (meets_meta trivial)
      (.stored (m.setEtime etime) rfl (by simp [Command.key])
        (fun _ ht ↦ absurd ht (Option.not_mem_none _)) (putsOnly_meta _ putsOnly_nil)
        (Or.inl ⟨m, h, m.setEtime_version etime, m.setEtime_dataType etime⟩))

theorem outcome_set (k v : Bytes) : Outcome (.set k v) now db ((Command.set k v).exec now db) := by
  refine .committed [Strings.putString k v now 0] (meets_meta trivial) (.ended rfl fun m hm ↦ ?_)
  obtain rfl : MetaValue.string ⟨v, now, 0⟩ = m := by
    simpa [Strings.putString, Command.key, SortedMap.get_write] using hm
  exact Or.inr rfl

/-- What a push puts: its values, and what the list had when the push rewrites it. -/
theorem putsOnly_pushed {k : Bytes} {vs : List Bytes} {position : Bool}
    {found : Option ListsMetaValue} (h : db.listMeta k now = .ok found) :
    PutsOnly (fun item ↦ item ∈ vs.map Item.element ∨ Sees db k now item)
      (Lists.pushed db k vs position (found.getD (Lists.newListMeta now)) now).1 := by
  have hvalue {x : Bytes} (hx : x ∈ vs) :
      (Item.element x : Item S) ∈ vs.map Item.element ∨ Sees db k now (.element x) :=
    Or.inl (List.mem_map_of_mem hx)
  cases position with
  | false => exact putsOnly_putElements fun x hx ↦ hvalue hx
  | true =>
    have hfront {version base : ℕ} : PutsOnly (fun item ↦ item ∈ vs.map Item.element ∨
        Sees db k now item) (Lists.putElements k version base vs.reverse) :=
      putsOnly_putElements fun x hx ↦ hvalue (List.mem_reverse.1 hx)
    simp only [Lists.pushed, Lists.pushLeft, if_true]
    split_ifs with hcount
    · exact hfront
    · refine (PutsOnly.append ?_ hfront).append (putsOnly_putElements fun x hx ↦ ?_)
      · exact List.forall_mem_map.2 fun _ _ _ ht ↦ absurd ht (Option.not_mem_none _)
      · obtain ⟨i, -, hi⟩ := List.mem_filterMap.1 hx
        rcases found with _ | m
        · -- a new list is empty, so it is not rewritten
          exact absurd rfl hcount
        · exact Or.inr ⟨_, Redis.listMeta_eq_ok_some_iff.1 h, rfl, _, hi⟩

theorem outcome_pushCore (c : Command S) (vs : List Bytes) (position : Bool)
    (hexec : c.exec now db = Command.outcome ((Lists.pushCore c.key vs position true now).exec db))
    (hends : c.ends = false) (htype : c.dataType? = some .list)
    (hitems : c.items = vs.map Item.element)
    (hversion : ∀ found, db.listMeta c.key now = .ok found →
      (∃ m₀, db.liveMeta c.key now = some m₀ ∧
        (Lists.pushed db c.key vs position (found.getD (Lists.newListMeta now)) now).2.version =
          m₀.version ∧ DataType.list = m₀.dataType) ∨
      c.newVersion now db = some (.list,
        (Lists.pushed db c.key vs position (found.getD (Lists.newListMeta now)) now).2.version)) :
    Outcome c now db (c.exec now db) := by
  rw [hexec, Lists.exec_pushCore]
  rcases h : db.listMeta c.key now with e | found
  · exact .refused
  dsimp only
  split_ifs with hempty hcreate
  · exact .kept hends
  · simp at hcreate
  · refine .committed _ ((Lists.meets_pushed trivial).append (meets_meta trivial))
      (.stored (.list _) hends (Redis.get_metaCF_write_append _ _ _ _) (fun t ht ↦ ?_) ?_
        (hversion found h))
    · rw [htype] at ht
      exact Option.some.inj ht
    · rw [hitems]
      exact (putsOnly_pushed db now h).append (putsOnly_meta _ putsOnly_nil)

variable (vs : List Bytes)

/-- `lpush` and `rpush` answer the length that `push_core` answers. -/
theorem outcome_pushCore_bind (position : Bool)
    {f : Option ℤ → Op S ℤ} (hf : ∀ n, f (some n) = pure n) :
    Command.outcome ((Lists.pushCore k vs position true now >>= f).exec db) =
      Command.outcome ((Lists.pushCore k vs position true now).exec db) := by
  rw [Program.exec_bind, Lists.exec_pushCore]
  rcases db.listMeta k now with e | found
  · rfl
  · cases hempty : vs.isEmpty <;> simp [Command.outcome, Except.isOk, Except.toBool, hf]

theorem outcome_lpush : Outcome (.lpush k vs) now db ((Command.lpush k vs).exec now db) := by
  refine outcome_pushCore db now (.lpush k vs) vs true ?_ rfl rfl rfl fun found h ↦ Or.inr ?_
  · exact outcome_pushCore_bind db now k vs true fun _ ↦ rfl
  · have hversion := @Lists.version_pushed S _ db k vs true now _ h
    rcases found with _ | m
    · have hnone : db.liveMeta k now = none := Redis.listMeta_eq_ok_none_iff.1 h
      simpa [Command.newVersion, Command.key, hnone] using hversion.symm
    · have hsome : db.liveMeta k now = some (.list m) := Redis.listMeta_eq_ok_some_iff.1 h
      simpa [Command.newVersion, Command.key, hsome] using hversion.symm

theorem outcome_rpush : Outcome (.rpush k vs) now db ((Command.rpush k vs).exec now db) := by
  refine outcome_pushCore db now (.rpush k vs) vs false ?_ rfl rfl rfl fun found h ↦ ?_
  · exact outcome_pushCore_bind db now k vs false fun _ ↦ rfl
  · have hversion := @Lists.version_pushed S _ db k vs false now _ h
    rcases found with _ | m
    · have hnone : db.liveMeta k now = none := Redis.listMeta_eq_ok_none_iff.1 h
      refine Or.inr ?_
      simpa [Command.newVersion, Command.key, hnone] using hversion.symm
    · exact Or.inl ⟨_, Redis.listMeta_eq_ok_some_iff.1 h, rfl, rfl⟩

/-- **What a command does**, for each of them. -/
theorem outcome_exec (c : Command S) : Outcome c now db (c.exec now db) := by
  cases c with
  | hset k f v => exact outcome_hset db now k f v
  | sadd k xs => exact outcome_sadd db now k xs
  | zadd k sms => exact outcome_zadd db now k sms
  | lpush k vs => exact outcome_lpush db now k vs
  | rpush k vs => exact outcome_rpush db now k vs
  | delKey k => exact outcome_delKey db now k
  | setKeyEtime k e => exact outcome_setKeyEtime db now k e
  | set k v => exact outcome_set db now k v

end Outcomes

/-- A database, and what has been written to each key since it last ceased to exist. -/
structure Tracked (S : Type) [LinearOrder S] where
  db : Redis S
  /-- What was written to a key since it was last deleted, expired or overwritten. -/
  written : Bytes → List (Item S)

namespace Tracked

variable [Score S]

/-- The empty database. -/
def init : Tracked S := ⟨.empty, fun _ ↦ []⟩

/-- What still counts as written at a time: nothing, for a key that does not exist then. -/
def remembered (s : Tracked S) (now : ℕ) (key : Bytes) : List (Item S) :=
  if (s.db.liveMeta key now).isSome then s.written key else []

/-- One command. Only a command that succeeds counts as having written something. -/
def step (s : Tracked S) (now : ℕ) (c : Command S) : Tracked S where
  db := (c.exec now s.db).2
  written key :=
    if key = c.key ∧ (c.exec now s.db).1 then
      if c.ends then [] else c.items ++ s.remembered now key
    else s.remembered now key

/-- The clock does not go back. -/
def ClockOk (s : ℕ × Tracked S) (a : ℕ × Command S) : Prop := s.1 ≤ a.1

/-- The clock does not go back, and the command moves its key to no version that is in use. -/
def Guard (s : ℕ × Tracked S) (a : ℕ × Command S) : Prop :=
  s.1 ≤ a.1 ∧ a.2.TakesFreshVersion a.1 s.2.db

instance (s : ℕ × Tracked S) (a : ℕ × Command S) : Decidable (ClockOk s a) :=
  inferInstanceAs (Decidable (_ ≤ _))

instance (s : ℕ × Tracked S) (a : ℕ × Command S) : Decidable (Guard s a) :=
  inferInstanceAs (Decidable (_ ∧ _))

end Tracked

/-! ### Nothing comes back -/

section Main

variable [Score S]

/-- Everything visible was written since its key last ceased to exist. -/
def Inv (s : ℕ × Tracked S) : Prop :=
  ∀ key item, Sees s.2.db key s.1 item → item ∈ s.2.written key

theorem inv_init : Inv (0, (Tracked.init : Tracked S)) := by
  rintro key item ⟨m, hm, -⟩
  simp [Tracked.init, Redis.empty, Redis.liveMeta] at hm

omit [Score S] in
theorem Item.dataType_ne_string (item : Item S) : item.dataType ≠ .string := by
  cases item <;> simp [Item.dataType]

/-- What a committed batch makes visible at the key of the command, if the version the command moves
to is not in use. -/
theorem Effect.sees {db : Redis S} {b : Batch S} {item : Item S}
    (h : Effect c now db b) (hfresh : c.TakesFreshVersion now db)
    (hs : Sees (db.write b) c.key now item) :
    c.ends = false ∧ (item ∈ c.items ∨ Sees db c.key now item) := by
  obtain ⟨m', hm', ht, hst⟩ := hs
  obtain ⟨hget, hlive⟩ := Redis.liveMeta_eq_some_iff.1 hm'
  cases h with
  | ended _ gone =>
    rcases gone m' hget with hstale | hstring
    · rw [hlive] at hstale
      cases hstale
    · exact absurd (ht.symm.trans hstring) item.dataType_ne_string
  | stored m ends atKey _ puts version =>
    obtain rfl : m = m' := Option.some.inj (atKey.symm.trans hget)
    refine ⟨ends, ?_⟩
    rcases stored_write hst with ⟨e, he, hput⟩ | hold
    · exact puts e he item hput
    · rcases version with ⟨m₀, hm₀, hv, htype⟩ | hnew
      · exact Or.inr ⟨m₀, hm₀, htype.symm.trans ht, hv ▸ hold⟩
      · rw [Command.TakesFreshVersion, hnew, ht] at hfresh
        exact absurd hold (not_stored_of_noRows hfresh)

/-- **One command** leaves nothing in sight that was not written since its key last ended, if it
takes a fresh version. -/
theorem inv_step (s : ℕ × Tracked S) (a : ℕ × Command S) (hs : Inv s) (ha : Tracked.Guard s a) :
    Inv (Run.tick Tracked.step s a) := by
  obtain ⟨t, s⟩ := s
  obtain ⟨now, c⟩ := a
  obtain ⟨hclock, hfresh⟩ := ha
  have hrem : ∀ {key item}, Sees s.db key now item → item ∈ s.remembered now key := by
    intro key item hsees
    have hsome : (s.db.liveMeta key now).isSome := by
      obtain ⟨m, hm, -⟩ := hsees
      simp [hm]
    rw [Tracked.remembered, if_pos hsome]
    exact hs key item (hsees.of_le hclock)
  intro key item hsees
  change Sees (c.exec now s.db).2 key now item at hsees
  show item ∈ (if key = c.key ∧ (c.exec now s.db).1 = true then
    if c.ends then [] else c.items ++ s.remembered now key else s.remembered now key)
  have hout := outcome_exec s.db now c
  revert hsees hout
  generalize c.exec now s.db = r
  intro hsees hout
  cases hout with
  | unchanged _ hends =>
    split_ifs with hkey hend
    · obtain ⟨m, hm, -⟩ := hsees
      rw [hkey.1, hends hkey.2 hend] at hm
      cases hm
    · exact List.mem_append_right _ (hrem hsees)
    · exact hrem hsees
  | committed _ names effect =>
    by_cases hkey : key = c.key
    · subst hkey
      obtain ⟨hend, hitem⟩ := effect.sees hfresh hsees
      rw [if_pos ⟨rfl, rfl⟩, hend]
      exact List.mem_append.2 (hitem.imp_right hrem)
    · rw [if_neg fun h ↦ hkey h.1]
      exact hrem ((Sees.congr (Redis.agreeAt_write_of_ne names hkey)).1 hsees)

/-! ### Reads -/

/-- Every collection read of a key returns only what was written to it since it last ceased to
exist. -/
def ReadsOnlyWritten (s : Tracked S) (key : Bytes) (now : ℕ) : Prop :=
  (∀ r, Hashes.hgetall s.db key now = .ok r → ∀ p ∈ r, ∃ f v,
    .field f v ∈ s.written key ∧ p = (fromUtf8Lossy f, fromUtf8Lossy v)) ∧
  (∀ r, Sets.smembers s.db key now = .ok r → ∀ y ∈ r, ∃ x,
    .member x ∈ s.written key ∧ y = fromUtf8Lossy x) ∧
  (∀ withScores r, Zsets.zrange s.db key 0 (-1) withScores now = .ok r → ∃ rows,
    r = Zsets.listing withScores rows ∧ ∀ sm ∈ rows, .scored sm.member sm.score ∈ s.written key) ∧
  (∀ r, Lists.lrange s.db key 0 (-1) now = .ok r → ∀ x ∈ r, .element x ∈ s.written key)

variable {db : Redis S} {key : Bytes} {now : ℕ}

theorem sees_of_hgetall {r : List (Bytes × Bytes)} (h : Hashes.hgetall db key now = .ok r)
    {p : Bytes × Bytes} (hp : p ∈ r) :
    ∃ f v, Sees db key now (.field f v) ∧ p = (fromUtf8Lossy f, fromUtf8Lossy v) := by
  unfold Hashes.hgetall Hashes.storedFields at h
  rcases hm : db.baseMeta .hash key now with e | (_ | m) <;> rw [hm] at h
  · cases h
  · cases h
    cases hp
  · cases h
    obtain ⟨⟨f, v⟩, hrow, rfl⟩ := List.mem_map.1 hp
    obtain ⟨hlive, ht⟩ := Redis.baseMeta_eq_ok_some_iff.1 hm
    exact ⟨f, v, ⟨_, hlive, by simp [MetaValue.dataType, ht, BaseType.toDataType, Item.dataType],
      DataKey.mem_rowsAt_iff.1 hrow⟩, rfl⟩

variable {r : List Bytes}

theorem sees_of_smembers (h : Sets.smembers db key now = .ok r) {y : Bytes}
    (hy : y ∈ r) : ∃ x, Sees db key now (.member x) ∧ y = fromUtf8Lossy x := by
  unfold Sets.smembers at h
  rw [Redis.validMeta_eq_baseMeta] at h
  rcases hm : db.baseMeta .set key now with e | (_ | m) <;> rw [hm] at h
  · cases h
  · cases h
    cases hy
  · cases h
    obtain ⟨x, hx, rfl⟩ := List.mem_map.1 hy
    obtain ⟨⟨x, ⟨⟩⟩, hrow, rfl⟩ := List.mem_map.1 hx
    obtain ⟨hlive, ht⟩ := Redis.baseMeta_eq_ok_some_iff.1 hm
    exact ⟨x, ⟨_, hlive, by simp [MetaValue.dataType, ht, BaseType.toDataType, Item.dataType],
      DataKey.mem_rowsAt_iff.1 hrow⟩, rfl⟩

theorem sees_of_zrange {withScores : Bool}
    (h : Zsets.zrange db key 0 (-1) withScores now = .ok r) : ∃ rows,
      r = Zsets.listing withScores rows ∧
        ∀ sm ∈ rows, Sees db key now (.scored sm.member sm.score) := by
  unfold Zsets.zrange at h
  rw [Redis.validMeta_eq_baseMeta] at h
  rcases hm : db.baseMeta .zset key now with e | (_ | m) <;> rw [hm] at h
  · cases h
  · cases h
    exact ⟨[], rfl, by simp⟩
  · refine ⟨_, (Except.ok.inj h).symm, fun sm hsm ↦ ?_⟩
    obtain ⟨⟨d, ⟨⟩⟩, hrow, rfl⟩ := List.mem_map.1 (Zsets.rankRange_sublist.subset hsm)
    obtain ⟨hlive, ht⟩ := Redis.baseMeta_eq_ok_some_iff.1 hm
    exact ⟨_, hlive, by simp [MetaValue.dataType, ht, BaseType.toDataType, Item.dataType],
      DataKey.mem_rowsAt_iff.1 hrow⟩

theorem sees_of_lrange (h : Lists.lrange db key 0 (-1) now = .ok r) {x : Bytes}
    (hx : x ∈ r) : Sees db key now (.element x) := by
  unfold Lists.lrange at h
  rcases hm : db.listMeta key now with e | (_ | m) <;> rw [hm] at h
  · cases h
  · cases h
    cases hx
  · obtain rfl := Except.ok.inj h
    exact ⟨_, Redis.listMeta_eq_ok_some_iff.1 hm, rfl,
      Lists.exists_get_of_mem_elementsBetween hx⟩

/-- **Nothing comes back.** In a run in which no operation moves its key to a version that old rows
of the key still carry, every collection read returns only what was written since the key was last
deleted, expired or overwritten. -/
theorem reads_return_written_since_end (steps : List (ℕ × Command S))
    (h : Run.Allowed (Run.tick Tracked.step) Tracked.Guard (0, Tracked.init) steps) (key : Bytes)
    (now : ℕ) (hnow : (Run.final (Run.tick Tracked.step) (0, Tracked.init) steps).1 ≤ now) :
    ReadsOnlyWritten (Run.final (Run.tick Tracked.step) (0, (Tracked.init : Tracked S)) steps).2
      key now := by
  have hinv := Run.invariant inv_step inv_init h
  generalize Run.final (Run.tick Tracked.step) (0, (Tracked.init : Tracked S)) steps = s at *
  have hwritten : ∀ {item}, Sees s.2.db key now item → item ∈ s.2.written key :=
    fun hs ↦ hinv key _ (hs.of_le hnow)
  refine ⟨fun r hr p hp ↦ ?_, fun r hr y hy ↦ ?_, fun withScores r hr ↦ ?_, fun r hr x hx ↦ ?_⟩
  · obtain ⟨f, v, hs, hp⟩ := sees_of_hgetall hr hp
    exact ⟨f, v, hwritten hs, hp⟩
  · obtain ⟨x, hs, hy⟩ := sees_of_smembers hr hy
    exact ⟨x, hwritten hs, hy⟩
  · obtain ⟨rows, hrows, hs⟩ := sees_of_zrange hr
    exact ⟨rows, hrows, fun sm hsm ↦ hwritten (hs sm hsm)⟩
  · exact hwritten (sees_of_lrange hr hx)

end Main

/-- A hash is created, deleted and created again, one microsecond later each time. -/
def recreateLater : List (ℕ × Command ℤ) :=
  [(1, .hset [0x6B] [0x66] [0x31]), (2, .delKey [0x6B]), (3, .hset [0x6B] [0x67] [0x32])]

theorem reads_return_written_since_end_recreateLater :
    Run.Allowed (Run.tick Tracked.step) Tracked.Guard (0, Tracked.init) recreateLater ∧
      ReadsOnlyWritten (Run.final (Run.tick Tracked.step) (0, Tracked.init) recreateLater).2
        [0x6B] 3 :=
  ⟨by decide, reads_return_written_since_end recreateLater (by decide) [0x6B] 3 (by decide)⟩

/-- The same within one microsecond. -/
def recreateAtOnce : List (ℕ × Command ℤ) :=
  [(1, .hset [0x6B] [0x66] [0x31]), (1, .delKey [0x6B]), (1, .hset [0x6B] [0x67] [0x32])]

/-- **A deleted field comes back.** The second creation takes the clock's reading, 1, as its
version although deletion had moved the key on to version 2; the row of the deleted field is stored
under version 1. -/
theorem hgetall_returns_deleted_field :
    Run.Allowed (Run.tick Tracked.step) Tracked.ClockOk (0, Tracked.init) recreateAtOnce ∧
      ¬ReadsOnlyWritten (Run.final (Run.tick Tracked.step) (0, Tracked.init) recreateAtOnce).2
        [0x6B] 1 := by
  refine ⟨by decide, fun h ↦ ?_⟩
  have hread : Hashes.hgetall
      (Run.final (Run.tick Tracked.step) (0, Tracked.init) recreateAtOnce).2.db [0x6B] 1 =
        .ok [([0x66], [0x31]), ([0x67], [0x32])] := by decide
  have hwritten : (Run.final (Run.tick Tracked.step) (0, Tracked.init) recreateAtOnce).2.written
      [0x6B] = [.field [0x67] [0x32]] := by decide
  obtain ⟨f, v, hmem, heq⟩ := h.1 _ hread ([0x66], [0x31]) List.mem_cons_self
  rw [hwritten, List.mem_singleton] at hmem
  obtain ⟨rfl, rfl⟩ := Item.field.inj hmem
  exact absurd heq (by decide)

/-! ### A clock that advances -/

section StrictClock

variable [Score S]

open Compaction

variable {db : Redis S} {t now : ℕ} {c : Command S}

section

variable (h : VersionsLe t db) (hnow : t < now)

include h hnow

theorem version_eq_now {ty : DataType} {v : ℕ}
    (hv : c.newVersion now db = some (ty, v)) : v = now := by
  have hzero : updateVersion 0 now = now := updateVersion_of_lt (by omega)
  have hlive : ∀ {m : ListsMetaValue}, db.liveMeta c.key now = some (.list m) →
      updateVersion m.version now = now := fun hm ↦
    updateVersion_of_lt ((h.metaRows (Redis.liveMeta_eq_some_iff.1 hm).1).trans_lt hnow)
  unfold Command.newVersion at hv
  split at hv <;> cases hv
  all_goals first | exact hzero | exact hlive ‹_›

theorem noRows_of_versionsLe (key : Bytes) (ty : DataType) : NoRows db key now ty := by
  have hrow : ∀ (r : Row S) (x : r.Value), r.version = now → db.lookup r = some x → False := by
    intro r x hr hx
    have := h.dataRows hx
    omega
  have hnil : ∀ {D V : Type} {rows : List (D × V)}, (∀ p ∈ rows, False) → rows = [] :=
    List.eq_nil_iff_forall_not_mem.2
  cases ty with
  | hash =>
    exact hnil fun p hp ↦ hrow (.hash ⟨key, now, p.1⟩) p.2 rfl (DataKey.mem_rowsAt_iff.1 hp)
  | set => exact hnil fun p hp ↦ hrow (.set ⟨key, now, p.1⟩) p.2 rfl (DataKey.mem_rowsAt_iff.1 hp)
  | zset =>
    exact hnil fun p hp ↦ hrow (.score ⟨key, now, p.1⟩) p.2 rfl (DataKey.mem_rowsAt_iff.1 hp)
  | list =>
    exact hnil fun p hp ↦ hrow (.list ⟨key, now, p.1⟩) p.2 rfl (DataKey.mem_rowsAt_iff.1 hp)
  | string | none | all | vectorSet => trivial

theorem versionsLe_exec (c : Command S) : VersionsLe now (c.exec now db).2 := by
  have hpre := h.pre hnow
  cases c with
  | hset k f v => exact (agree_hash hpre (.hset k f v)).2.left
  | sadd k xs => exact (hpre.agree_of_writes (Edits.commits_set hpre.sameView (.sadd k xs))).2.left
  | zadd k sms => exact (agree_zset hpre (.zadd k sms)).2.left
  | lpush k vs => exact (agree_list hpre (.lpush k vs)).2.left
  | rpush k vs => exact (agree_list hpre (.rpush k vs)).2.left
  | delKey k => exact (agree_string hpre (.delKey k)).2.left
  | setKeyEtime k e => exact (agree_string hpre (.setKeyEtime k e)).2.left
  | set k v => exact (agree_string hpre (.set k v)).2.left

end

/-- **A clock that advances is enough.** In a run in which every operation has a later reading of
the clock than the one before, no operation moves its key to a version in use. -/
theorem takesFreshVersion_of_strict_clock {steps : List (ℕ × Command S)}
    (h : Run.Allowed (Run.tick Tracked.step) (fun s a ↦ s.1 < a.1) (0, Tracked.init) steps) :
    Run.Allowed (Run.tick Tracked.step) Tracked.Guard (0, (Tracked.init : Tracked S)) steps := by
  refine Run.Allowed.strengthen (I := fun s ↦ VersionsLe s.1 s.2.db)
    (fun s a hs ha ↦ versionsLe_exec hs ha a.2) (fun s a hs ha ↦ ⟨ha.le, ?_⟩) ?_ h
  · exact ⟨fun hm ↦ by simp [Tracked.init, Redis.empty] at hm,
      fun {r _} hr ↦ by cases r <;> simp [Tracked.init, Redis.empty] at hr⟩
  · unfold Command.TakesFreshVersion
    split
    · trivial
    · next ty v hv => exact version_eq_now hs ha hv ▸ noRows_of_versionsLe hs ha a.2.key ty

theorem takesFreshVersion_recreateLater : Run.Allowed (Run.tick Tracked.step) Tracked.Guard
    (0, Tracked.init) recreateLater :=
  takesFreshVersion_of_strict_clock (by decide)

end StrictClock

end Kiwi.Resurrection
