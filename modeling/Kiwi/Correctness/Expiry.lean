import Kiwi.Correctness.FailsClean
import Kiwi.Correctness.ZsetStore

/-!
# What operations do to expiry times

An operation on a key either keeps its expiry time, or leaves the key without one, or is there to
set it. `Operation.rule` says which keys an operation names and which of the three it does to them.
A key that was absent, expired or emptied counts as a key without an expiry time, so an operation
that keeps expiry times creates keys without one. What is not named is not touched.

The operations read the meta values through the live ones and write them back with the expiry time
they found, so most of this is read off the batches that they commit (`keeps_of_edits`).

Two operations break their rule (`Exceptional`). `rpoplpush` from a list to itself is a pop followed
by a push; if the list has one element, the pop removes the key and the push creates it again
without its expiry time. A store that ends early, because a source of an intersection is missing,
leaves its destination as it is, with the expiry time it has.
-/

namespace Kiwi.Expiry

open Program Edits

variable {S α : Type} {now : ℕ}

section Rules

variable [LinearOrder S] {db db' : Redis S} {names : List Bytes} {w : Batch S}

/-- Expiry times are kept, and keys that are not named are as they were. -/
structure Keeps (names : List Bytes) (now : ℕ) (db db' : Redis S) : Prop where
  /-- What exists afterwards has the expiry time it had before, or none if it did not exist. -/
  live : ∀ key m, db'.liveMeta key now = some m → m.etime = expiry db key now
  others : ∀ key, key ∉ names → db'.metaCF.get key = db.metaCF.get key

/-- The targets have no expiry time, and other keys are as they were. -/
structure Resets (targets : List Bytes) (now : ℕ) (db db' : Redis S) : Prop where
  /-- What exists afterwards has no expiry time. -/
  live : ∀ key ∈ targets, ∀ m, db'.liveMeta key now = some m → m.etime = 0
  others : ∀ key, key ∉ targets → db'.metaCF.get key = db.metaCF.get key

theorem Keeps.refl (names : List Bytes) (now : ℕ) (db : Redis S) : Keeps names now db db :=
  ⟨fun _ _ hm ↦ (expiry_of_liveMeta hm).symm, fun _ _ ↦ rfl⟩

variable {names' : List Bytes}

theorem Keeps.mono (h : Keeps names now db db') (hsub : names ⊆ names') :
    Keeps names' now db db' := ⟨h.live, fun key hkey ↦ h.others key fun hin ↦ hkey (hsub hin)⟩

theorem Keeps.trans {db'' : Redis S} (h : Keeps names now db db') (h' : Keeps names' now db' db'')
    (hgone : ∀ key ∈ names', db'.liveMeta key now = none → expiry db key now = 0) :
    Keeps (names ++ names') now db db'' where
  live key m hm := by
    rw [h'.live key m hm]
    rcases hmid : db'.liveMeta key now with _ | m'
    · rw [expiry_of_liveMeta_none hmid]
      by_cases hkey : key ∈ names'
      · exact (hgone key hkey hmid).symm
      · rw [Redis.liveMeta, h'.others key hkey] at hm
        rw [Redis.liveMeta, hm] at hmid
        cases hmid
    · rw [expiry_of_liveMeta hmid]
      exact h.live key m' hmid
  others key hkey := by
    rw [List.mem_append, not_or] at hkey
    rw [h'.others key hkey.2, h.others key hkey.1]

theorem others_of_meets {M : Bytes → MetaValue → Prop} {R : Bytes → ℕ → Prop}
    (h : Meets names M R w) {key : Bytes} (hkey : key ∉ names) :
    (db.write w).metaCF.get key = db.metaCF.get key := by
  refine (Redis.agreeAt_write fun e he heq ↦ hkey ?_).metaCF
  rw [← heq]
  exact (h e he).1

/-- **Edits keep expiry times**, if what they create has the expiry time of its key. -/
theorem keeps_of_edits (h : EditBatch (Kept now db) names now db w) :
    Keeps names now db (db.write w) where
  live key m hm := by
    obtain ⟨hget, hstale⟩ := Redis.liveMeta_eq_some_iff.1 hm
    rcases SortedMap.get_apply_eq_some hget with hput | hold
    · cases (h _ (Entry.mem_metaWrites.1 hput)).2 with
      | string _ etime | fresh _ etime => exact etime
      | emptied _ stale =>
        rw [hstale] at stale
        cases stale
      | inPlace live _ _ etime =>
        rw [expiry_of_liveMeta live]
        exact etime
    · exact (expiry_of_liveMeta (Redis.liveMeta_eq_some_iff.2 ⟨hold, hstale⟩)).symm
  others _ := others_of_meets h

theorem keeps_of_commits {p : Op S α} (h : CommitsEdits (Kept now db) names now db db p) :
    Keeps names now db (p.exec db).2 := h.leaves (.refl ..) fun _ _ hw ↦ keeps_of_edits hw

theorem others_of_commits {p : Op S α} {E : Bytes → MetaValue → Prop}
    (h : CommitsEdits E names now db db p) :
    ∀ key, key ∉ names → (p.exec db).2.metaCF.get key = db.metaCF.get key :=
  h.leaves (I := fun db' ↦ ∀ key, key ∉ names → db'.metaCF.get key = db.metaCF.get key)
    (fun _ _ ↦ rfl) fun _ _ hw _ hkey ↦ others_of_meets hw hkey

theorem resets_write {targets : List Bytes}
    (hw : Meets targets (fun _ m ↦ m.etime = 0) (fun _ _ ↦ True) w)
    (hdecided : ∀ key ∈ targets, (∃ o, .metaCF key o ∈ w) ∨ db.metaCF.get key = none) :
    Resets targets now db (db.write w) where
  live key hkey m hm := by
    have hget := (Redis.liveMeta_eq_some_iff.1 hm).1
    have hput : (key, some m) ∈ w.filterMap Entry.metaWrite? := by
      rcases hdecided key hkey with hin | hnone
      · obtain ⟨o, ho⟩ := hin
        have hsame := SortedMap.get_apply_eq_of_mem db.metaCF .empty
          (List.mem_map_of_mem (Entry.mem_metaWrites.2 ho))
        rcases SortedMap.get_apply_eq_some (hsame.symm.trans hget) with hput | hempty
        · exact hput
        · cases hempty
      · refine (SortedMap.get_apply_eq_some hget).resolve_right fun hold ↦ ?_
        rw [hnone] at hold
        cases hold
    exact (hw _ (Entry.mem_metaWrites.1 hput)).2
  others _ := others_of_meets hw

end Rules

/-! ### Strings -/

section Strings

variable [LinearOrder S] {db : Redis S}

open Strings

variable (key value : Bytes)

theorem resets_putString : Resets [key] now db (db.write [putString key value now 0]) := by
  refine resets_write (meets_meta rfl) fun k hk ↦ Or.inl ?_
  rw [List.mem_singleton.1 hk]
  exact ⟨_, List.mem_singleton_self _⟩

theorem resets_mset (kvs : List (Bytes × Bytes)) :
    Resets (kvs.map Prod.fst) now db ((mset kvs now).exec db).2 := by
  refine resets_write (meets_putStrings fun _ _ ↦ rfl) fun key hkey ↦ ?_
  obtain ⟨kv, hkv, rfl⟩ := List.mem_map.1 hkey
  exact Or.inl ⟨_, List.mem_map_of_mem hkv⟩

theorem resets_getset {x : Option Bytes} (hx : ((getset key value now).exec db).1 = .ok x) :
    Resets [key] now db ((getset key value now).exec db).2 := by
  rw [getset, exec_get_bind] at hx ⊢
  rcases hv : db.stringValue key now with e | old <;> rw [hv] at hx
  · cases hx
  · exact resets_putString key value

theorem resets_bitop (operation destKey : Bytes) (srcKeys : List Bytes) {x : ℤ}
    (hx : ((bitop operation destKey srcKeys now).exec db).1 = .ok x) :
    Resets [destKey] now db ((bitop operation destKey srcKeys now).exec db).2 := by
  rw [bitop] at hx ⊢
  rcases hop : parseBitOp operation with _ | op <;> rw [hop] at hx
  · cases hx
  dsimp only at hx ⊢
  rw [exec_ite, exec_ite] at hx ⊢
  split_ifs at hx ⊢
  · cases hx
  · cases hx
  · rw [exec_get_bind] at hx ⊢
    rcases hv : sourceValues db now srcKeys with e | values <;> rw [hv] at hx
    · cases hx
    · exact resets_putString destKey _

end Strings

/-! ### Lists -/

section Lists

variable [LinearOrder S] {db : Redis S} {key : Bytes}

open Kiwi.Lists

theorem etime_pushed (values : List Bytes) (position : Bool) (m : ListsMetaValue) :
    (pushed db key values position m now).2.etime = m.etime := by
  cases position with
  | false => rfl
  | true =>
    rw [pushed, if_pos rfl, pushLeft]
    dsimp only
    split_ifs <;> rfl

/-- The only element of a list with an expiry time is popped and pushed to the same list. -/
def LosesExpiry (db : Redis S) (source destination : Bytes) (now : ℕ) : Prop :=
  source = destination ∧ ∃ m, db.listMeta source now = .ok (some m) ∧ m.count = 1 ∧ m.etime ≠ 0 ∧
    (db.listsDataCF.get ⟨source, m.version, subU64 m.rightIndex 0⟩).isSome

variable {m : ListsMetaValue}

theorem losesExpiry_iff {source destination : Bytes} (hm : db.listMeta source now = .ok (some m)) :
    LosesExpiry db source destination now ↔ source = destination ∧ m.count = 1 ∧ m.etime ≠ 0 ∧
      (db.listsDataCF.get ⟨source, m.version, subU64 m.rightIndex 0⟩).isSome := by
  constructor
  · rintro ⟨hsame, v, hv, hrest⟩
    obtain rfl := Option.some.inj (Except.ok.inj (hm.symm.trans hv))
    exact ⟨hsame, hrest⟩
  · rintro ⟨hsame, hrest⟩
    exact ⟨hsame, m, hm, hrest⟩

theorem liveMeta_popBatch (hm : db.listMeta key now = .ok (some m))
    {m' : ListsMetaValue} (hetime : m'.etime = m.etime) (popped : List (DataKey ℕ × Bytes)) :
    (db.write (popBatch key popped m')).liveMeta key now =
      if m'.count = 0 then none else some (.list m') := by
  have hget : (db.write (popBatch key popped m')).metaCF.get key =
      if m'.count = 0 then none else some (.list m') := Redis.get_metaCF_write_append ..
  have hstale := (Redis.liveMeta_eq_some_iff.1 (Redis.listMeta_eq_ok_some_iff.1 hm)).2
  rw [MetaValue.isStale, Bool.or_eq_false_iff, ← hetime] at hstale
  split_ifs at hget ⊢ with hcount
  · refine Redis.liveMeta_eq_none_iff.2 fun v hv ↦ ?_
    rw [hget] at hv
    cases hv
  · exact Redis.liveMeta_eq_some_iff.2 ⟨hget, by
      rw [MetaValue.isStale, Bool.or_eq_false_iff]
      exact ⟨beq_false_of_ne hcount, hstale.2⟩⟩

/-- A push of one element to a list that is not there creates it without an expiry time. -/
theorem exists_liveMeta_of_push (hm : db.listMeta key now = .ok none) (value : Bytes) :
    ∃ m, ((pushCore key [value] true true now).exec db).2.liveMeta key now = some m ∧
      m.etime = 0 := by
  rw [exec_pushCore, hm]
  refine ⟨.list (pushed db key [value] true (newListMeta now) now).2, ?_, etime_pushed ..⟩
  refine Redis.liveMeta_eq_some_iff.2 ⟨Redis.get_metaCF_write_append .., ?_⟩
  rw [MetaValue.isStale, etime_pushed]
  rfl

/-- **`rpoplpush`** keeps expiry times, except for the only element of its own list. -/
theorem keeps_rpoplpush_iff (source destination : Bytes) :
    Keeps [source, destination] now db ((rpoplpush source destination now).exec db).2 ↔
      ¬LosesExpiry db source destination now := by
  have hpop : Keeps [source] now db ((rpopInternal source none now).exec db).2 :=
    keeps_of_commits (commits_rpopInternal (.refl now db) source none)
  have hpopped : Keeps [source, destination] now db ((rpopInternal source none now).exec db).2 :=
    hpop.mono (by simp)
  rw [exec_rpoplpush_snd]
  rw [exec_rpopInternal] at hpop hpopped ⊢
  have hloses : LosesExpiry db source destination now → ∃ m, db.listMeta source now = .ok (some m) :=
    fun h ↦ h.2.imp fun _ ↦ And.left
  rcases hm : db.listMeta source now with e | (_ | m) <;> rw [hm] at hpop hpopped hloses
  · exact iff_of_true hpopped fun h ↦ by simpa using hloses h
  · exact iff_of_true hpopped fun h ↦ by simpa using hloses h
  dsimp only [Option.getD_none] at hpop hpopped ⊢
  rw [FailsClean.tailRows_one hm] at hpop hpopped ⊢
  rw [losesExpiry_iff hm]
  rcases hget : db.listsDataCF.get ⟨source, m.version, subU64 m.rightIndex 0⟩ with _ | x <;>
    rw [hget] at hpop hpopped
  · refine iff_of_true hpopped ?_
    rintro ⟨-, -, -, hsome⟩
    cases hsome
  simp only [Option.map_some, Option.toList_some, List.map_singleton] at hpop hpopped ⊢
  generalize hm' : (m.setRightIndex (subU64 m.rightIndex (min 1 m.count))).setCount
    (m.count - min 1 m.count) = m' at hpop ⊢
  have hetime : m'.etime = m.etime := by rw [← hm']; rfl
  have hcount : m'.count = m.count - min 1 m.count := by rw [← hm']; rfl
  have hlive := liveMeta_popBatch hm hetime
    [((⟨source, m.version, subU64 m.rightIndex 0⟩ : DataKey ℕ), x)]
  generalize hdb' : db.write (popBatch source
    [((⟨source, m.version, subU64 m.rightIndex 0⟩ : DataKey ℕ), x)] m') = db' at hpop hlive ⊢
  have hpush : Keeps [destination] now db' ((pushCore destination [x] true true now).exec db').2 :=
    (commits_pushCore (.refl now db') destination [x] true true).leaves (.refl ..)
      fun _ _ hw ↦ keeps_of_edits hw.2
  by_cases hsame : source = destination
  · obtain rfl := hsame
    by_cases hone : m.count = 1
    · -- the key is removed and created again
      have hnone : db'.liveMeta source now = none := by
        rw [hlive, if_pos (by rw [hcount, hone]; rfl)]
      by_cases hzero : m.etime = 0
      · refine iff_of_true (hpop.trans hpush fun key hkey _ ↦ ?_) fun h ↦ h.2.2.1 hzero
        rw [List.mem_singleton.1 hkey, expiry_of_listMeta hm, hzero]
      · refine iff_of_false (fun h ↦ ?_) fun h ↦ h ⟨rfl, hone, hzero, rfl⟩
        obtain ⟨v, hv, hv0⟩ := exists_liveMeta_of_push (Redis.listMeta_eq_ok_none_iff.2 hnone) x
        have hkept := h.live source v hv
        rw [hv0, expiry_of_listMeta hm] at hkept
        exact hzero hkept.symm
    · have hsome : db'.liveMeta source now = some (.list m') := by
        have hpos := count_ne_zero_of_listMeta hm
        rw [hlive, if_neg (by omega)]
      refine iff_of_true (hpop.trans hpush fun key hkey hgone ↦ ?_) fun h ↦ hone h.2.1
      rw [List.mem_singleton.1 hkey, hsome] at hgone
      cases hgone
  · refine iff_of_true (hpop.trans hpush fun key hkey hgone ↦ ?_) fun h ↦ hsame h.1
    obtain rfl := List.mem_singleton.1 hkey
    rw [Redis.liveMeta, hpop.others key fun hin ↦ hsame (List.mem_singleton.1 hin).symm] at hgone
    exact expiry_of_liveMeta_none hgone

end Lists

/-! ### Hashes -/

open Hashes in
theorem keeps_hscan [LinearOrder S] {db : Redis S} (key : Bytes) (cursor : ℕ)
    (pattern : Option Bytes) (count : Option ℕ) :
    Keeps [] now db ((hscan key cursor pattern count now).exec db).2 := by
  have hpage : ∀ (size next : ℕ) (rows : List (Bytes × Bytes)),
      Keeps [] now db ((scanPage key pattern size next rows).exec db).2 := by
    intro size next rows
    rw [scanPage]
    dsimp only
    rcases (scanLoop (literalPrefix pattern) size rows).2.head?.filter _ with _ | ⟨field, _⟩
    · exact .refl ..
    · exact ⟨(Keeps.refl [] now db).live, fun _ _ ↦ rfl⟩
  rw [hscan, exec_get_bind]
  rcases db.baseMeta .hash key now with e | (_ | m)
  · exact .refl ..
  · exact .refl ..
  · rw [exec_lift_ok_bind]
    exact hpage _ _ _

/-! ### Sets -/

section Sets

variable [LinearOrder S] {db : Redis S}

open Sets

theorem resets_clearAndStoreSet (destination : Bytes) (members : List Bytes) :
    Resets [destination] now db ((clearAndStoreSet destination members now).exec db).2 := by
  have hdecided : ∀ {o : Option MetaValue} {b : Batch S}, ∀ key ∈ [destination],
      (∃ o', .metaCF key o' ∈ clearMembers db destination now ++ .metaCF destination o :: b) ∨
        db.metaCF.get key = none := fun {o b} key hkey ↦ by
    rw [List.mem_singleton.1 hkey]
    exact Or.inl ⟨o, List.mem_append_right _ List.mem_cons_self⟩
  have hclear := meets_clearMembers (M := fun _ m ↦ m.etime = 0) (R := fun _ _ ↦ True) db
    destination now
  rw [clearAndStoreSet, exec_get_bind, exec_ite]
  split_ifs
  · exact resets_write (hclear.append (meets_deleteMeta destination)) hdecided
  · exact resets_write (hclear.append (meets_put rfl
      (meets_putMembers (List.mem_singleton_self _) trivial _))) hdecided

theorem resets_store {keys : List Bytes} {e : Error} (f : Redis S → Except Error (List Bytes))
    (destination : Bytes) {p : Op S ℤ} (hp : p = if keys.isEmpty then throw e
        else do
          let db ← get
          let members ← f db
          clearAndStoreSet destination members now) {x : ℤ} (hx : (p.exec db).1 = .ok x) :
    Resets [destination] now db (p.exec db).2 := by
  rw [hp, exec_ite] at hx ⊢
  split_ifs at hx ⊢
  · cases hx
  rw [exec_get_bind] at hx ⊢
  rcases hf : f db with e' | members <;> rw [hf] at hx
  · cases hx
  · exact resets_clearAndStoreSet destination members

end Sets

/-! ### Zsets -/

section Zsets

variable [Score S] {db : Redis S} {key : Bytes}

open Zsets

/-- The store has no sources, or is an intersection that comes to a missing one, and its destination
has an expiry time. -/
def EndsEarly (db : Redis S) (destination : Bytes) (keys : List Bytes) (weights : List S)
    (isInter : Bool) (now : ℕ) : Prop :=
  (keys = [] ∨ ZsetIndex.WeightsFit keys weights ∧ isInter = true ∧
    ZsetIndex.FirstMissing db now keys) ∧ expiry db destination now ≠ 0

/-- **A zset store** that succeeds leaves its destination without an expiry time, unless it ends
early. -/
theorem resets_zsetStore_iff (destination : Bytes) (keys : List Bytes) (weights : List S)
    (aggregate : Bytes) (isInter : Bool) :
    (∀ x, ((zsetStoreOperation destination keys weights aggregate isInter now).exec db).1 = .ok x →
      Resets [destination] now db
        ((zsetStoreOperation destination keys weights aggregate isInter now).exec db).2) ↔
      ¬EndsEarly db destination keys weights isInter now := by
  rw [exec_zsetStoreOperation, EndsEarly, ← @ZsetIndex.resultOf_eq_none_iff _ _ db now aggregate]
  rcases resultOf db keys weights aggregate isInter now with e | (_ | result)
  · exact iff_of_true (fun x hx ↦ by cases hx) fun h ↦ by cases h.1
  · dsimp only
    rcases hlive : db.liveMeta destination now with _ | m
    · refine iff_of_true (fun x _ ↦ ⟨fun key hkey m hm ↦ ?_, fun _ _ ↦ rfl⟩) fun h ↦
        h.2 (expiry_of_liveMeta_none hlive)
      rw [List.mem_singleton.1 hkey, hlive] at hm
      cases hm
    · rw [expiry_of_liveMeta hlive]
      refine ⟨fun h hends ↦ hends.2 ((h 0 rfl).live _ (List.mem_singleton_self _) m hlive),
        fun h x _ ↦ ⟨fun key hkey m' hm' ↦ ?_, fun _ _ ↦ rfl⟩⟩
      rw [List.mem_singleton.1 hkey, hlive] at hm'
      obtain rfl := Option.some.inj hm'
      by_contra hne
      exact h ⟨rfl, hne⟩
  · refine iff_of_true (fun x _ ↦ ?_) fun h ↦ by cases h.1
    dsimp only
    split_ifs
    · refine resets_write meets_clearDestination fun key hkey ↦ ?_
      rw [List.mem_singleton.1 hkey, clearDestination]
      rcases db.metaCF.get destination with _ | value
      · exact Or.inr rfl
      · exact Or.inl ⟨none, List.mem_append_right _ (List.mem_singleton_self _)⟩
    · refine resets_write (meets_clearDestination.append
        (meets_createZset (fun _ ↦ rfl) trivial result)) fun key hkey ↦ Or.inl ?_
      rw [List.mem_singleton.1 hkey]
      exact ⟨_, List.mem_append_right _ List.mem_cons_self⟩

end Zsets

/-! ### Every operation -/

/-- The rule holds of an execution. What overwrites keys may fail, and then changes nothing. -/
def Rule.Holds [LinearOrder S] : Rule → ℕ → Redis S → Except Error α × Redis S → Prop
  | keeps names, now, db, r => Keeps names now db r.2
  | resets targets, now, db, r =>
    (∀ x, r.1 = .ok x → Resets targets now db r.2) ∧ ∀ e, r.1 = .error e → r.2 = db
  | sets names, _, db, r => ∀ key, key ∉ names → r.2.metaCF.get key = db.metaCF.get key

section Operations

variable [Score S] {db : Redis S}

/-- The list operation pops the only element of a list and pushes it to the same list. -/
def ListLoses (db : Redis S) (now : ℕ) : Lists.Operation α → Prop
  | .rpoplpush source destination => LosesExpiry db source destination now
  | _ => False

/-- The zset operation is a store that ends early. -/
def ZsetEndsEarly (db : Redis S) (now : ℕ) : Zsets.Operation S α → Prop
  | .zinterstore destination keys weights _ =>
    EndsEarly db destination keys weights true now
  | .zunionstore destination keys weights _ =>
    EndsEarly db destination keys weights false now
  | _ => False

/-- The operation does not follow its rule. -/
def Exceptional (db : Redis S) (now : ℕ) : Operation S α → Prop
  | .list o => ListLoses db now o
  | .zset o => ZsetEndsEarly db now o
  | _ => False

theorem holds_of_keeps {o : Operation S α} {names : List Bytes} (hplain : isPlain o = true)
    (hrule : rule o = .keeps names) : (rule o).Holds now db ((o.run now).exec db) := by
  have hcommits := commits_operation (.refl now db) o hplain
  rw [hrule] at hcommits ⊢
  exact keeps_of_commits hcommits

theorem holds_string (o : Strings.Operation S α) :
    (stringRule o).Holds now db ((o.run now).exec db) := by
  have hkeeps {names : List Bytes} : isPlain (.string o : Operation S α) = true →
      stringRule o = .keeps names → (stringRule o).Holds now db ((o.run now).exec db) :=
    holds_of_keeps (o := .string o)
  have hclean : FailsCleanAt db (o.run now) := FailsClean.failsCleanAt_string o
  cases o with
  | setKeyEtime key etime =>
    refine (commits_setKeyEtime (.refl now db) key etime).leaves
      (I := fun db' ↦ ∀ k, k ∉ [key] → db'.metaCF.get k = db.metaCF.get k) (fun _ _ ↦ rfl) ?_
    rintro _ w ⟨m, -, rfl⟩ k hk
    have hnames : Names key [(.metaCF key (some (m.setEtime etime)) : Entry S)] :=
      meets_meta trivial
    exact others_of_meets hnames hk
  | setex key seconds value => exact others_of_commits (commits_setex key seconds value)
  | psetex key milliseconds value =>
    exact others_of_commits (commits_psetex key milliseconds value)
  | set key value => exact ⟨fun _ _ ↦ resets_putString key value, hclean⟩
  | getset key value => exact ⟨fun _ hx ↦ resets_getset key value hx, hclean⟩
  | bitop operation destKey srcKeys =>
    exact ⟨fun _ hx ↦ resets_bitop operation destKey srcKeys hx, hclean⟩
  | mset kvs => exact ⟨fun _ _ ↦ resets_mset kvs, hclean⟩
  | _ => exact hkeeps rfl rfl

theorem holds_list_iff (o : Lists.Operation α) :
    (listRule o).Holds now db ((o.run now).exec db) ↔ ¬ListLoses db now o := by
  have hkeeps {names : List Bytes} : isPlain (.list o : Operation S α) = true →
      listRule o = .keeps names → (listRule o).Holds now db ((o.run now).exec db) :=
    holds_of_keeps (o := .list o)
  cases o with
  | rpoplpush source destination => exact keeps_rpoplpush_iff source destination
  | _ => exact iff_of_true (hkeeps rfl rfl) id

theorem holds_hash (o : Hashes.Operation S α) :
    (hashRule o).Holds now db ((o.run now).exec db) := by
  have hkeeps {names : List Bytes} : isPlain (.hash o : Operation S α) = true →
      hashRule o = .keeps names → (hashRule o).Holds now db ((o.run now).exec db) :=
    holds_of_keeps (o := .hash o)
  cases o with
  | hscan key cursor pattern count => exact keeps_hscan key cursor pattern count
  | _ => exact hkeeps rfl rfl

theorem holds_set (o : Sets.Operation α) : (setRule o).Holds now db ((o.run now).exec db) := by
  have hkeeps {names : List Bytes} : setRule o = .keeps names →
      (setRule o).Holds now db ((o.run now).exec db) := holds_of_keeps (o := .set o) rfl
  have hclean : FailsCleanAt db (o.run now) := FailsClean.failsCleanAt_set o
  cases o with
  | sdiffstore destination | sinterstore destination | sunionstore destination =>
    exact ⟨fun _ ↦ resets_store _ destination rfl, hclean⟩
  | _ => exact hkeeps rfl

theorem holds_zset_iff (o : Zsets.Operation S α) :
    (zsetRule o).Holds now db ((o.run now).exec db) ↔ ¬ZsetEndsEarly db now o := by
  have hkeeps {names : List Bytes} : isPlain (.zset o) = true → zsetRule o = .keeps names →
      (zsetRule o).Holds now db ((o.run now).exec db) := holds_of_keeps (o := .zset o)
  have hclean : FailsCleanAt db (o.run now) := FailsClean.failsCleanAt_zset o
  cases o with
  | zinterstore | zunionstore =>
    exact ⟨fun h ↦ (resets_zsetStore_iff ..).1 h.1,
      fun h ↦ ⟨(resets_zsetStore_iff ..).2 h, hclean⟩⟩
  | _ => exact iff_of_true (hkeeps rfl rfl) id

/-- **Expiry times.** In every database, at every time and for all arguments, an operation follows
its rule: it keeps the expiry times of the keys it names and creates keys without one, or leaves its
targets without one, and touches no other key. The exceptions are an `rpoplpush` of the only element
of a list to itself, and a zset store that ends early. -/
theorem expiry_rule_iff (db : Redis S) (now : ℕ) (o : Operation S α) :
    (rule o).Holds now db ((o.run now).exec db) ↔ ¬Exceptional db now o := by
  cases o with
  | string o => exact iff_of_true (holds_string o) id
  | list o => exact holds_list_iff o
  | hash o => exact iff_of_true (holds_hash o) id
  | set o => exact iff_of_true (holds_set o) id
  | zset o => exact holds_zset_iff o

end Operations

/-- A list of one element and a zset, both with the expiry time 100. -/
def listAndZset : Redis ℤ :=
  ((do
    let _ ← Lists.rpush [1] [[97]] 1
    let _ ← Zsets.zadd [2] [⟨5, [98]⟩] 1
    let _ ← Strings.setKeyEtime [1] 100 2
    Strings.setKeyEtime [2] 100 2 : Op ℤ Bool).exec .empty).2

/-- `rpoplpush` takes the expiry time from the list, and `zinterstore` with a missing source leaves
it to its destination. -/
theorem expiry_lost_and_kept :
    Strings.keyEtime listAndZset [1] 3 = some 100 ∧
      Strings.keyEtime ((Lists.rpoplpush [1] [1] 3).exec listAndZset).2 [1] 3 = some 0 ∧
      ((Zsets.zinterstore [2] [[3]] [] [] 3).exec listAndZset).1.isOk = true ∧
      Strings.keyEtime ((Zsets.zinterstore [2] [[3]] [] [] 3).exec listAndZset).2 [2] 3 =
        some 100 := by
  decide +kernel

end Kiwi.Expiry
