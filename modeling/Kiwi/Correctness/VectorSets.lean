import Kiwi.Storage.Vectors

/-!
# Vector sets are finite maps

The specification of a key (`SpecKey`) is a finite map from elements to vectors, a string, or
nothing, with an expiry time; it knows no generations and keeps nothing of what was deleted,
expired, overwritten or emptied. `view` reads it off an instance. Every event does to the view what
it does to the specification, with the same answer, except that a `VADD` that would create a set may
get no generation (`SpecStep.denied`): the manifest cannot be written, or `u64::MAX` is reached, for
which it takes as many earlier calls.

The invariant (`Inv`) is about the manifest: generations that were handed out, and those of all rows
that were ever written, are below the next one in memory, which is not above the one on disk. So the
rows under a new generation are none, whatever was left behind.
-/

namespace Kiwi.Vectors

variable {V : Type}

/-! ### Specification -/

/-- What a key is. -/
inductive SpecKey (V : Type)
  | absent
  | string (etime : ℕ)
  | vectors (map : SortedMap Bytes V) (dimension : ℕ) (quantization : QuantizationType) (etime : ℕ)

namespace SpecKey

/-- What the key is at a time: nothing, once it has expired. -/
def live (now : ℕ) : SpecKey V → SpecKey V
  | absent => absent
  | string etime => if isExpired etime now then absent else string etime
  | vectors map d q etime => if isExpired etime now then absent else vectors map d q etime

/-- `VREM`. -/
def vrem (now : ℕ) (element : Bytes) (k : SpecKey V) : Reply Bool × SpecKey V :=
  match k.live now with
  | absent => (.ok false, k)
  | string _ => (.error wrongTypeError, k)
  | vectors map d q etime =>
    if (map.get element).isNone then (.ok false, k)
    else (.ok true, if map.size > 1 then vectors (map.erase element) d q etime else absent)

/-- `DEL`. -/
def delKey (now : ℕ) (k : SpecKey V) : Reply Bool × SpecKey V :=
  match k.live now with
  | absent => (.ok false, k)
  | _ => (.ok true, absent)

/-- `EXPIRE`. -/
def expire (now newEtime : ℕ) (k : SpecKey V) : Reply Bool × SpecKey V :=
  match k.live now with
  | absent => (.ok false, k)
  | string _ => (.ok true, string newEtime)
  | vectors map d q _ => (.ok true, vectors map d q newEtime)

variable [VectorOps V]

/-- `VADD`. -/
def vadd (config : VectorConfig) (now : ℕ) (key element : Bytes) (vector : V) (k : SpecKey V) :
    Reply Bool × SpecKey V :=
  match checkVadd config element vector with
  | .error e => (.error e, k)
  | .ok _ =>
    match k.live now with
    | string _ => (.error wrongTypeError, k)
    | absent =>
      match checkKey key with
      | .error e => (.error e, k)
      | .ok _ =>
        match VectorOps.toQuantized vector (VectorOps.quantization vector) with
        | .error e => (.error e, k)
        | .ok stored => (.ok true, vectors (SortedMap.empty.insert element stored)
            (VectorOps.dimension vector) (VectorOps.quantization vector) 0)
    | vectors map d q etime =>
      if d ≠ VectorOps.dimension vector then
        let got := VectorOps.dimension vector
        (.error (.invalidArgument s!"vector dimension mismatch: expected {d}, got {got}"), k)
      else if (map.get element).isNone && map.size + 1 ≥ 2 ^ 64 then
        (.error (.invalidArgument "vector set size overflow"), k)
      else
        match VectorOps.toQuantized vector q with
        | .error e => (.error e, k)
        | .ok stored =>
          (.ok (map.get element).isNone, vectors (map.insert element stored) d q etime)

end SpecKey

/-- The key of an event. -/
def Event.key? : Event V → Option Bytes
  | .vadd key _ _ _ | .vrem key _ | .delKey key | .expire key _ | .set key _ => some key
  | .tick _ | .restart => none

/-- The number of calls of `VADD` after an event. -/
def Event.spent (n : ℕ) : Event V → ℕ
  | .vadd _ _ _ _ => n + 1
  | _ => n

/-- The clock after an event. -/
def Event.after (now : ℕ) : Event V → ℕ
  | .tick elapsed => now + elapsed
  | _ => now

variable [VectorOps V]

/-- What an event does to its key. -/
def SpecKey.step (config : VectorConfig) (now : ℕ) (k : SpecKey V) :
    Event V → Reply Bool × SpecKey V
  | .vadd key element vector _ => k.vadd config now key element vector
  | .vrem _ element => k.vrem now element
  | .delKey _ => k.delKey now
  | .expire _ etime => k.expire now etime
  | .set _ _ => (.ok true, .string 0)
  | .tick _ | .restart => (.ok true, k)

/-- Why there is no generation after `spent` calls of `VADD`, and the answer then. -/
inductive Denied {α : Type} (spent : ℕ) : Persist → Reply α → Prop
  /-- The next generation, of which the first is one and a call takes at most one, is `u64::MAX`. -/
  | exhausted (io : Persist) : 2 ^ 64 - 1 ≤ spent + 1 →
      Denied spent io (.error (.invalidFormat "generation sequence exhausted"))
  /-- The manifest could not be written. -/
  | failed (renamed : Bool) : Denied spent (.failed renamed) (.error (.system "storage manifest"))
  /-- The process ended. -/
  | crashed (renamed : Bool) : Denied spent (.crashed renamed) .crashed

/-- One event in the specification. -/
inductive SpecStep (config : VectorConfig) (now spent : ℕ) (spec : Bytes → SpecKey V) :
    Event V → Reply Bool → (Bytes → SpecKey V) → Prop
  /-- The event does its work at its key. -/
  | keyed (e : Event V) (key : Bytes) : e.key? = some key →
      SpecStep config now spent spec e ((spec key).step config now e).1
        (Function.update spec key ((spec key).step config now e).2)
  /-- Time passes, or the process starts again. -/
  | silent (e : Event V) : e.key? = none → SpecStep config now spent spec e (.ok true) spec
  /-- No generation for a new set. -/
  | denied (key element : Bytes) (vector : V) (io : Persist) (reply : Reply Bool) :
      (spec key).live now = .absent → Denied spent io reply →
      SpecStep config now spent spec (.vadd key element vector io) reply spec

/-- A run of the specification with these answers, by the clock and the calls of `VADD` before it.
-/
inductive SpecRun (config : VectorConfig) :
    ℕ → ℕ → (Bytes → SpecKey V) → List (Event V × Reply Bool) → (Bytes → SpecKey V) → Prop
  | nil (now spent : ℕ) (spec : Bytes → SpecKey V) : SpecRun config now spent spec [] spec
  | cons {now spent : ℕ} {spec spec' spec'' : Bytes → SpecKey V} {e : Event V} {reply : Reply Bool}
      {rest : List (Event V × Reply Bool)} : SpecStep config now spent spec e reply spec' →
      SpecRun config (e.after now) (e.spent spent) spec' rest spec'' →
      SpecRun config now spent spec ((e, reply) :: rest) spec''

/-! ### Invariant -/

section

omit [VectorOps V]

/-- The members under a generation. -/
def Db.members (db : Db V) (key : Bytes) (generation : ℕ) : SortedMap Bytes V :=
  db.rows.slice (DataKey.part key generation)

/-- What a key is, by its meta value and the rows under its generation. -/
def view (db : Db V) (key : Bytes) : SpecKey V :=
  match db.metaCF.get key with
  | none => .absent
  | some (.string v) => .string v.etime
  | some (.vector m) =>
    if m.count = 0 then .absent
    else .vectors (db.members key m.version) m.dimension m.quantization m.etime

end

/-- The meta value of a set that is not empty. -/
structure SetAt (db : Db V) (key : Bytes) (m : VectorMeta) : Prop where
  version : m.version < db.manifest.nextGeneration
  count : m.count = (db.members key m.version).size
  dimension : ∀ x v, (db.members key m.version).get x = some v → VectorOps.dimension v = m.dimension
  /-- The key fits into a member key. -/
  short : key.length < 2 ^ 32

/-- The invariant of an instance after `spent` calls of `VADD`. -/
structure Inv (spent : ℕ) (db : Db V) : Prop where
  le : db.manifest.nextGeneration ≤ db.file.nextGeneration
  incarnation : db.manifest.storageIncarnation = db.file.storageIncarnation
  /-- All rows are under generations that were handed out. -/
  fresh : ∀ k, (db.rows.get k).isSome → k.version < db.manifest.nextGeneration
  sets : ∀ key m, db.metaCF.get key = some (.vector m) → m.count ≠ 0 → SetAt db key m
  /-- No generation was handed out twice. -/
  nodup : db.handedOut.Nodup
  below : ∀ g ∈ db.handedOut, g < db.manifest.nextGeneration
  /-- A call takes at most one generation. -/
  spent : db.file.nextGeneration ≤ spent + 1

variable {db db' : Db V} {key : Bytes} {config : VectorConfig} {spent spent' : ℕ}

variable {value : Option StoredMeta} {m : VectorMeta} {row : DataKey Bytes × Option V}
  {key' : Bytes} {g : ℕ}

section

omit [VectorOps V]

theorem get_members (generation : ℕ) (x : Bytes) :
    (db.members key generation).get x = db.rows.get ⟨key, generation, x⟩ := by
  rw [Db.members, SortedMap.get_slice, DataKey.part_key]

theorem view_of_none (h : db.metaCF.get key = none) : view db key = .absent := by rw [view, h]

theorem view_of_string {v : StringsValue} (h : db.metaCF.get key = some (.string v)) :
    view db key = .string v.etime := by
  rw [view, h]

section

variable (h : db.metaCF.get key = some (.vector m))

include h

theorem view_of_empty (hcount : m.count = 0) : view db key = .absent := by
  rw [view, h]
  exact if_pos hcount

theorem view_of_vector (hcount : m.count ≠ 0) : view db key =
      .vectors (db.members key m.version) m.dimension m.quantization m.etime := by
  rw [view, h]
  exact if_neg hcount

end

theorem view_congr (hmeta : db'.metaCF.get key = db.metaCF.get key)
    (hrows : ∀ g, db'.members key g = db.members key g) : view db' key = view db key := by
  rw [view, view, hmeta]
  rcases db.metaCF.get key with _ | _ | m
  · rfl
  · rfl
  · dsimp only
    rw [hrows]

theorem rows_commit : (db.commit row key value).rows = db.rows.write row :=
  Function.update_self ..

theorem members_commit_of_ne (h : key' ≠ row.1.key ∨ g ≠ row.1.version) :
    (db.commit row key value).members key' g = db.members key' g := by
  refine SortedMap.slice_congr fun x ↦ ?_
  rw [rows_commit, DataKey.part_key, SortedMap.get_write, if_neg]
  rintro heq
  rw [← heq] at h
  rcases h with h | h
  · exact h rfl
  · exact h rfl

theorem members_commit_put (db : Db V) (key x : Bytes) (g : ℕ) (v : V) (value : Option StoredMeta) :
    (db.commit (⟨key, g, x⟩, some v) key value).members key g =
      (db.members key g).insert x v := by
  rw [Db.members, rows_commit]
  exact SortedMap.slice_insert_key db.rows (DataKey.part key g) x v

theorem members_commit_delete (db : Db V) (key x : Bytes) (g : ℕ) (value : Option StoredMeta) :
    (db.commit (⟨key, g, x⟩, none) key value).members key g = (db.members key g).erase x := by
  rw [Db.members, rows_commit]
  exact SortedMap.slice_erase_key db.rows (DataKey.part key g) x

end

theorem Inv.putMeta (h : Inv spent db)
    (hset : ∀ m, value = some (.vector m) → m.count ≠ 0 → SetAt db key m) :
    Inv spent { db with metaCF := db.metaCF.write (key, value) } := by
  refine ⟨h.le, h.incarnation, h.fresh, fun key' m hmeta hcount ↦ ?_, h.nodup, h.below, h.spent⟩
  have hget := SortedMap.get_write db.metaCF (key, value) key'
  dsimp only at hmeta
  rw [hget] at hmeta
  split_ifs at hmeta with hkey
  · have hat := hset m hmeta hcount
    rw [hkey]
    exact ⟨hat.version, hat.count, hat.dimension, hat.short⟩
  · have hat := h.sets key' m hmeta hcount
    exact ⟨hat.version, hat.count, hat.dimension, hat.short⟩

variable {x : Bytes}

variable {v : Option V}

theorem Inv.commit (h : Inv spent db) (hg : g < db.manifest.nextGeneration)
    (hset : ∀ m, value = some (.vector m) → m.count ≠ 0 →
      SetAt (db.commit (⟨key, g, x⟩, v) key value) key m) :
    Inv spent (db.commit (⟨key, g, x⟩, v) key value) := by
  refine ⟨h.le, h.incarnation, fun k hk ↦ ?_, fun key' m hmeta hcount ↦ ?_, h.nodup, h.below, h.spent⟩
  · rw [rows_commit, SortedMap.get_write] at hk
    split_ifs at hk with heq
    · rw [heq]
      exact hg
    · exact h.fresh k hk
  · have hget := SortedMap.get_write db.metaCF (key, value) key'
    change (db.metaCF.write (key, value)).get key' = _ at hmeta
    rw [hget] at hmeta
    split_ifs at hmeta with hkey
    · subst hkey
      exact hset m hmeta hcount
    · have hat := h.sets key' m hmeta hcount
      have hmembers : (db.commit (⟨key, g, x⟩, v) key value).members key' m.version =
          db.members key' m.version := members_commit_of_ne (.inl hkey)
      refine ⟨hat.version, ?_, ?_, hat.short⟩
      · rw [hmembers]
        exact hat.count
      · rw [hmembers]
        exact hat.dimension

theorem Inv.grow (h : Inv spent db) (hmeta : db'.metaCF = db.metaCF) (hrows : db'.rows = db.rows)
    (hnext : db.manifest.nextGeneration ≤ db'.manifest.nextGeneration)
    (hle : db'.manifest.nextGeneration ≤ db'.file.nextGeneration)
    (hincarnation : db'.manifest.storageIncarnation = db'.file.storageIncarnation)
    (hnodup : db'.handedOut.Nodup) (hbelow : ∀ g ∈ db'.handedOut, g < db'.manifest.nextGeneration)
    (hspent : db'.file.nextGeneration ≤ spent' + 1) : Inv spent' db' := by
  refine ⟨hle, hincarnation, fun k hk ↦ ?_, fun key m hget hcount ↦ ?_, hnodup, hbelow, hspent⟩
  · rw [hrows] at hk
    exact (h.fresh k hk).trans_le hnext
  · rw [hmeta] at hget
    have hat := h.sets key m hget hcount
    have hmembers : db'.members key m.version = db.members key m.version := by
      rw [Db.members, hrows, Db.members]
    refine ⟨hat.version.trans_le hnext, ?_, ?_, hat.short⟩
    · rw [hmembers]
      exact hat.count
    · rw [hmembers]
      exact hat.dimension

omit [VectorOps V] in
theorem view_eq_of_rows (hmeta : db'.metaCF = db.metaCF) (hrows : db'.rows = db.rows) :
    view db' = view db := by
  funext key
  refine view_congr (by rw [hmeta]) fun g ↦ ?_
  rw [Db.members, hrows, Db.members]

theorem Inv.restart (h : Inv spent db) : Inv spent db.restart ∧ view db.restart = view db := by
  have hrows : db.restart.rows = db.rows := by
    rw [Db.rows, Db.restart, ← h.incarnation, Db.rows]
  exact ⟨h.grow rfl hrows h.le le_rfl rfl h.nodup (fun g hg ↦ (h.below g hg).trans_le h.le) h.spent,
    view_eq_of_rows rfl hrows⟩

theorem Inv.succ (h : Inv spent db) : Inv (spent + 1) db :=
  h.grow rfl rfl le_rfl h.le h.incarnation h.nodup h.below (h.spent.trans (Nat.le_succ _))

/-- What an allocation guarantees. -/
structure Allocated (spent : ℕ) (io : Persist) (db : Db V) (result : Reply ℕ × Db V) : Prop where
  inv : Inv (spent + 1) result.2
  view : view result.2 = view db
  now : result.2.now = db.now
  /-- A new generation has no members. -/
  fresh : ∀ g, result.1 = .ok g → g < result.2.manifest.nextGeneration ∧
    ∀ key, result.2.members key g = .empty
  /-- An error has a reason. -/
  error : ∀ e, result.1 = .error e → ∀ α : Type, Denied (α := α) spent io (.error e)
  /-- Also a crash. -/
  crashed : result.1 = .crashed → ∀ α : Type, Denied (α := α) spent io .crashed

theorem Inv.renamed (h : Inv spent db) :
    Inv (spent + 1)
      { db with file := { db.manifest with nextGeneration := db.manifest.nextGeneration + 1 } } :=
  h.grow rfl rfl le_rfl (Nat.le_succ _) rfl h.nodup h.below (Nat.succ_le_succ (h.le.trans h.spent))

/-- **`allocate_generation`**, however it ends. -/
theorem allocateGeneration_allocated (h : Inv spent db) (io : Persist) :
    Allocated spent io db (allocateGeneration io db) := by
  rw [allocateGeneration]
  by_cases hfull : db.manifest.nextGeneration + 1 ≥ 2 ^ 64
  · rw [if_pos hfull]
    refine ⟨h.succ, rfl, rfl, fun g hg ↦ (by cases hg), fun e he α ↦ ?_, fun he ↦ by cases he⟩
    cases he
    have hle := h.le.trans h.spent
    exact .exhausted io (by omega)
  · rw [if_neg hfull]
    cases io with
    | done =>
      have hlt : ∀ g ∈ db.handedOut ++ [db.manifest.nextGeneration],
          g < db.manifest.nextGeneration + 1 := by
        intro g hg
        rcases List.mem_append.1 hg with hg | hg
        · exact (h.below g hg).trans (Nat.lt_succ_self _)
        · rw [List.mem_singleton.1 hg]
          exact Nat.lt_succ_self _
      have hnodup : (db.handedOut ++ [db.manifest.nextGeneration]).Nodup := by
        refine List.nodup_append.2 ⟨h.nodup, List.nodup_singleton _, fun g hg g' hg' ↦ ?_⟩
        rw [List.mem_singleton.1 hg']
        exact (h.below g hg).ne
      refine ⟨h.grow rfl rfl (Nat.le_succ _) le_rfl rfl hnodup hlt
        (Nat.succ_le_succ (h.le.trans h.spent)), rfl, rfl, fun g hg ↦ ?_,
        fun e he ↦ (by cases he), fun he ↦ by cases he⟩
      cases hg
      refine ⟨Nat.lt_succ_self _, fun key ↦ SortedMap.ext_get fun x ↦ ?_⟩
      rw [SortedMap.get_empty, get_members]
      refine Option.not_isSome_iff_eq_none.1 fun hsome ↦ ?_
      exact lt_irrefl _ (h.fresh ⟨key, db.manifest.nextGeneration, x⟩ hsome)
    | failed renamed =>
      have herror : ∀ e, (Reply.error (.system "storage manifest") : Reply ℕ) = .error e →
          ∀ α : Type, Denied (α := α) spent (.failed renamed) (.error e) := by
        rintro e ⟨⟩ α
        exact .failed renamed
      cases renamed with
      | false => exact ⟨h.succ, rfl, rfl, fun g hg ↦ (by cases hg), herror, fun he ↦ by cases he⟩
      | true =>
        exact ⟨h.renamed, rfl, rfl, fun g hg ↦ (by cases hg), herror, fun he ↦ by cases he⟩
    | crashed renamed =>
      have hcrashed : ∀ α : Type, Denied (α := α) spent (.crashed renamed) .crashed :=
        fun α ↦ .crashed renamed
      cases renamed with
      | false =>
        exact ⟨h.restart.1.succ, h.restart.2, rfl, fun g hg ↦ (by cases hg), fun e he ↦ (by cases he),
          fun _ ↦ hcrashed⟩
      | true =>
        exact ⟨h.renamed.restart.1, h.renamed.restart.2, rfl, fun g hg ↦ (by cases hg),
          fun e he ↦ (by cases he), fun _ ↦ hcrashed⟩

/-! ### What is found at a key -/

/-- The meta value that an operation finds, and what the key is for the specification. -/
inductive Found (db : Db V) (key : Bytes) :
    Except Error (Option VectorMeta) → SpecKey V → Prop
  | absent : Found db key (.ok none) .absent
  | string (etime : ℕ) : Found db key (.error wrongTypeError) (.string etime)
  | vectors (m : VectorMeta) : m.count ≠ 0 → SetAt db key m →
      view db key = .vectors (db.members key m.version) m.dimension m.quantization m.etime →
      Found db key (.ok (some m))
        (.vectors (db.members key m.version) m.dimension m.quantization m.etime)

theorem Inv.found (h : Inv spent db) (key : Bytes) :
    Found db key (readLiveVectorMeta db key) ((view db key).live db.now) := by
  rcases hget : db.metaCF.get key with _ | v | m
  · rw [readLiveVectorMeta, hget, view_of_none hget]
    exact .absent
  · rw [readLiveVectorMeta, hget, view_of_string hget, SpecKey.live]
    dsimp only
    split_ifs
    · exact .absent
    · exact .string v.etime
  · have hread : readLiveVectorMeta db key =
        .ok (if !isExpired m.etime db.now && m.count != 0 then some m else none) := by
      rw [readLiveVectorMeta, hget]
    by_cases hcount : m.count = 0
    · rw [hread, view_of_empty hget hcount, if_neg (by simp [hcount])]
      exact .absent
    · have hview := view_of_vector hget hcount
      rw [hread, hview, SpecKey.live]
      cases hexpired : isExpired m.etime db.now with
      | true =>
        rw [if_pos rfl, if_neg (by simp)]
        exact .absent
      | false =>
        rw [if_neg Bool.false_ne_true, if_pos (by simpa using hcount)]
        exact .vectors m hcount (h.sets key m hget hcount) hview

/-! ### Events -/

section

omit [VectorOps V]

theorem view_putMeta_of_ne (h : key' ≠ key) :
    view { db with metaCF := db.metaCF.write (key, value) } key' = view db key' := by
  refine view_congr ?_ fun g ↦ rfl
  exact (SortedMap.get_write db.metaCF (key, value) key').trans (if_neg h)

theorem view_commit_of_ne (h : key' ≠ key) :
    view (db.commit (⟨key, g, x⟩, v) key value) key' = view db key' := by
  refine view_congr ?_ fun g' ↦ members_commit_of_ne (.inl h)
  exact (SortedMap.get_write db.metaCF (key, value) key').trans (if_neg h)

theorem view_commit_self (hcount : m.count ≠ 0) :
    view (db.commit row key (some (.vector m))) key =
      .vectors ((db.commit row key (some (.vector m))).members key m.version) m.dimension
        m.quantization m.etime := by
  have hget : (db.commit row key (some (.vector m))).metaCF.get key = some (.vector m) :=
    SortedMap.get_insert_self ..
  exact view_of_vector hget hcount

theorem view_commit_none : view (db.commit row key none) key = .absent := by
  have hget : (db.commit row key none).metaCF.get key = none := SortedMap.get_erase_self ..
  exact view_of_none hget

theorem checkKey_of_lt (h : key.length < 2 ^ 32) : checkKey key = .ok () := if_pos h

end

/-- What an event must do to an instance. -/
structure Does (config : VectorConfig) (spent : ℕ) (db : Db V) (e : Event V)
    (result : Reply Bool × Db V) : Prop where
  inv : Inv (e.spent spent) result.2
  /-- The specification does the same. -/
  spec : SpecStep config db.now spent (view db) e result.1 (view result.2)
  now : result.2.now = e.after db.now

variable {e : Event V}

theorem Does.of_key {result : Reply Bool × Db V} (hinv : Inv (e.spent spent) result.2)
    (hkey : e.key? = some key) (hafter : result.2.now = e.after db.now)
    (hspec : (view db key).step config db.now e = (result.1, view result.2 key))
    (hother : ∀ key', key' ≠ key → view result.2 key' = view db key') :
    Does config spent db e result := by
  have hview : view result.2 =
      Function.update (view db) key ((view db key).step config db.now e).2 := by
    funext key'
    by_cases heq : key' = key
    · rw [heq, Function.update_self, hspec]
    · rw [Function.update_of_ne heq, hother key' heq]
  have hreply : result.1 = ((view db key).step config db.now e).1 := by rw [hspec]
  refine ⟨hinv, ?_, hafter⟩
  rw [hview, hreply]
  exact .keyed e key hkey

variable {reply : Reply Bool}

theorem Does.of_eq (hinv : Inv (e.spent spent) db) (hkey : e.key? = some key)
    (hafter : e.after db.now = db.now)
    (hspec : (view db key).step config db.now e = (reply, view db key)) :
    Does config spent db e (reply, db) :=
  .of_key hinv hkey hafter.symm hspec fun _ _ ↦ rfl

section

variable (h : Inv spent db) (hversion : m.version < db.manifest.nextGeneration)
  (hshort : key.length < 2 ^ 32)

include h hversion hshort

/-- A write that leaves the map `members` under the version of the meta value. -/
theorem Inv.replace {members : SortedMap Bytes V}
    (hmembers : (db.commit (⟨key, m.version, x⟩, v) key (some (.vector m))).members key m.version =
      members) (hcount : m.count = members.size) (hpos : m.count ≠ 0)
    (hdimension : ∀ y w, members.get y = some w → VectorOps.dimension w = m.dimension) :
    Inv spent (db.commit (⟨key, m.version, x⟩, v) key (some (.vector m))) ∧
      view (db.commit (⟨key, m.version, x⟩, v) key (some (.vector m))) key =
        .vectors members m.dimension m.quantization m.etime := by
  constructor
  · refine h.commit hversion fun m' hm' _ ↦ ?_
    cases hm'
    exact ⟨hversion, by rw [hmembers, hcount], by rwa [hmembers], hshort⟩
  · rw [view_commit_self hpos, hmembers]

theorem Inv.put {v : V} (hcount : m.count = ((db.members key m.version).insert x v).size)
    (hdimension : ∀ y w, (db.members key m.version).get y = some w →
      VectorOps.dimension w = m.dimension) (hv : VectorOps.dimension v = m.dimension) :
    Inv spent (db.commit (⟨key, m.version, x⟩, some v) key (some (.vector m))) ∧
      view (db.commit (⟨key, m.version, x⟩, some v) key (some (.vector m))) key =
        .vectors ((db.members key m.version).insert x v) m.dimension m.quantization m.etime := by
  have hpos : m.count ≠ 0 := by
    have hsome : (((db.members key m.version).insert x v).get x).isSome := by
      rw [SortedMap.get_insert_self]
      rfl
    have := SortedMap.size_pos_of_get hsome
    omega
  refine h.replace hversion hshort (members_commit_put ..) hcount hpos fun y w hw ↦ ?_
  rw [SortedMap.get_insert] at hw
  split_ifs at hw
  · cases hw
    exact hv
  · exact hdimension y w hw

end

theorem vrem_does (h : Inv spent db) (element : Bytes) :
    Does config spent db (.vrem key element) (vrem key element db) := by
  have hfound := h.found key
  have hspec : (view db key).step config db.now (.vrem key element) =
      (view db key).vrem db.now element := rfl
  rw [SpecKey.vrem] at hspec
  rw [vrem]
  generalize readLiveVectorMeta db key = found at hfound ⊢
  generalize (view db key).live db.now = live at hfound hspec
  cases hfound with
  | absent | string => exact .of_eq h rfl rfl hspec
  | vectors m _ hat =>
    dsimp only at hspec ⊢
    rw [get_members] at hspec
    rw [checkKey_of_lt hat.short]
    dsimp only
    cases hrow : db.rows.get ⟨key, m.version, element⟩ with
    | none =>
      rw [hrow] at hspec
      exact .of_eq h rfl rfl hspec
    | some =>
      rw [hrow, ← hat.count] at hspec
      have hsome : ((db.members key m.version).get element).isSome := by
        rw [get_members, hrow]
        rfl
      have hsize : m.count - 1 = ((db.members key m.version).erase element).size := by
        rw [SortedMap.size_erase, if_pos hsome, hat.count]
      by_cases hmany : m.count > 1
      · rw [if_pos hmany] at hspec ⊢
        obtain ⟨hinv, hviews⟩ := h.replace (m := bump m (m.count - 1)) hat.version hat.short
          (members_commit_delete ..) hsize (Nat.sub_ne_zero_of_lt hmany) fun y w hw ↦ by
            rw [SortedMap.get_erase] at hw
            split_ifs at hw
            exact hat.dimension y w hw
        exact .of_key hinv rfl rfl (hspec.trans (Prod.ext rfl hviews.symm)) fun key' hkey' ↦
          view_commit_of_ne hkey'
      · -- the last member takes the set with it
        rw [if_neg hmany] at hspec ⊢
        have hinv : Inv spent (db.commit (⟨key, m.version, element⟩, none) key none) :=
          h.commit hat.version fun m' hm' ↦ by cases hm'
        exact .of_key hinv rfl rfl (hspec.trans (Prod.ext rfl view_commit_none.symm))
          fun key' hkey' ↦ view_commit_of_ne hkey'

section

variable {element : Bytes} {vector : V} {io : Persist} (h : Inv (spent + 1) db)

include h

/-- `VADD` on a set that exists. -/
theorem addTo_does (hat : SetAt db key m) (hcheck : checkVadd config element vector = .ok ())
    (hlive : (view db key).live db.now =
      .vectors (db.members key m.version) m.dimension m.quantization m.etime) :
    Does config spent db (.vadd key element vector io) (addTo key element vector m db) := by
  have hspec : (view db key).step config db.now (.vadd key element vector io) =
      (view db key).vadd config db.now key element vector := rfl
  rw [SpecKey.vadd, hcheck, hlive] at hspec
  dsimp only at hspec
  rw [get_members, ← hat.count] at hspec
  rw [addTo, checkKey_of_lt hat.short]
  dsimp only
  by_cases hdim : m.dimension ≠ VectorOps.dimension vector
  · rw [if_pos hdim] at hspec ⊢
    exact .of_eq h rfl rfl hspec
  rw [if_neg hdim] at hspec ⊢
  by_cases hfull : (db.rows.get ⟨key, m.version, element⟩).isNone && m.count + 1 ≥ 2 ^ 64
  · rw [if_pos hfull] at hspec ⊢
    exact .of_eq h rfl rfl hspec
  rw [if_neg hfull] at hspec ⊢
  cases hstored : VectorOps.toQuantized vector m.quantization with
  | error =>
    rw [hstored] at hspec
    exact .of_eq h rfl rfl hspec
  | ok stored =>
    rw [hstored] at hspec
    have hv : VectorOps.dimension stored = m.dimension :=
      (VectorOps.dimension_toQuantized hstored).trans (not_not.1 hdim).symm
    have hsize : (if (db.rows.get ⟨key, m.version, element⟩).isNone then m.count + 1
        else m.count) = ((db.members key m.version).insert element stored).size := by
      rw [SortedMap.size_insert, get_members, hat.count]
      cases db.rows.get ⟨key, m.version, element⟩ <;> rfl
    obtain ⟨hinv, hviews⟩ := h.put (m := bump m (if (db.rows.get
      ⟨key, m.version, element⟩).isNone then m.count + 1 else m.count)) hat.version hat.short hsize
      hat.dimension hv
    exact .of_key hinv rfl rfl (hspec.trans (Prod.ext rfl hviews.symm)) fun key' hkey' ↦
      view_commit_of_ne hkey'

/-- `VADD` on a new set, under a generation without members. -/
theorem addFirst_does (hg : g < db.manifest.nextGeneration) (hempty : db.members key g = .empty)
    (hcheck : checkVadd config element vector = .ok ())
    (hlive : (view db key).live db.now = .absent) :
    Does config spent db (.vadd key element vector io) (addFirst key element vector g db) := by
  have hspec : (view db key).step config db.now (.vadd key element vector io) =
      (view db key).vadd config db.now key element vector := rfl
  rw [SpecKey.vadd, hcheck, hlive] at hspec
  dsimp only at hspec
  rw [addFirst]
  by_cases hshort : key.length < 2 ^ 32
  · rw [checkKey_of_lt hshort] at hspec ⊢
    dsimp only at hspec ⊢
    have hquant : (newMeta vector g db.now).quantization = VectorOps.quantization vector := rfl
    rw [hquant]
    cases hstored : VectorOps.toQuantized vector (VectorOps.quantization vector) with
    | error =>
      rw [hstored] at hspec
      exact .of_eq h rfl rfl hspec
    | ok stored =>
      rw [hstored] at hspec
      have hsize : 1 = ((db.members key g).insert element stored).size := by
        rw [hempty]
        rfl
      obtain ⟨hinv, hviews⟩ := h.put (m := newMeta vector g db.now) hg hshort hsize
        (fun y w hw ↦ by
          change (db.members key g).get y = _ at hw
          rw [hempty] at hw
          cases hw)
        (VectorOps.dimension_toQuantized hstored)
      change view _ key = .vectors ((db.members key g).insert element stored) _ _ _ at hviews
      rw [hempty] at hviews
      exact .of_key hinv rfl rfl (hspec.trans (Prod.ext rfl hviews.symm)) fun key' hkey' ↦
        view_commit_of_ne hkey'
  · rw [checkKey, if_neg hshort] at hspec ⊢
    exact .of_eq h rfl rfl hspec

end

theorem vadd_does (h : Inv spent db) (element : Bytes) (vector : V) (io : Persist) :
    Does config spent db (.vadd key element vector io) (vadd config key element vector io db) := by
  rw [vadd]
  cases hcheck : checkVadd config element vector with
  | error =>
    refine .of_eq h.succ rfl rfl ?_
    show (view db key).vadd config db.now key element vector = _
    rw [SpecKey.vadd, hcheck]
  | ok =>
    have hfound := h.found key
    dsimp only
    rw [applyVectorAdd]
    generalize hread : readLiveVectorMeta db key = found at hfound ⊢
    generalize hlive : (view db key).live db.now = live at hfound
    cases hfound with
    | string =>
      refine .of_eq h.succ rfl rfl ?_
      show (view db key).vadd config db.now key element vector = _
      rw [SpecKey.vadd, hcheck, hlive]
    | vectors _ _ hat => exact addTo_does h.succ hat hcheck hlive
    | absent =>
      have halloc := allocateGeneration_allocated h io
      dsimp only
      generalize allocateGeneration io db = result at halloc ⊢
      rcases result with ⟨g | e | _, db'⟩
      · have hviews : view db' = view db := halloc.view
        have hnow : db'.now = db.now := halloc.now
        obtain ⟨hg, hempty⟩ := halloc.fresh g rfl
        have hdoes : Does config spent db' (.vadd key element vector io)
            (addFirst key element vector g db') :=
          addFirst_does halloc.inv hg (hempty key) hcheck (by rw [hviews, hnow, hlive])
        have hstep := hdoes.spec
        rw [hviews, hnow] at hstep
        exact ⟨hdoes.inv, hstep, hdoes.now.trans hnow⟩
      · refine ⟨halloc.inv, ?_, halloc.now⟩
        rw [show view db' = view db from halloc.view]
        exact .denied key element vector io _ hlive (halloc.error e rfl Bool)
      · refine ⟨halloc.inv, ?_, halloc.now⟩
        rw [show view db' = view db from halloc.view]
        exact .denied key element vector io _ hlive (halloc.crashed rfl Bool)

section

omit [VectorOps V]

theorem live_view {value : StoredMeta} (hget : db.metaCF.get key = some value) :
    (view db key).live db.now = if value.isStale db.now then .absent else view db key := by
  cases value with
  | string =>
    rw [view_of_string hget]
    rfl
  | vector m =>
    by_cases hcount : m.count = 0
    · rw [view_of_empty hget hcount, if_pos (by simp [StoredMeta.isStale, hcount])]
      rfl
    · have hstale : (StoredMeta.vector m).isStale db.now = isExpired m.etime db.now := by
        simp [StoredMeta.isStale, hcount]
      rw [view_of_vector hget hcount, hstale]
      rfl

theorem get_putMeta_self (value : Option StoredMeta) :
    (db.metaCF.write (key, value)).get key = value := by
  rw [SortedMap.get_write, if_pos rfl]

theorem count_ne_zero_of_live {now : ℕ}
    (h : (StoredMeta.vector m).isStale now = false) : m.count ≠ 0 := fun hzero ↦ by
  simp [StoredMeta.isStale, hzero] at h

end

section

variable (h : Inv spent db)

include h

theorem Does.of_putMeta (hkey : e.key? = some key) (hafter : e.after db.now = db.now)
    (hspent : e.spent spent = spent)
    (hset : ∀ m, value = some (.vector m) → m.count ≠ 0 → SetAt db key m)
    (hspec : (view db key).step config db.now e =
      (reply, view { db with metaCF := db.metaCF.write (key, value) } key)) :
    Does config spent db e (reply, { db with metaCF := db.metaCF.write (key, value) }) :=
  .of_key (by rw [hspent]; exact h.putMeta hset) hkey hafter.symm hspec fun _ hne ↦
    view_putMeta_of_ne hne

theorem delKey_does : Does config spent db (.delKey key) (delKey key db) := by
  have hspec : (view db key).step config db.now (.delKey key) = (view db key).delKey db.now := rfl
  rw [SpecKey.delKey] at hspec
  rw [delKey]
  rcases hget : db.metaCF.get key with _ | value
  · have hview := view_of_none hget
    rw [hview] at hspec
    exact .of_eq h rfl rfl (by rw [hview]; exact hspec)
  · rw [live_view hget] at hspec
    dsimp only
    cases hstale : value.isStale db.now with
    | true =>
      rw [hstale] at hspec
      exact .of_eq h rfl rfl hspec
    | false =>
      rw [hstale, if_neg Bool.false_ne_true] at hspec
      rw [if_neg Bool.false_ne_true]
      cases value with
      | string =>
        have hview := view_of_string hget
        rw [hview] at hspec
        refine .of_putMeta h rfl rfl rfl (fun m hm ↦ by cases hm) ?_
        rw [hview, hspec, view_of_none (get_putMeta_self none)]
      | vector =>
        have hview := view_of_vector hget (count_ne_zero_of_live hstale)
        rw [hview] at hspec
        refine .of_putMeta h rfl rfl rfl (fun m' hm' hne ↦ ?_) ?_
        · cases hm'
          exact absurd rfl hne
        · -- the new version is never used: the set counts no members
          rw [hview, hspec, view_of_empty (get_putMeta_self _) rfl]

theorem setKeyEtime_does (etime : ℕ) :
    Does config spent db (.expire key etime) (setKeyEtime key etime db) := by
  have hspec : (view db key).step config db.now (.expire key etime) =
      (view db key).expire db.now etime := rfl
  rw [SpecKey.expire] at hspec
  rw [setKeyEtime]
  rcases hget : db.metaCF.get key with _ | value
  · have hview := view_of_none hget
    rw [hview] at hspec
    exact .of_eq h rfl rfl (by rw [hview]; exact hspec)
  · rw [live_view hget] at hspec
    dsimp only
    cases hstale : value.isStale db.now with
    | true =>
      rw [hstale] at hspec
      exact .of_eq h rfl rfl hspec
    | false =>
      rw [hstale, if_neg Bool.false_ne_true] at hspec
      rw [if_neg Bool.false_ne_true]
      cases value with
      | string =>
        have hview := view_of_string hget
        rw [hview] at hspec
        refine .of_putMeta h rfl rfl rfl (fun m hm ↦ by cases hm) ?_
        rw [hview, hspec, view_of_string (get_putMeta_self _)]
      | vector m =>
        have hcount := count_ne_zero_of_live hstale
        have hview := view_of_vector hget hcount
        have hat := h.sets key m hget hcount
        rw [hview] at hspec
        refine .of_putMeta h rfl rfl rfl (fun m' hm' _ ↦ ?_) ?_
        · cases hm'
          exact ⟨hat.version, hat.count, hat.dimension, hat.short⟩
        · have hnew : view { db with
              metaCF := db.metaCF.write (key, some (.vector { m with etime := etime })) } key =
                .vectors (db.members key m.version) m.dimension m.quantization etime :=
            view_of_vector (m := { m with etime := etime }) (get_putMeta_self _) hcount
          rw [hview, hspec]
          exact Prod.ext rfl hnew.symm

theorem set_does (value : Bytes) : Does config spent db (.set key value) (set key value db) := by
  refine .of_putMeta h rfl rfl rfl (fun m hm ↦ by cases hm) ?_
  exact Prod.ext rfl (view_of_string (v := ⟨value, db.now, 0⟩) (get_putMeta_self _)).symm

/-- **One event** keeps the invariant and does what the specification does. -/
theorem step_does (e : Event V) : Does config spent db e (step config db e) := by
  cases e with
  | vadd _ element vector io => exact vadd_does h element vector io
  | vrem _ element => exact vrem_does h element
  | delKey => exact delKey_does h
  | expire _ etime => exact setKeyEtime_does h etime
  | set _ value => exact set_does h value
  | tick elapsed =>
    have hinv : Inv spent { db with now := db.now + elapsed } :=
      h.grow rfl rfl le_rfl h.le h.incarnation h.nodup h.below h.spent
    exact ⟨hinv, .silent (.tick elapsed) rfl, rfl⟩
  | restart =>
    have hview : view (step config db (.restart : Event V)).2 = view db := h.restart.2
    refine ⟨h.restart.1, ?_, rfl⟩
    rw [hview]
    exact .silent .restart rfl

end

/-- **All events.** -/
theorem run_refines (config : VectorConfig) (events : List (Event V)) (h : Inv spent db) :
    (∃ spent, Inv spent (run config db events).2) ∧ SpecRun config db.now spent (view db)
      (run config db events).1 (view (run config db events).2) := by
  induction events generalizing db spent with
  | nil => exact ⟨⟨spent, h⟩, .nil _ _ _⟩
  | cons e events ih =>
    have hdoes : Does config spent db e (step config db e) := step_does h e
    obtain ⟨hinv, hrest⟩ := ih hdoes.inv
    rw [hdoes.now] at hrest
    exact ⟨hinv, .cons hdoes.spec hrest⟩

theorem inv_new (storageIncarnation now : ℕ) : Inv 0 (Db.new storageIncarnation now : Db V) := by
  refine ⟨le_rfl, rfl, fun k hk ↦ ?_, fun key m hget ↦ ?_, List.nodup_nil, fun g hg ↦ ?_, le_rfl⟩
  · cases hk
  · cases hget
  · cases hg

/-! ### Reads -/

/-- What the reads of a key answer. -/
structure Reads (db : Db V) (key : Bytes) (k : SpecKey V) : Prop where
  /-- Nothing is an empty map. -/
  absent : k = .absent → vcard db key = .ok 0 ∧ (∀ x, vismember db key x = .ok false) ∧
    vsimCandidates db key = .ok []
  string : ∀ etime, k = .string etime → vcard db key = .error wrongTypeError ∧
    (∀ x, vismember db key x = .error wrongTypeError) ∧
    vsimCandidates db key = .error wrongTypeError
  /-- A map: its size, its elements, and all of it. -/
  vectors : ∀ map d q etime, k = .vectors map d q etime → vcard db key = .ok map.size ∧
    (∀ x, vismember db key x = .ok (map.get x).isSome) ∧ vsimCandidates db key = .ok map.rows

theorem Inv.reads (h : Inv spent db) (key : Bytes) : Reads db key ((view db key).live db.now) := by
  have hfound := h.found key
  generalize hread : readLiveVectorMeta db key = found at hfound
  generalize (view db key).live db.now = live at hfound
  cases hfound with
  | absent =>
    refine ⟨fun _ ↦ ⟨?_, fun x ↦ ?_, ?_⟩, fun _ hk ↦ (by cases hk), fun _ _ _ _ hk ↦ by cases hk⟩
    · rw [vcard, hread]
      rfl
    · rw [vismember, hread]
      rfl
    · rw [vsimCandidates, hread]
      rfl
  | string =>
    refine ⟨fun hk ↦ (by cases hk), fun _ _ ↦ ⟨?_, fun x ↦ ?_, ?_⟩, fun _ _ _ _ hk ↦ by cases hk⟩
    · rw [vcard, hread]
      rfl
    · rw [vismember, hread]
      rfl
    · rw [vsimCandidates, hread]
      rfl
  | vectors m _ hat =>
    refine ⟨fun hk ↦ (by cases hk), fun _ hk ↦ (by cases hk), ?_⟩
    rintro _ _ _ _ ⟨⟩
    refine ⟨?_, fun x ↦ ?_, ?_⟩
    · rw [vcard, hread, ← hat.count]
      rfl
    · rw [vismember, hread, get_members, checkKey_of_lt hat.short]
      rfl
    · have hrows : DataKey.rowsAt db.rows key m.version = (db.members key m.version).rows :=
        DataKey.rowsAt_eq_rows_slice ..
      have hall : ((DataKey.rowsAt db.rows key m.version).all fun r ↦
          VectorOps.dimension r.2 == m.dimension) = true := by
        refine List.all_eq_true.2 fun r hr ↦ ?_
        rw [hrows] at hr
        rw [beq_iff_eq]
        exact hat.dimension r.1 r.2 (SortedMap.get_eq_some_iff.2 hr)
      rw [vsimCandidates, hread, checkKey_of_lt hat.short, ← hrows]
      show (if _ then _ else _) = _
      rw [if_pos hall]
      rfl

section

variable {F : Type} [Fp32 F]

/-- **Generations are not reused.** Whatever restarts and crashes during an allocation come in
between, all rows are under generations that neither the manifest in memory nor the one that a
restart reads will hand out again. -/
theorem rows_below_next_generation (config : VectorConfig) (storageIncarnation now : ℕ)
    (events : List (Event (CanonicalVector F))) :
    let db := (run config (Db.new storageIncarnation now) events).2
    (∀ k, (db.rows.get k).isSome → k.version < db.manifest.nextGeneration) ∧
      db.manifest.nextGeneration ≤ db.file.nextGeneration ∧
      db.manifest.storageIncarnation = db.file.storageIncarnation := by
  obtain ⟨⟨_, hinv⟩, -⟩ := run_refines config events (inv_new storageIncarnation now)
  exact ⟨hinv.fresh, hinv.le, hinv.incarnation⟩

end

/-- Whole numbers as components. -/
instance : Fp32 ℤ where
  one := 1
  negOne := -1
  infinity := 2 ^ 128
  negInfinity := -2 ^ 128
  isPositive n := 0 < n
  min := min
  max := max
  sub n m := n - m
  code v min range := (v - min) * 255 / range - 128
  decode code min range := min + (code + 128) * range / 255

/-- A set with two elements, the second quantized as the first is; it is deleted, and created again
in a second attempt, since the process ends in the first one. -/
def createdAgain : List (Event (CanonicalVector ℤ)) :=
  [.vadd [1] [97] ⟨2, 5, .int8, .int8 [0, 127] 3 4⟩ .done,
    .vadd [1] [98] ⟨2, 5, .none, .fp32 [3, 4]⟩ .done, .delKey [1],
    .vadd [1] [97] ⟨1, 1, .none, .fp32 [1]⟩ (.crashed true),
    .vadd [1] [97] ⟨1, 1, .none, .fp32 [1]⟩ .done]

/-- The rows of the deleted set are still there. -/
theorem rows_below_next_generation_createdAgain :
    let db := (run ⟨8, 8, 64⟩ (Db.new 9 1) createdAgain).2
    (db.rows.get ⟨[1], 1, [98]⟩).isSome ∧ (db.rows.get ⟨[1], 3, [97]⟩).isSome ∧
      3 < db.manifest.nextGeneration :=
  ⟨by decide +kernel, by decide +kernel,
    (rows_below_next_generation _ _ _ createdAgain).1 ⟨[1], 3, [97]⟩ (by decide +kernel)⟩

end Kiwi.Vectors
