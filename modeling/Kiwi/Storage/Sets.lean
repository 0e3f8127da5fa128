import Kiwi.Storage.Redis
import Kiwi.Storage.Glob

/-!
# Set operations

The operations of `redis_sets.rs`. The members of a set are the data keys under its version; the
rows have no value. Replies are made of `from_utf8_lossy` strings except in `sscan`, and `sadd`
also compares its arguments by those strings.

Random choices come from a `Rng`, which says what the generator answers and what the answers are
known to satisfy.
-/

namespace Kiwi

/-- One state of the random generator: the indexes it chooses among `n` elements. -/
structure Rng where
  /-- `gen_range(0..n)`. -/
  genRange : ℕ → ℕ
  /-- `choose_multiple`: as many different indexes below `n` as asked for. -/
  chooseMultiple : ℕ → ℕ → List ℕ
  /-- `shuffle`: the indexes below `n` in some order. -/
  shuffle : ℕ → List ℕ
  /-- Repeated `choose`: as many indexes below `n` as asked for. -/
  choices : ℕ → ℕ → List ℕ
  /-- A range that is not empty yields one of its elements. -/
  genRange_lt : ∀ {n}, 0 < n → genRange n < n
  /-- A sample has no repetition. -/
  nodup_chooseMultiple : ∀ n k, (chooseMultiple n k).Nodup
  /-- A sample stays in range. -/
  lt_of_mem_chooseMultiple : ∀ {n k i}, i ∈ chooseMultiple n k → i < n
  /-- A sample has the size asked for, when there are enough elements. -/
  length_chooseMultiple : ∀ n k, (chooseMultiple n k).length = min k n

namespace Sets

variable {S : Type} [LinearOrder S]

/-! ### Rows -/

/-- Puts of members under a version. -/
def putMembers (key : Bytes) (version : ℕ) (members : List Bytes) : Batch S :=
  members.map fun x ↦ .setsDataCF ⟨key, version, x⟩ (some ())

/-- Deletes of members under a version. -/
def deleteMembers (key : Bytes) (version : ℕ) (members : List Bytes) : Batch S :=
  members.map fun x ↦ .setsDataCF ⟨key, version, x⟩ none

section

omit [LinearOrder S]

section

variable (key : Bytes) (version : ℕ) (members : List Bytes)

include key version members

@[simp] theorem metaWrites_putMembers :
    (putMembers key version members : Batch S).filterMap Entry.metaWrite? = [] := by
  simp [putMembers, List.filterMap_map, Function.comp_def]

@[simp] theorem setWrites_putMembers :
    (putMembers key version members : Batch S).filterMap Entry.setWrite? =
      members.map fun x ↦ (⟨key, version, x⟩, some ()) := by
  simp [putMembers, List.filterMap_map, Function.comp_def]

@[simp] theorem metaWrites_deleteMembers :
    (deleteMembers key version members : Batch S).filterMap Entry.metaWrite? = [] := by
  simp [deleteMembers, List.filterMap_map, Function.comp_def]

@[simp] theorem setWrites_deleteMembers :
    (deleteMembers key version members : Batch S).filterMap Entry.setWrite? =
      members.map fun x ↦ (⟨key, version, x⟩, none) := by
  simp [deleteMembers, List.filterMap_map, Function.comp_def]

end

variable {names : List Bytes} {M : Bytes → MetaValue → Prop} {R : Bytes → ℕ → Prop} {key : Bytes}

theorem meets_putMembers (hkey : key ∈ names) {version : ℕ} (hR : R key version)
    (members : List Bytes) : Meets names M R (putMembers key version members : Batch S) := by
  intro e he
  obtain ⟨x, -, rfl⟩ := List.mem_map.1 he
  exact ⟨hkey, hR⟩

theorem meets_deleteMembers (hkey : key ∈ names) (version : ℕ) (members : List Bytes) :
    Meets names M R (deleteMembers key version members : Batch S) := by
  intro e he
  obtain ⟨x, -, rfl⟩ := List.mem_map.1 he
  exact ⟨hkey, trivial⟩

end

/-- Whether a member is stored under a version. -/
def hasMember (db : Redis S) (key : Bytes) (version : ℕ) (member : Bytes) : Bool :=
  (db.setsDataCF.get ⟨key, version, member⟩).isSome

/-- The members stored under a version, in order. -/
def membersAt (db : Redis S) (key : Bytes) (version : ℕ) : List Bytes :=
  (DataKey.rowsAt db.setsDataCF key version).map Prod.fst

/-- The meta value of a new, still empty set. -/
def newSetMeta (now : ℕ) : BaseMetaValue := (BaseMetaValue.new .set 0 now).initialMetaValue now

/-! ### Updates -/

/-- The arguments that the set does not have yet. -/
def toAdd (db : Redis S) (key : Bytes) (found : Option BaseMetaValue) (members : List Bytes) :
    List Bytes :=
  match found with
  | none => members
  | some m => members.filter fun x ↦ !hasMember db key m.version x

variable {db : Redis S}

theorem mem_of_mem_toAdd {key : Bytes} {found : Option BaseMetaValue}
    {members : List Bytes} {x : Bytes} (h : x ∈ toAdd db key found members) : x ∈ members := by
  rcases found with _ | m
  · exact h
  · exact List.mem_of_mem_filter h

def sadd (key : Bytes) (members : List Bytes) (now : ℕ) : Op S ℤ := do
  let db ← get
  -- duplicates among the arguments are recognised by their rendering as text
  let filtered := firstBy fromUtf8Lossy members
  if filtered.isEmpty then return 0
  else
    let found ← db.baseMeta .set key now
    let m := found.getD (newSetMeta now)
    let toAdd := toAdd db key found filtered
    if toAdd.isEmpty then return 0
    else if !m.checkModifyCount toAdd.length then throw (.invalidArgument "set size overflow")
    else
      commit (.metaCF key (some (.base (m.modifyCount toAdd.length)))
        :: putMembers key m.version toAdd)
      return asI32 toAdd.length

variable {now : ℕ}

open Program in
/-- **Execution of `sadd`.** -/
theorem exec_sadd (key : Bytes) (members : List Bytes) :
    (sadd key members now).exec db =
      if (firstBy fromUtf8Lossy members).isEmpty then (.ok 0, db)
      else
        match db.baseMeta .set key now with
        | .error e => (.error e, db)
        | .ok found =>
          let new := toAdd db key found (firstBy fromUtf8Lossy members)
          let m := found.getD (newSetMeta now)
          if new.isEmpty then (.ok 0, db)
          else if m.checkModifyCount new.length then
            (.ok (asI32 new.length), db.write (.metaCF key (some (.base (m.modifyCount new.length)))
              :: putMembers key m.version new))
          else (.error (.invalidArgument "set size overflow"), db) := by
  rw [sadd, exec_get_bind]
  simp only [exec_ite, exec_pure]
  congr 1
  rcases db.baseMeta .set key now with e | found
  · rfl
  · rw [exec_lift_ok_bind]
    simp only [exec_ite, exec_pure]
    congr 1
    cases (found.getD (newSetMeta now)).checkModifyCount
      (toAdd db key found (firstBy fromUtf8Lossy members)).length <;> simp

/-- The end of `srem`: `n` of the arguments are stored. -/
def removeStored (key : Bytes) (m : BaseMetaValue) (stored : List Bytes) (n : ℤ) : Op S ℤ := do
  if n > 0 then
    commit (deleteMembers key m.version stored
      ++ [putOrDeleteBaseMeta key m (subU64 m.count n.toNat)])
    return n
  else return n

/-- `srem`, which counts a repeated argument every time, in an `i32`. -/
def srem (key : Bytes) (members : List Bytes) (now : ℕ) : Op S ℤ := do
  if members.isEmpty then return 0
  else
    let db ← get
    match ← db.validMeta .set key now with
    | none => return 0
    | some m =>
      let stored := members.filter fun x ↦ hasMember db key m.version x
      removeStored key m stored (asI32 stored.length)

open Program in
/-- **Execution of `srem`** on a set that is found. -/
theorem exec_srem {key : Bytes} {m : BaseMetaValue}
    (hm : db.baseMeta .set key now = .ok (some m)) (members : List Bytes) :
    (srem key members now).exec db =
      let stored := members.filter fun x ↦ hasMember db key m.version x
      if 0 < asI32 stored.length then
        (.ok (asI32 stored.length), db.write (deleteMembers key m.version stored
          ++ [putOrDeleteBaseMeta key m (subU64 m.count (asI32 stored.length).toNat)]))
      else (.ok (asI32 stored.length), db) := by
  rw [srem, exec_ite, exec_get_bind, Redis.validMeta_eq_baseMeta, hm, exec_lift_ok_bind]
  cases members with
  | nil =>
    -- without arguments nothing is counted
    have hzero : asI32 (0 : ℕ) = 0 := asI32_of_lt (by norm_num)
    rw [if_pos List.isEmpty_nil]
    simp only [List.filter_nil, List.length_nil, hzero, lt_irrefl, if_false]
    rfl
  | cons x members =>
    rw [if_neg (by simp)]
    dsimp only [removeStored]
    rw [exec_ite]
    rfl

/-- The members `spop` chooses. -/
def popped (rng : Rng) (count : Option ℤ) (members : List Bytes) : List Bytes :=
  match count with
  | none => [members.getD (rng.genRange members.length) []]
  | some count =>
    if count ≤ 0 then []
    else if count.toNat ≥ members.length then members
    else (rng.chooseMultiple members.length count.toNat).map fun i ↦ members.getD i []

/-- Deletes of members that are stored, and the count that is left. -/
def removeMembers (key : Bytes) (m : BaseMetaValue) (members : List Bytes) : Batch S :=
  deleteMembers key m.version members ++ [putOrDeleteBaseMeta key m (subU64 m.count members.length)]

def spop (rng : Rng) (key : Bytes) (count : Option ℤ) (now : ℕ) : Op S (List Bytes) := do
  let db ← get
  match ← db.validMeta .set key now with
  | none => return []
  | some m =>
    let all := membersAt db key m.version
    if all.isEmpty then return []
    else
      let toPop := popped rng count all
      if toPop.isEmpty then return []
      else
        commit (removeMembers key m toPop)
        return toPop.map fromUtf8Lossy

open Program in
/-- **Execution of `spop`.** -/
theorem exec_spop (rng : Rng) (key : Bytes) (count : Option ℤ) :
    (spop rng key count now).exec db =
      match db.baseMeta .set key now with
      | .error e => (.error e, db)
      | .ok none => (.ok [], db)
      | .ok (some m) =>
        let all := membersAt db key m.version
        if all.isEmpty then (.ok [], db)
        else
          let toPop := popped rng count all
          if toPop.isEmpty then (.ok [], db)
          else (.ok (toPop.map fromUtf8Lossy), db.write (removeMembers key m toPop)) := by
  rw [spop, exec_get_bind, Redis.validMeta_eq_baseMeta]
  rcases db.baseMeta .set key now with e | (_ | m)
  · rfl
  · rfl
  · rw [exec_lift_ok_bind]
    dsimp only
    rw [exec_ite, exec_ite]
    rfl

/-- The meta value of the destination of `smove`, and whether it existed. -/
def destinationMeta (found : Option BaseMetaValue) (now : ℕ) : BaseMetaValue × Bool :=
  match found with
  | none => (newSetMeta now, false)
  | some m => if m.isValid now then (m, true) else (m.initialMetaValue now, true)

/-- What `smove` writes for the destination. -/
def addMember (db : Redis S) (destination : Bytes) (found : Option BaseMetaValue) (member : Bytes)
    (now : ℕ) : Batch S :=
  let (dest, destExists) := destinationMeta found now
  let count := if destExists && dest.isValid now then wrapU64 (dest.count + 1) else 1
  if hasMember db destination dest.version member then []
  else putMembers destination dest.version [member]
    ++ [.metaCF destination (some (.base (dest.setCount count)))]

/-- `smove`. Source and destination may be the same key. -/
def smove (source destination member : Bytes) (now : ℕ) : Op S Bool := do
  let db ← get
  match ← db.validMeta .set source now with
  | none => return false
  | some src =>
    if !hasMember db source src.version member then return false
    else
      let found ← db.baseMeta .set destination now
      commit (removeMembers source src [member] ++ addMember db destination found member now)
      return true

open Program in
/-- **Execution of `smove`.** -/
theorem exec_smove (source destination member : Bytes) :
    (smove source destination member now).exec db =
      match db.baseMeta .set source now with
      | .error e => (.error e, db)
      | .ok none => (.ok false, db)
      | .ok (some src) =>
        if hasMember db source src.version member then
          match db.baseMeta .set destination now with
          | .error e => (.error e, db)
          | .ok found =>
            (.ok true, db.write (removeMembers source src [member]
              ++ addMember db destination found member now))
        else (.ok false, db) := by
  rw [smove, exec_get_bind, Redis.validMeta_eq_baseMeta]
  rcases db.baseMeta .set source now with e | (_ | src)
  · rfl
  · rfl
  · rw [exec_lift_ok_bind]
    dsimp only
    rw [exec_ite]
    cases hasMember db source src.version member
    · rfl
    · rcases db.baseMeta .set destination now with e | found <;> rfl

/-! ### Reads -/

def scard (db : Redis S) (key : Bytes) (now : ℕ) : Except Error ℤ := do
  match ← db.validMeta .set key now with
  | none => throw (.keyNotFound (fromUtf8Lossy key))
  | some m => return asI32 m.count

def smembers (db : Redis S) (key : Bytes) (now : ℕ) : Except Error (List Bytes) := do
  match ← db.validMeta .set key now with
  | none => return []
  | some m => return (membersAt db key m.version).map fromUtf8Lossy

def sismember (db : Redis S) (key member : Bytes) (now : ℕ) : Except Error Bool := do
  match ← db.validMeta .set key now with
  | none => return false
  | some m => return hasMember db key m.version member

def smismember (db : Redis S) (key : Bytes) (members : List Bytes) (now : ℕ) :
    Except Error (List Bool) := do
  match ← db.validMeta .set key now with
  | none => return members.map fun _ ↦ false
  | some m => return members.map fun x ↦ hasMember db key m.version x

def srandmember (rng : Rng) (db : Redis S) (key : Bytes) (count : Option ℤ) (now : ℕ) :
    Except Error (List Bytes) := do
  match ← db.validMeta .set key now with
  | none => return []
  | some m =>
    let all := (membersAt db key m.version).map fromUtf8Lossy
    if all.isEmpty then return []
    else
      let n := all.length
      let indexes := match count with
        | none => [rng.genRange n]
        | some count =>
          if count = 0 then []
          else if count > 0 then
            if count.toNat ≥ n then rng.shuffle n else rng.chooseMultiple n count.toNat
          else rng.choices n (-count).toNat
      return indexes.map fun i ↦ all.getD i []

/-- `sscan`. The members are read in byte order, which is the order the scan sorts them in. -/
def sscan (db : Redis S) (key : Bytes) (cursor : ℕ) (pattern : Option Bytes) (count : Option ℕ)
    (now : ℕ) : Except Error (ℕ × List Bytes) := do
  match ← db.validMeta .set key now with
  | none => return (0, [])
  | some m =>
    let all := membersAt db key m.version
    if cursor < all.length then
      -- a sum that does not fit a `usize` panics, unchecked too: the slice ends before its start
      if 2 ^ 64 ≤ cursor + count.getD 10 then throw .panicked
      else
        let stop := min (cursor + count.getD 10) all.length
        let page := ((all.drop cursor).take (stop - cursor)).filter fun x ↦
          match pattern with
          | none => true
          | some pattern => Glob.matchesPattern pattern x
        return (if stop < all.length then stop else 0, page)
    else return (0, [])

/-! ### Set algebra -/

/-- Whether a member is in any of the sets, asked one after the other. -/
def inAny (db : Redis S) (member : Bytes) (now : ℕ) : List Bytes → Except Error Bool
  | [] => return false
  | key :: keys => do
    if ← sismember db key member now then return true else inAny db member now keys

def sdiff (db : Redis S) (keys : List Bytes) (now : ℕ) : Except Error (List Bytes) :=
  match keys with
  | [] => throw (.invalidArgument "SDIFF requires at least one key")
  | first :: others => do
    match ← db.validMeta .set first now with
    | none => return []
    | some m =>
      let kept ← (membersAt db first m.version).filterM fun x ↦ do
        return !(← inAny db x now others)
      return kept.map fromUtf8Lossy

/-- The smallest of the sets by `i32` size, with that size, or `none` as soon as one is missing. -/
def smallestSet (db : Redis S) (now : ℕ) :
    List Bytes → Bytes × ℤ → Except Error (Option (Bytes × ℤ))
  | [], best => return some best
  | key :: keys, best => do
    match ← db.validMeta .set key now with
    | none => return none
    | some m =>
      let count := asI32 m.count
      smallestSet db now keys (if count < best.2 then (key, count) else best)

/-- Whether a member is in all of the sets other than `skip`, asked one after the other. -/
def inAllExcept (db : Redis S) (member skip : Bytes) (now : ℕ) : List Bytes → Except Error Bool
  | [] => return true
  | key :: keys => do
    if key = skip then inAllExcept db member skip now keys
    else if ← sismember db key member now then inAllExcept db member skip now keys
    else return false

/-- `sinter`. Members of the smallest set are looked up in the others as text. -/
def sinter (db : Redis S) (keys : List Bytes) (now : ℕ) : Except Error (List Bytes) :=
  match keys with
  | [] => throw (.invalidArgument "SINTER requires at least one key")
  | [key] => smembers db key now
  | first :: _ => do
    match ← smallestSet db now keys (first, 2 ^ 31 - 1) with
    | none => return []
    | some (smallest, size) =>
      if size = 0 then return []
      else
        (← smembers db smallest now).filterM fun x ↦ inAllExcept db x smallest now keys

/-- The members of the sets that exist, one set after the other. -/
def unionMembers (db : Redis S) (now : ℕ) : List Bytes → Except Error (List Bytes)
  | [] => return []
  | key :: keys => do
    let members ← smembers db key now
    return members ++ (← unionMembers db now keys)

/-- `sunion`; the order of the answer is not specified. -/
def sunion (db : Redis S) (keys : List Bytes) (now : ℕ) : Except Error (List Bytes) :=
  match keys with
  | [] => throw (.invalidArgument "SUNION requires at least one key")
  | _ => do return firstBy id (← unionMembers db now keys)

/-- The deletes of the members of a destination that is a set. -/
def clearMembers (db : Redis S) (destination : Bytes) (now : ℕ) : Batch S :=
  match db.metaCF.get destination with
  | some (.base m) =>
    if m.dataType = .set ∧ m.isValid now then
      deleteMembers destination m.version (membersAt db destination m.version)
    else []
  | _ => []

section

variable (db : Redis S) (destination : Bytes) (now : ℕ)

theorem exists_clearMembers_eq :
    ∃ version members, clearMembers db destination now =
      deleteMembers destination version members := by
  rw [clearMembers]
  split
  · split_ifs
    · exact ⟨_, _, rfl⟩
    · exact ⟨0, [], rfl⟩
  · exact ⟨0, [], rfl⟩

theorem meets_clearMembers {M : Bytes → MetaValue → Prop} {R : Bytes → ℕ → Prop} :
    Meets [destination] M R (clearMembers db destination now) := by
  obtain ⟨version, members, heq⟩ := exists_clearMembers_eq db destination now
  rw [heq]
  exact meets_deleteMembers (List.mem_singleton_self _) version members

end

theorem metaWrites_clearMembers (destination : Bytes) :
    (clearMembers db destination now).filterMap Entry.metaWrite? = [] := by
  obtain ⟨version, members, heq⟩ := exists_clearMembers_eq db destination now
  rw [heq]
  exact metaWrites_deleteMembers ..

/-- `clear_and_store_set`: one batch that deletes the old set and writes the new one. -/
def clearAndStoreSet (destination : Bytes) (members : List Bytes) (now : ℕ) : Op S ℤ := do
  let db ← get
  let clear := clearMembers db destination now
  if members.isEmpty then
    commit (clear ++ [.metaCF destination none])
    return 0
  else
    let filtered := firstBy id members
    let m := (newSetMeta now).setCount filtered.length
    commit (clear ++ .metaCF destination (some (.base m))
      :: putMembers destination m.version filtered)
    return asI32 filtered.length

def sdiffstore (destination : Bytes) (keys : List Bytes) (now : ℕ) : Op S ℤ := do
  if keys.isEmpty then throw (.invalidArgument "SDIFFSTORE requires at least one source key")
  else
    let db ← get
    let members ← sdiff db keys now
    clearAndStoreSet destination members now

def sinterstore (destination : Bytes) (keys : List Bytes) (now : ℕ) : Op S ℤ := do
  if keys.isEmpty then throw (.invalidArgument "SINTERSTORE requires at least one source key")
  else
    let db ← get
    let members ← sinter db keys now
    clearAndStoreSet destination members now

def sunionstore (destination : Bytes) (keys : List Bytes) (now : ℕ) : Op S ℤ := do
  if keys.isEmpty then throw (.invalidArgument "SUNIONSTORE requires at least one source key")
  else
    let db ← get
    let members ← sunion db keys now
    clearAndStoreSet destination members now

end Sets

end Kiwi
