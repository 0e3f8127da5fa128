import Kiwi.Storage.Redis

/-!
# List operations

The operations of `redis_lists.rs`. The elements of a list with left index `l` are stored at the
indexes `l + 1`, `l + 2`, …; indexes are `u64` and wrap. A push at the head of a non-empty list
rewrites the whole list under a new version, as does an insertion in the middle; every other
operation keeps the version.
-/

namespace Kiwi

/-- Where `linsert` puts the new element. -/
inductive BeforeOrAfter
  | before | after
  deriving DecidableEq, Repr

namespace Lists

variable {S : Type} [LinearOrder S]

/-! ### Rows -/

/-- The data key of the element `i` places after `base`. -/
def elementKey (key : Bytes) (version base i : ℕ) : DataKey ℕ :=
  ⟨key, version, wrapU64 (base + i + 1)⟩

/-- The elements found at the `n` places after `base`. -/
def readElements (db : Redis S) (key : Bytes) (version base n : ℕ) : List Bytes :=
  (List.range n).filterMap fun i ↦ db.listsDataCF.get (elementKey key version base i)

/-- Deletes of the `n` places after `base`. -/
def deleteElements (key : Bytes) (version base n : ℕ) : Batch S :=
  (List.range n).map fun i ↦ .listsDataCF (elementKey key version base i) none

/-- Puts of elements at the places after `base`. -/
def putElements (key : Bytes) (version base : ℕ) (elements : List Bytes) : Batch S :=
  elements.mapIdx fun i x ↦ .listsDataCF (elementKey key version base i) (some x)

variable {version base n : ℕ}

section

omit [LinearOrder S]

@[simp] theorem listWrites_deleteElements (key : Bytes) :
    (deleteElements key version base n : Batch S).filterMap Entry.listWrite? =
      (List.range n).map fun i ↦ (elementKey key version base i, none) := by
  simp [deleteElements, List.filterMap_map, Function.comp_def]

@[simp] theorem listWrites_putElements (key : Bytes) (xs : List Bytes) :
    (putElements key version base xs : Batch S).filterMap Entry.listWrite? =
      xs.mapIdx fun i x ↦ (elementKey key version base i, some x) := by
  rw [putElements, List.mapIdx_eq_zipIdx_map, List.mapIdx_eq_zipIdx_map, List.filterMap_map]
  simp [Function.comp_def]

variable {M : Bytes → MetaValue → Prop} {R : Bytes → ℕ → Prop} {key : Bytes}

theorem meets_deleteElements (version base n : ℕ) :
    Meets [key] M R (deleteElements key version base n : Batch S) := by
  intro e he
  obtain ⟨i, -, rfl⟩ := List.mem_map.1 he
  exact ⟨List.mem_singleton_self _, trivial⟩

theorem meets_putElements (hR : R key version) (base : ℕ) (xs : List Bytes) :
    Meets [key] M R (putElements key version base xs : Batch S) := by
  intro e he
  obtain ⟨i, hi, rfl⟩ := List.mem_mapIdx.1 he
  exact ⟨List.mem_singleton_self _, hR⟩

end

def newListMeta (now : ℕ) : ListsMetaValue := (ListsMetaValue.new 0 now).initialMetaValue now

/-! ### Pushes -/

/-- The batch of a push at the head, and the meta value it leaves. -/
def pushLeft (db : Redis S) (key : Bytes) (values : List Bytes) (m : ListsMetaValue) (now : ℕ) :
    Batch S × ListsMetaValue :=
  let n := values.length
  let left := subU64 m.leftIndex n
  if m.count = 0 then
    let count := wrapU64 (m.count + n)
    let m' := { m with leftIndex := left, count := count, rightIndex := wrapU64 (left + count) }
    (putElements key m.version left values.reverse, m')
  else
    let existing := readElements db key m.version m.leftIndex m.count
    let version := updateVersion m.version now
    let count := wrapU64 (m.count + n)
    let m' := { m with version := version, leftIndex := left, count := count
                       rightIndex := wrapU64 (left + count) }
    (deleteElements key m.version m.leftIndex m.count
      ++ putElements key version left values.reverse
      ++ putElements key version m.leftIndex existing, m')

/-- The batch of a push at the tail, and the meta value it leaves. -/
def pushRight (key : Bytes) (values : List Bytes) (m : ListsMetaValue) :
    Batch S × ListsMetaValue :=
  let n := values.length
  let m' := { m with rightIndex := wrapU64 (m.leftIndex + m.count + n)
                     count := wrapU64 (m.count + n) }
  (putElements key m.version (m.leftIndex + m.count) values, m')

/-- The reply of a push without values: the length of the list as it is. -/
def storedCount (found : Option ListsMetaValue) : ℤ :=
  match found with
  | none => 0
  | some m => asI64 m.count

/-- `push_core`; `none` when the list is missing and must not be created. -/
def pushCore (key : Bytes) (values : List Bytes) (position allowCreate : Bool) (now : ℕ) :
    Op S (Option ℤ) := do
  let db ← get
  let found ← db.listMeta key now
  if values.isEmpty then return some (storedCount found)
  else
    match found, allowCreate with
    | none, false => return none
    | _, _ =>
      let m := found.getD (newListMeta now)
      let (rows, m') := if position then pushLeft db key values m now else pushRight key values m
      commit (rows ++ [.metaCF key (some (.list m'))])
      return some (asI64 m'.count)

/-- The batch of a push, and the meta value it leaves. -/
def pushed (db : Redis S) (key : Bytes) (values : List Bytes) (position : Bool)
    (m : ListsMetaValue) (now : ℕ) : Batch S × ListsMetaValue :=
  if position then pushLeft db key values m now else pushRight key values m

variable {m : ListsMetaValue}

section Pushed

variable {db : Redis S} {key : Bytes} {values : List Bytes} {position : Bool} {now : ℕ}

theorem meets_pushed {M : Bytes → MetaValue → Prop} {R : Bytes → ℕ → Prop}
    (hR : R key (pushed db key values position m now).2.version) :
    Meets [key] M R (pushed db key values position m now).1 := by
  cases position with
  | false => exact meets_putElements hR _ _
  | true =>
    simp only [pushed, pushLeft, if_true] at hR ⊢
    split_ifs at hR ⊢
    · exact meets_putElements hR _ _
    · exact ((meets_deleteElements _ _ _).append (meets_putElements hR _ _)).append
        (meets_putElements hR _ _)

theorem etime_pushed (m : ListsMetaValue) :
    (pushed db key values position m now).2.etime = m.etime := by
  cases position with
  | false => rfl
  | true =>
    simp only [pushed, pushLeft, if_true]
    split_ifs <;> rfl

/-- A live list is not empty. -/
theorem count_ne_zero_of_listMeta (h : db.listMeta key now = .ok (some m)) : m.count ≠ 0 := by
  intro h0
  have hlive := (Redis.liveMeta_eq_some_iff.1 (Redis.listMeta_eq_ok_some_iff.1 h)).2
  simp [MetaValue.isStale, h0] at hlive

/-- The version a push leaves: the clock's for a new list, the list's own at the tail, and a new one
at the head. -/
theorem version_pushed {found : Option ListsMetaValue} (h : db.listMeta key now = .ok found) :
    (pushed db key values position (found.getD (newListMeta now)) now).2.version =
      found.elim (updateVersion 0 now)
        fun m ↦ if position then updateVersion m.version now else m.version := by
  rcases found with _ | m
  · cases position <;> simp [pushed, pushLeft, pushRight, newListMeta,
      ListsMetaValue.initialMetaValue, ListsMetaValue.new]
  · cases position with
    | false => rfl
    | true => simp [pushed, pushLeft, count_ne_zero_of_listMeta h]

end Pushed

variable (key : Bytes) (values : List Bytes)

open Program in
/-- **Execution of a push.** -/
theorem exec_pushCore (position allowCreate : Bool) (now : ℕ) (db : Redis S) :
    (pushCore key values position allowCreate now).exec db =
      match db.listMeta key now with
      | .error e => (.error e, db)
      | .ok found =>
        if values.isEmpty then (.ok (some (storedCount found)), db)
        else if found.isNone && !allowCreate then (.ok none, db)
        else
          let r := pushed db key values position (found.getD (newListMeta now)) now
          (.ok (some (asI64 r.2.count)), db.write (r.1 ++ [.metaCF key (some (.list r.2))])) := by
  rw [pushCore, exec_get_bind]
  rcases db.listMeta key now with e | found
  · rfl
  · rw [exec_lift_ok_bind, exec_ite, exec_pure]
    congr 1
    -- the pair of rows and meta value has to be projected before the replies can be compared
    rcases found with _ | m <;> cases allowCreate <;> cases position <;> simp [pushed]

def lpush (key : Bytes) (values : List Bytes) (now : ℕ) : Op S ℤ := do
  match ← pushCore key values true true now with
  | some count => return count
  | none => throw (.optionNone "lpush always creates list when key doesn't exist")

def rpush (key : Bytes) (values : List Bytes) (now : ℕ) : Op S ℤ := do
  match ← pushCore key values false true now with
  | some count => return count
  | none => throw (.optionNone "rpush always creates list when key doesn't exist")

open Program in
theorem exec_lpush (now : ℕ) (db : Redis S) :
    (lpush key values now).exec db =
      match db.listMeta key now with
      | .error e => (.error e, db)
      | .ok found =>
        if values.isEmpty then (.ok (storedCount found), db)
        else
          let r := pushed db key values true (found.getD (newListMeta now)) now
          (.ok (asI64 r.2.count), db.write (r.1 ++ [.metaCF key (some (.list r.2))])) := by
  rw [lpush, exec_bind, exec_pushCore]
  rcases db.listMeta key now with e | found
  · rfl
  · cases h : values.isEmpty <;> simp

def lpushx (key : Bytes) (values : List Bytes) (now : ℕ) : Op S ℤ := do
  match ← pushCore key values true false now with
  | some count => return count
  | none => return 0

def rpushx (key : Bytes) (values : List Bytes) (now : ℕ) : Op S ℤ := do
  match ← pushCore key values false false now with
  | some count => return count
  | none => return 0

/-! ### Pops -/

/-- The write of a list's meta value, which is deleted when the list has become empty. -/
def putOrDeleteMeta (key : Bytes) (m : ListsMetaValue) : Entry S :=
  .metaCF key (if m.count = 0 then none else some (.list m))

/-- The rows among the data keys, in their order. -/
def foundRows (db : Redis S) (keys : List (DataKey ℕ)) : List (DataKey ℕ × Bytes) :=
  keys.filterMap fun k ↦ (db.listsDataCF.get k).map fun x ↦ (k, x)

/-- The rows `lpop` takes, from the head. -/
def headRows (db : Redis S) (key : Bytes) (m : ListsMetaValue) (n : ℕ) : List (DataKey ℕ × Bytes) :=
  foundRows db ((List.range n).map fun i ↦ elementKey key m.version m.leftIndex i)

/-- The rows `rpop_internal` takes, from the tail. -/
def tailRows (db : Redis S) (key : Bytes) (m : ListsMetaValue) (n : ℕ) : List (DataKey ℕ × Bytes) :=
  foundRows db ((List.range n).map fun i ↦ ⟨key, m.version, subU64 m.rightIndex i⟩)

/-- The batch of a pop: deletes of the rows that were taken, and the meta value that is left. -/
def popBatch (key : Bytes) (popped : List (DataKey ℕ × Bytes)) (m : ListsMetaValue) : Batch S :=
  popped.map (fun r ↦ .listsDataCF r.1 none) ++ [putOrDeleteMeta key m]

section

variable {M : Bytes → MetaValue → Prop} {R : Bytes → ℕ → Prop} {key : Bytes} {db : Redis S}

omit [LinearOrder S] in
theorem meets_putOrDeleteMeta (hM : M key (.list m)) :
    Meets [key] M R ([putOrDeleteMeta key m] : Batch S) := by
  rw [putOrDeleteMeta]
  split_ifs
  · exact meets_deleteMeta key
  · exact meets_meta hM

omit [LinearOrder S] in
theorem meets_popBatch (hM : M key (.list m))
    {popped : List (DataKey ℕ × Bytes)} (hkeys : ∀ r ∈ popped, r.1.key = key) :
    Meets [key] M R (popBatch key popped m : Batch S) := by
  refine Meets.append (fun e he ↦ ?_) (meets_putOrDeleteMeta hM)
  obtain ⟨r, hr, rfl⟩ := List.mem_map.1 he
  exact ⟨List.mem_singleton.2 (hkeys r hr), trivial⟩

theorem key_of_mem_foundRows {keys : List (DataKey ℕ)} (hkeys : ∀ k ∈ keys, k.key = key) :
    ∀ r ∈ foundRows db keys, r.1.key = key := by
  intro r hr
  obtain ⟨k, hk, hrow⟩ := List.mem_filterMap.1 hr
  obtain ⟨x, -, rfl⟩ := Option.map_eq_some_iff.1 hrow
  exact hkeys k hk

theorem key_of_mem_headRows (m : ListsMetaValue) (n : ℕ) :
    ∀ r ∈ headRows db key m n, r.1.key = key := by
  refine key_of_mem_foundRows fun k hk ↦ ?_
  obtain ⟨i, -, rfl⟩ := List.mem_map.1 hk
  rfl

theorem key_of_mem_tailRows (m : ListsMetaValue) (n : ℕ) :
    ∀ r ∈ tailRows db key m n, r.1.key = key := by
  refine key_of_mem_foundRows fun k hk ↦ ?_
  obtain ⟨i, -, rfl⟩ := List.mem_map.1 hk
  rfl

end

def lpop (key : Bytes) (count : Option ℕ) (now : ℕ) : Op S (Option (List Bytes)) := do
  let db ← get
  match ← db.listMeta key now with
  | none => return none
  | some m =>
    let popCount := min (count.getD 1) m.count
    let popped := headRows db key m popCount
    let m' := (m.setLeftIndex (wrapU64 (m.leftIndex + popCount))).setCount (m.count - popCount)
    commit (popBatch key popped m')
    if popped.isEmpty then return none else return some (popped.map Prod.snd)

/-- `rpop_internal`: the elements come in the order they are popped. -/
def rpopInternal (key : Bytes) (count : Option ℕ) (now : ℕ) : Op S (Option (List Bytes)) := do
  let db ← get
  match ← db.listMeta key now with
  | none => return none
  | some m =>
    let popCount := min (count.getD 1) m.count
    let popped := tailRows db key m popCount
    let m' := (m.setRightIndex (subU64 m.rightIndex popCount)).setCount (m.count - popCount)
    commit (popBatch key popped m')
    return some (popped.map Prod.snd)

variable {count : Option ℕ} (now : ℕ) (db : Redis S)

open Program in
theorem exec_lpop :
    (lpop key count now).exec db =
      match db.listMeta key now with
      | .error e => (.error e, db)
      | .ok none => (.ok none, db)
      | .ok (some m) =>
        let n := min (count.getD 1) m.count
        let popped := headRows db key m n
        (.ok (if popped.isEmpty then none else some (popped.map Prod.snd)),
          db.write (popBatch key popped
            ((m.setLeftIndex (wrapU64 (m.leftIndex + n))).setCount (m.count - n)))) := by
  rw [lpop, exec_get_bind]
  rcases db.listMeta key now with e | (_ | m)
  · rfl
  · rfl
  · rw [exec_lift_ok_bind]
    dsimp only
    rw [Op.exec_commit_bind, exec_ite]
    split_ifs <;> rfl

open Program in
theorem exec_rpopInternal :
    (rpopInternal key count now).exec db =
      match db.listMeta key now with
      | .error e => (.error e, db)
      | .ok none => (.ok none, db)
      | .ok (some m) =>
        let n := min (count.getD 1) m.count
        let popped := tailRows db key m n
        (.ok (some (popped.map Prod.snd)),
          db.write (popBatch key popped
            ((m.setRightIndex (subU64 m.rightIndex n)).setCount (m.count - n)))) := by
  rw [rpopInternal, exec_get_bind]
  rcases db.listMeta key now with e | (_ | m) <;> rfl

/-- `rpop`, which differs from `rpop_internal` in the answer when nothing was popped. -/
def rpop (key : Bytes) (count : Option ℕ) (now : ℕ) : Op S (Option (List Bytes)) := do
  match ← rpopInternal key count now with
  | some [] => return none
  | result => return result

open Program in
/-- `rpop` leaves what `rpop_internal` leaves. -/
theorem exec_rpop_snd :
    ((rpop key count now).exec db).2 = ((rpopInternal key count now).exec db).2 := by
  rw [rpop, exec_bind]
  rcases (rpopInternal key count now).exec db with ⟨_ | (_ | ⟨_ | _⟩), _⟩ <;> rfl

/-! ### Reads -/

def llen (db : Redis S) (key : Bytes) (now : ℕ) : Except Error ℤ := do
  match ← db.listMeta key now with
  | none => return 0
  | some m => return asI64 m.count

/-- A list index as an offset from the head: negative indexes count from the end. -/
def realIndex (m : ListsMetaValue) (index : ℤ) : ℤ :=
  if index < 0 then asI64 m.count + index else index

/-- The bounds check of `lindex` and `lset`. -/
def inBounds (m : ListsMetaValue) (index : ℤ) : Bool := 0 ≤ index && index < asI64 m.count

def lindex (db : Redis S) (key : Bytes) (index : ℤ) (now : ℕ) : Except Error (Option Bytes) := do
  match ← db.listMeta key now with
  | none => return none
  | some m =>
    let i := realIndex m index
    if inBounds m i then
      return db.listsDataCF.get (elementKey key m.version m.leftIndex (asU64 i))
    else return none

/-- The first offset of a range. -/
def realStart (len start : ℤ) : ℤ := if start < 0 then max (len + start) 0 else min start (len - 1)

/-- The last offset of a range. -/
def realStop (len stop : ℤ) : ℤ := if stop < 0 then max (len + stop) (-1) else min stop (len - 1)

/-- The elements found in a range of offsets. -/
def elementsBetween (db : Redis S) (key : Bytes) (m : ListsMetaValue) (start stop : ℤ) :
    List Bytes :=
  let len := asI64 m.count
  let start := realStart len start
  let stop := realStop len stop
  if start > stop ∨ start ≥ len then []
  else
    (List.range (stop - start + 1).toNat).filterMap fun (i : ℕ) ↦
      db.listsDataCF.get (elementKey key m.version m.leftIndex (asU64 (start + i)))

def lrange (db : Redis S) (key : Bytes) (start stop : ℤ) (now : ℕ) : Except Error (List Bytes) := do
  match ← db.listMeta key now with
  | none => return []
  | some m => return elementsBetween db key m start stop

theorem exists_get_of_mem_elementsBetween {db : Redis S} {key : Bytes}
    {start stop : ℤ} {x : Bytes} (h : x ∈ elementsBetween db key m start stop) :
    ∃ i, db.listsDataCF.get ⟨key, m.version, i⟩ = some x := by
  unfold elementsBetween at h
  dsimp only at h
  split_ifs at h
  · cases h
  · obtain ⟨i, -, hi⟩ := List.mem_filterMap.1 h
    exact ⟨_, hi⟩

/-! ### Updates in place -/

def lset (key : Bytes) (index : ℤ) (value : Bytes) (now : ℕ) : Op S PUnit := do
  let db ← get
  match ← db.listMeta key now with
  | none => throw (.keyNotFound (fromUtf8Lossy key))
  | some m =>
    let i := realIndex m index
    if inBounds m i then
      commit [.listsDataCF (elementKey key m.version m.leftIndex (asU64 i)) (some value)]
    else throw (.invalidFormat "index out of range")

open Program in
theorem exec_lset (index : ℤ) (value : Bytes) (now : ℕ) (db : Redis S) :
    (lset key index value now).exec db =
      match db.listMeta key now with
      | .error e => (.error e, db)
      | .ok none => (.error (.keyNotFound (fromUtf8Lossy key)), db)
      | .ok (some m) =>
        if inBounds m (realIndex m index) then
          (.ok ⟨⟩, db.write [.listsDataCF
            (elementKey key m.version m.leftIndex (asU64 (realIndex m index))) (some value)])
        else (.error (.invalidFormat "index out of range"), db) := by
  rw [lset, exec_get_bind]
  rcases db.listMeta key now with e | (_ | m)
  · rfl
  · rfl
  · rw [exec_lift_ok_bind]
    dsimp only
    rw [exec_ite]
    rfl

/-- The batch of `ltrim`. -/
def trimBatch (key : Bytes) (m : ListsMetaValue) (start stop : ℤ) : Batch S :=
  let len := asI64 m.count
  let start := realStart len start
  let stop := realStop len stop
  if start > stop ∨ start ≥ len then
    deleteElements key m.version m.leftIndex m.count ++ [.metaCF key none]
  else
    let count := (stop - start + 1).toNat
    let left := wrapU64 (m.leftIndex + asU64 start)
    let m' := { m with count := count, leftIndex := left, rightIndex := wrapU64 (left + count) }
    deleteElements key m.version m.leftIndex start.toNat
      ++ deleteElements key m.version (m.leftIndex + asU64 (stop + 1)) (len - (stop + 1)).toNat
      ++ [.metaCF key (some (.list m'))]

def ltrim (key : Bytes) (start stop : ℤ) (now : ℕ) : Op S PUnit := do
  let db ← get
  match ← db.listMeta key now with
  | none => return ⟨⟩
  | some m => commit (trimBatch key m start stop)

open Program in
theorem exec_ltrim (start stop : ℤ) (now : ℕ) (db : Redis S) :
    (ltrim key start stop now).exec db =
      match db.listMeta key now with
      | .error e => (.error e, db)
      | .ok none => (.ok ⟨⟩, db)
      | .ok (some m) => (.ok ⟨⟩, db.write (trimBatch key m start stop)) := by
  rw [ltrim, exec_get_bind]
  rcases db.listMeta key now with e | (_ | m) <;> rfl

/-- One pass of `lrem` over the elements: at most `limit` of those equal to `value` are dropped.
The result is what remains, and how many were dropped. -/
def removeUpTo (value : Bytes) : ℤ → List Bytes → List Bytes × ℕ
  | _, [] => ([], 0)
  | limit, x :: xs =>
    if limit > 0 ∧ x = value then
      let (rest, removed) := removeUpTo value (limit - 1) xs
      (rest, removed + 1)
    else
      let (rest, removed) := removeUpTo value limit xs
      (x :: rest, removed)

theorem length_removeUpTo (value : Bytes) (limit : ℤ) (xs : List Bytes) :
    (removeUpTo value limit xs).1.length + (removeUpTo value limit xs).2 = xs.length := by
  induction xs generalizing limit with
  | nil => rfl
  | cons x xs ih =>
    rw [removeUpTo]
    split_ifs
    · have := ih (limit - 1)
      simp only [List.length_cons]
      omega
    · have := ih limit
      simp only [List.length_cons]
      omega

/-- What `lrem` leaves of the elements, and how many it removes. -/
def removeValue (count : ℤ) (value : Bytes) (all : List Bytes) : List Bytes × ℕ :=
  -- `i64::abs` of the least value wraps to itself
  let limit := if count = 0 then 2 ^ 63 - 1 else asI64 count.natAbs
  if count ≥ 0 then removeUpTo value limit all
  else
    let (rest, removed) := removeUpTo value limit all.reverse
    (rest.reverse, removed)

theorem length_removeValue_le (count : ℤ) (value : Bytes) (all : List Bytes) :
    (removeValue count value all).1.length ≤ all.length := by
  unfold removeValue
  dsimp only
  generalize (if count = 0 then 2 ^ 63 - 1 else asI64 count.natAbs) = limit
  split_ifs
  · have := length_removeUpTo value limit all
    omega
  · have := length_removeUpTo value limit all.reverse
    rw [List.length_reverse] at this ⊢
    omega

/-- The batch of `lrem`: the list is cleared and what remains is written again. -/
def remBatch (key : Bytes) (m : ListsMetaValue) (remaining : List Bytes) : Batch S :=
  deleteElements key m.version m.leftIndex m.count
    ++ putElements key m.version m.leftIndex remaining
    ++ [putOrDeleteMeta key ((m.setCount remaining.length).setRightIndex
      (wrapU64 (m.leftIndex + remaining.length)))]

variable {M : Bytes → MetaValue → Prop} {R : Bytes → ℕ → Prop}

omit [LinearOrder S] in
theorem meets_remBatch {key : Bytes} (hM : ∀ m' : ListsMetaValue, m'.version = m.version →
      m'.etime = m.etime → M key (.list m')) (hR : R key m.version) (remaining : List Bytes) :
    Meets [key] M R (remBatch key m remaining : Batch S) :=
  ((meets_deleteElements _ _ _).append (meets_putElements hR _ _)).append
    (meets_putOrDeleteMeta (hM _ rfl rfl))

def lrem (key : Bytes) (count : ℤ) (value : Bytes) (now : ℕ) : Op S ℤ := do
  let db ← get
  match ← db.listMeta key now with
  | none => return 0
  | some m =>
    let r := removeValue count value (readElements db key m.version m.leftIndex m.count)
    if r.2 > 0 then
      commit (remBatch key m r.1)
      return r.2
    else return 0

open Program in
theorem exec_lrem (count : ℤ) (value : Bytes) (now : ℕ) (db : Redis S) :
    (lrem key count value now).exec db =
      match db.listMeta key now with
      | .error e => (.error e, db)
      | .ok none => (.ok 0, db)
      | .ok (some m) =>
        let r := removeValue count value (readElements db key m.version m.leftIndex m.count)
        if r.2 > 0 then (.ok (r.2 : ℤ), db.write (remBatch key m r.1)) else (.ok 0, db) := by
  rw [lrem, exec_get_bind]
  rcases db.listMeta key now with e | (_ | m)
  · rfl
  · rfl
  · rw [exec_lift_ok_bind]
    dsimp only
    rw [exec_ite]
    rfl

/-- The elements found at the `n` places after `base`, with their places. -/
def readIndexed (db : Redis S) (key : Bytes) (version base n : ℕ) : List (ℕ × Bytes) :=
  (List.range n).filterMap fun i ↦
    (db.listsDataCF.get (elementKey key version base i)).map fun x ↦ (i, x)

theorem map_snd_readIndexed (key : Bytes) :
    (readIndexed db key version base n).map Prod.snd = readElements db key version base n := by
  rw [readIndexed, readElements, List.map_filterMap]
  refine List.filterMap_congr fun i _ ↦ ?_
  rcases db.listsDataCF.get (elementKey key version base i) with _ | x <;> rfl

/-- The last place at which `pivot` is found. -/
def lastIndexOf (pivot : Bytes) (elements : List (ℕ × Bytes)) : Option ℕ :=
  (elements.filter fun p ↦ p.2 = pivot).getLast?.map Prod.fst

/-- The place at which `linsert` inserts, when the pivot was found at `i`. -/
def insertPosition (beforeOrAfter : BeforeOrAfter) (i : ℕ) : ℕ :=
  match beforeOrAfter with
  | .before => i
  | .after => i + 1

/-- The batch of `linsert`: the list is cleared and written again under a new version. -/
def insertBatch (key : Bytes) (m : ListsMetaValue) (all : List Bytes) (now : ℕ) : Batch S :=
  let version := updateVersion m.version now
  let m' := { m with version := version, count := all.length
                     rightIndex := wrapU64 (m.leftIndex + all.length) }
  deleteElements key m.version m.leftIndex m.count
    ++ putElements key version m.leftIndex all ++ [.metaCF key (some (.list m'))]

omit [LinearOrder S] in
theorem meets_insertBatch {key : Bytes} {now : ℕ} (hM : ∀ m' : ListsMetaValue,
      m'.version = updateVersion m.version now → m'.etime = m.etime → M key (.list m'))
    (hR : R key (updateVersion m.version now)) (all : List Bytes) :
    Meets [key] M R (insertBatch key m all now : Batch S) :=
  ((meets_deleteElements _ _ _).append (meets_putElements hR _ _)).append
    (meets_meta (hM _ rfl rfl))

def linsert (key : Bytes) (beforeOrAfter : BeforeOrAfter) (pivot value : Bytes) (now : ℕ) :
    Op S ℤ := do
  let db ← get
  match ← db.listMeta key now with
  | none => throw (.keyNotFound (fromUtf8Lossy key))
  | some m =>
    let rows := readIndexed db key m.version m.leftIndex m.count
    match lastIndexOf pivot rows with
    | none => return -1
    | some i =>
      let all := (rows.map Prod.snd).insertIdx (insertPosition beforeOrAfter i) value
      commit (insertBatch key m all now)
      return asI64 all.length

open Program in
theorem exec_linsert (beforeOrAfter : BeforeOrAfter) (pivot value : Bytes) (now : ℕ)
    (db : Redis S) :
    (linsert key beforeOrAfter pivot value now).exec db =
      match db.listMeta key now with
      | .error e => (.error e, db)
      | .ok none => (.error (.keyNotFound (fromUtf8Lossy key)), db)
      | .ok (some m) =>
        let rows := readIndexed db key m.version m.leftIndex m.count
        match lastIndexOf pivot rows with
        | none => (.ok (-1), db)
        | some i =>
          let all := (rows.map Prod.snd).insertIdx (insertPosition beforeOrAfter i) value
          (.ok (asI64 all.length), db.write (insertBatch key m all now)) := by
  rw [linsert, exec_get_bind]
  rcases db.listMeta key now with e | (_ | m)
  · rfl
  · rfl
  · rw [exec_lift_ok_bind]
    dsimp only
    rcases lastIndexOf pivot (readIndexed db key m.version m.leftIndex m.count) with _ | i
    · exact exec_pure _ _
    · exact Op.exec_commit_bind _ _ _

/-- `rpoplpush`: a pop that commits, then a push that commits. -/
def rpoplpush (source destination : Bytes) (now : ℕ) : Op S (Option Bytes) := do
  match ← rpopInternal source none now with
  | none => return none
  | some [] => return none
  | some (value :: _) =>
    match ← pushCore destination [value] true true now with
    | some _ => return some value
    | none => throw (.optionNone "Destination list creation should always succeed")

open Program in
/-- What `rpoplpush` leaves: the pop, and then the push if something was popped. -/
theorem exec_rpoplpush_snd (source destination : Bytes) (now : ℕ) (db : Redis S) :
    ((rpoplpush source destination now).exec db).2 =
      match (rpopInternal source none now).exec db with
      | (.ok (some (value :: _)), db') => ((pushCore destination [value] true true now).exec db').2
      | (_, db') => db' := by
  rw [rpoplpush, exec_bind]
  rcases (rpopInternal source none now).exec db with ⟨_ | (_ | ⟨_ | ⟨value, rest⟩⟩), db'⟩
  · rfl
  · rfl
  · rfl
  · dsimp only
    rw [exec_bind]
    rcases (pushCore destination [value] true true now).exec db' with ⟨_ | (_ | _), _⟩ <;> rfl

end Lists

end Kiwi
