import Kiwi.Runtime.StringCommands
import Mathlib.Tactic.IntervalCases

/-!
# String commands are linearizable

However the steps of concurrent string commands interleave, their replies and the final contents are
those of the commands run one after the other in some order, and a command that was answered before
another was called comes before it (`string_commands_linearizable`).

The commands fit the general scheme of `Kiwi.Lib.Linearize`: a shared command reads and commits
under the lock of its key, or has one point read and no commit (`shared_task`), and the exclusive
ones are alone behind the gate. A task that runs alone is the command by the operations of the
instances (`alone_task`).
-/

namespace Kiwi

open Linearize

variable {S : Type} [Score S] {α : Type}

/-! ### Operations by the meta value they read -/

namespace Strings

/-- What an operation does with a meta value: it fails, answers, or answers and puts a string. -/
def Reads (key : Bytes) (f : Option MetaValue → Except Error (α × Option StringsValue))
    (p : Op S α) : Prop :=
  ∀ db, p.exec db =
    match f (db.metaCF.get key) with
    | .error e => (.error e, db)
    | .ok (a, none) => (.ok a, db)
    | .ok (a, some new) => (.ok a, db.write [putString key new.userValue new.ctime new.etime])

section

variable (db : Redis S) (key : Bytes) (now : ℕ)

include db key now

theorem stringValueOf_get : stringValueOf now (db.metaCF.get key) = db.stringValue key now := rfl

theorem existingOf_get : existingOf now (db.metaCF.get key) = existing db key now := rfl

theorem mgetBinary_singleton : mgetBinary db [key] now = [mgetOf now (db.metaCF.get key)] := rfl

theorem existsLiveOf_get : existsLiveOf now (db.metaCF.get key) = keyExistsLive db key now := by
  rw [existsLiveOf, keyExistsLive, getKeyType]
  rcases db.metaCF.get key with _ | m
  · rfl
  · cases h : isLive now m <;> simp [h]

end

variable (key value : Bytes) (now : ℕ)

theorem reads_setnx : Reads key (setnxOf value now) (setnx key value now : Op S ℤ) := by
  intro db
  rw [setnx, Program.exec_get_bind, setnxOf, existsLiveOf_get]
  cases keyExistsLive db key now <;> rfl

theorem reads_getset : Reads key (getsetOf value now) (getset key value now : Op S _) := by
  intro db
  rw [getset, Program.exec_get_bind, getsetOf, stringValueOf_get]
  rcases db.stringValue key now with e | v <;> rfl

theorem reads_incrDecr (incr : ℤ) :
    Reads key (incrDecrOf incr now) (incrDecr key incr now : Op S ℤ) := by
  intro db
  rw [incrDecr, Program.exec_get_bind, incrDecrOf, stringValueOf_get]
  rcases db.stringValue key now with e | (_ | old)
  · rfl
  · rw [Program.exec_lift_ok_bind, Program.except_ok_bind]
    dsimp only
    rcases checkedAddI64 0 incr with _ | n <;> rfl
  · rw [Program.exec_lift_ok_bind, Program.except_ok_bind]
    dsimp only
    rcases parseI64 (fromUtf8Lossy old.userValue) with _ | n
    · rfl
    · dsimp only
      rcases checkedAddI64 n incr with _ | n <;> rfl

theorem reads_append : Reads key (appendOf value now) (append key value now : Op S ℤ) := by
  intro db
  rw [append, Program.exec_get_bind, appendOf, existingOf_get]
  rcases existing db key now with e | old
  · rfl
  · rw [Program.exec_lift_ok_bind, Program.except_ok_bind, Program.exec_ite]
    dsimp only
    split_ifs <;> rfl

theorem reads_setrange {offset : ℤ} (h₀ : ¬offset < 0) (h₁ : ¬offset > i32Max) :
    Reads key (setrangeOf offset value now) (setrange key offset value now : Op S ℤ) := by
  intro db
  rw [setrange, setrangeWithOutcome, if_neg h₀, if_neg h₁, Program.exec_bind_pure,
    Program.exec_get_bind, setrangeOf, existingOf_get]
  rcases existing db key now with e | old
  · rfl
  · rw [Program.exec_lift_ok_bind, Program.except_ok_bind]
    simp only [Program.exec_ite]
    -- the lengths are left folded
    generalize asI32 old.userValue.length = len
    generalize overwrite old.userValue offset.toNat value = new
    generalize asI32 new.length = newLen
    split_ifs <;> rfl

theorem reads_setbit {offset bit : ℤ} (h₀ : ¬offset < 0) (h₁ : ¬(bit ≠ 0 ∧ bit ≠ 1))
    (h₂ : ¬offset > 2 ^ 32 - 1) :
    Reads key (setbitOf offset bit now) (setbit key offset bit now : Op S ℤ) := by
  intro db
  rw [setbit, if_neg h₀, if_neg h₁, if_neg h₂, Program.exec_get_bind, setbitOf, existingOf_get]
  rcases existing db key now with e | old <;> rfl

end Strings

/-! ### Tasks that run alone -/

namespace StringCommand

open Strings

variable (m : LockMgr) (instanceNum now : ℕ) (insts : Insts S)

theorem alone_update {reply : Except Error α → StringReply} {key : Bytes} {p : Op S α}
    {f : Option MetaValue → Except Error (α × Option StringsValue)} (h : Reads key f p) :
    (update m instanceNum reply key f).alone instsStore insts =
      onInstance instanceNum reply key p insts := by
  rw [onInstance, h, update, Task.alone, Task.alone]
  show Task.alone _ (match f ((insts (instanceOf instanceNum key)).metaCF.get key) with
    | .error e => _
    | .ok (a, none) => _
    | .ok (a, some new) => _) insts = _
  rcases f ((insts (instanceOf instanceNum key)).metaCF.get key) with e | ⟨a, _ | new⟩
  · simp [Task.alone]
  · simp [Task.alone]
  · rfl

theorem alone_msetTask (kvs : List (Bytes × Bytes)) (next : StringTask S) :
    (msetTask instanceNum now kvs next).alone instsStore insts =
      next.alone instsStore (msetAll instanceNum now kvs insts) := by
  rw [msetTask, msetAll]
  induction instancesOf instanceNum (kvs.map Prod.fst) generalizing insts with
  | nil => rfl
  | cons instanceId ids ih =>
    rw [List.foldr_cons, Task.alone, ih, List.foldl_cons]
    rfl

theorem alone_msetnxTask (blocked free : StringTask S) (kvs : List (Bytes × Bytes)) :
    (msetnxTask instanceNum now blocked free kvs).alone instsStore insts =
      if kvs.any fun kv ↦ keyExistsLive (insts (instanceOf instanceNum kv.1)) kv.1 now then
        blocked.alone instsStore insts
      else free.alone instsStore insts := by
  induction kvs with
  | nil => rfl
  | cons kv kvs ih =>
    rw [msetnxTask, Task.alone]
    show Task.alone _ (if existsLiveOf now
      ((insts (instanceOf instanceNum kv.1)).metaCF.get kv.1) then _ else _) _ = _
    rw [existsLiveOf_get, List.any_cons]
    cases keyExistsLive (insts (instanceOf instanceNum kv.1)) kv.1 now
    · rw [if_neg Bool.false_ne_true, ih, Bool.false_or]
    · rfl

theorem alone_delTask (keys : List Bytes) (deletedCount : ℤ) :
    (delTask m instanceNum now keys deletedCount).alone instsStore insts =
      (.int (.ok (delAll instanceNum now keys deletedCount insts).1),
        (delAll instanceNum now keys deletedCount insts).2) := by
  induction keys generalizing deletedCount insts with
  | nil => rfl
  | cons key keys ih =>
    have hlook : (instsStore (S := S)).look insts (instanceOf instanceNum key, key) =
        (insts (instanceOf instanceNum key)).metaCF.get key := rfl
    rw [delTask, Task.alone, Task.alone, delAll, exec_delKey, Redis.liveMeta, hlook]
    rcases (insts (instanceOf instanceNum key)).metaCF.get key with _ | value
    · simp [Task.alone, ih]
    · cases h : value.isStale now
      · simp only [isLive_eq_not_isStale, h, Option.filter]
        exact ih _ _
      · simp [isLive_eq_not_isStale, h, Option.filter, Task.alone, ih]

variable (locks : List ℕ) (t : StringTask S)

theorem alone_locks :
    (locks.foldr Task.lock t).alone instsStore insts = t.alone instsStore insts := by
  induction locks with
  | nil => rfl
  | cons l locks ih => exact ih

theorem alone_unlocks :
    (locks.foldr Task.unlock t).alone instsStore insts = t.alone instsStore insts := by
  induction locks with
  | nil => rfl
  | cons l locks ih => exact ih

theorem mem_groups {β : Type} (keyOf : β → Bytes) (items : List β) (keys : List Bytes)
    (hkeys : ∀ x ∈ items, keyOf x ∈ keys) (x : β) :
    x ∈ (instancesOf instanceNum keys).flatMap (groupOf instanceNum keyOf items) ↔ x ∈ items := by
  simp only [List.mem_flatMap, groupOf, List.mem_filter, decide_eq_true_eq]
  refine ⟨fun ⟨_, _, hx, _⟩ ↦ hx, fun hx ↦ ⟨_, ?_, hx, rfl⟩⟩
  rw [instancesOf, List.mem_insertionSort, List.mem_dedup]
  exact List.mem_map_of_mem (hkeys x hx)

theorem alone_mgetTask (reads : List (Bytes × ℕ)) (results : List (Option Bytes)) :
    (mgetTask instanceNum now reads results).alone instsStore insts =
      (.values (.ok (reads.foldl (fun results r ↦ results.set r.2
        (mgetOf now ((insts (instanceOf instanceNum r.1)).metaCF.get r.1))) results)), insts) := by
  induction reads generalizing results with
  | nil => rfl
  | cons r reads ih => exact ih _

end StringCommand

theorem foldl_set_eq_map {β γ : Type} (g : β → γ) (items : List β) (puts : List (β × ℕ))
    (hputs : ∀ p, p ∈ puts ↔ p ∈ items.zipIdx) (d : γ) :
    puts.foldl (fun results p ↦ results.set p.2 (g p.1)) (List.replicate items.length d) =
      items.map g := by
  -- a position keeps what it has unless it is put, and what is put there belongs to it
  have hfold : ∀ (puts : List (β × ℕ)), (∀ p ∈ puts, p ∈ items.zipIdx) → ∀ results : List γ,
      results.length = items.length → ∀ i, (∃ x, (x, i) ∈ puts) ∨ results[i]? = (items.map g)[i]? →
        (puts.foldl (fun results p ↦ results.set p.2 (g p.1)) results)[i]? =
          (items.map g)[i]? := by
    intro puts
    induction puts with
    | nil =>
      rintro - results - i (⟨x, hx⟩ | hi)
      · exact absurd hx List.not_mem_nil
      · exact hi
    | cons p puts ih =>
      intro hmem results hlen i hi
      have hp : items[p.2]? = some p.1 := List.mem_zipIdx_iff_getElem?.1 (hmem p List.mem_cons_self)
      refine ih (fun q hq ↦ hmem q (List.mem_cons_of_mem _ hq)) _ (by simpa using hlen) i ?_
      by_cases hpi : p.2 = i
      · right
        subst hpi
        have hlt : p.2 < results.length := hlen ▸ (List.getElem?_eq_some_iff.1 hp).1
        rw [List.getElem?_set_self hlt, List.getElem?_map, hp, Option.map_some]
      · rw [List.getElem?_set_ne hpi]
        refine hi.imp_left ?_
        rintro ⟨x, hx⟩
        rcases List.mem_cons.1 hx with rfl | hx
        · exact absurd rfl hpi
        · exact ⟨x, hx⟩
  refine List.ext_getElem? fun i ↦ hfold puts (fun p hp ↦ (hputs p).1 hp) _ (by simp) i ?_
  rcases h : items[i]? with _ | x
  · right
    rw [List.getElem?_map, h, List.getElem?_eq_none (by simpa using h)]
    rfl
  · exact .inl ⟨x, (hputs _).2 (List.mem_zipIdx_iff_getElem?.2 h)⟩

namespace StringCommand

open Strings

variable (m : LockMgr) (instanceNum now : ℕ) (insts : Insts S) (cmd : StringCommand)

/-- **A command alone.** Its steps, with nobody else around, are the operations of the instances. -/
theorem alone_task :
    (cmd.task m instanceNum now).alone instsStore insts =
      cmd.execute instanceNum now insts := by
  cases cmd with
  | get => rfl
  | set => rfl
  | setnx key value => exact alone_update m instanceNum insts (reads_setnx key value now)
  | getset key value => exact alone_update m instanceNum insts (reads_getset key value now)
  | incrby key incr => exact alone_update m instanceNum insts (reads_incrDecr key now incr)
  | append key value => exact alone_update m instanceNum insts (reads_append key value now)
  | setrange key _ value =>
    rw [task, execute]
    split_ifs with h₀ h₁
    · rw [onInstance, Strings.setrange, setrangeWithOutcome, if_pos h₀]
      simp [Task.alone]
    · rw [onInstance, Strings.setrange, setrangeWithOutcome, if_neg h₀, if_pos h₁]
      simp [Task.alone]
    · exact alone_update m instanceNum insts (reads_setrange key value now h₀ h₁)
  | setbit key =>
    rw [task, execute]
    split_ifs with h₀ h₁ h₂
    · rw [onInstance, Strings.setbit, if_pos h₀]
      simp [Task.alone]
    · rw [onInstance, Strings.setbit, if_neg h₀, if_pos h₁]
      simp [Task.alone]
    · rw [onInstance, Strings.setbit, if_neg h₀, if_neg h₁, if_pos h₂]
      simp [Task.alone]
    · exact alone_update m instanceNum insts (reads_setbit key now h₀ h₁ h₂)
  | mset kvs => exact alone_msetTask instanceNum now insts kvs _
  | msetnx kvs =>
    have hany : (((instancesOf instanceNum (kvs.map Prod.fst)).flatMap
        (groupOf instanceNum Prod.fst kvs)).any fun kv ↦
          keyExistsLive (insts (instanceOf instanceNum kv.1)) kv.1 now) =
        kvs.any fun kv ↦ keyExistsLive (insts (instanceOf instanceNum kv.1)) kv.1 now := by
      rw [Bool.eq_iff_iff, List.any_eq_true, List.any_eq_true]
      simp only [mem_groups instanceNum Prod.fst kvs (kvs.map Prod.fst)
        fun x hx ↦ List.mem_map_of_mem hx]
    rw [task, execute, alone_locks, alone_msetnxTask, hany, alone_unlocks, alone_msetTask,
      alone_unlocks]
    rfl
  | mget keys =>
    rw [task, execute, alone_mgetTask, foldl_set_eq_map
      (fun key ↦ mgetOf now ((insts (instanceOf instanceNum key)).metaCF.get key)) keys]
    · simp only [mgetBinary_singleton, ← List.map_eq_flatMap]
    · refine mem_groups instanceNum Prod.fst keys.zipIdx keys fun x hx ↦ ?_
      exact List.mem_of_getElem? (List.mem_zipIdx_iff_getElem?.1 hx)
  | del keys => exact alone_delTask m instanceNum now insts keys 0

/-! ### Shared commands -/

/-- The lock of a key, in whatever instance. -/
def lockOf (k : ℕ × Bytes) : ℕ := keyLock m k.2

theorem touches_putString {instanceId : ℕ} {key value : Bytes} {ctime etime : ℕ}
    {k : ℕ × Bytes} (h : (instsStore (S := S)).Touches
      (instanceId, [putString key value ctime etime]) k) : k = (instanceId, key) := by
  obtain ⟨hi, e, he, hkey⟩ := h
  rw [List.mem_singleton.1 he] at hkey
  exact Prod.ext hi.symm hkey.symm

theorem shared_update (reply : Except Error α → StringReply) (key : Bytes)
    (f : Option MetaValue → Except Error (α × Option StringsValue)) :
    Shared (instsStore (S := S)) (lockOf m) (update m instanceNum reply key f) := by
  refine .guarded (k := (instanceOf instanceNum key, key)) (.read fun found ↦ ?_)
  rcases f found with e | ⟨a, _ | new⟩
  · exact .ends (.unlock .done)
  · exact .ends (.unlock .done)
  · exact .commit (fun _ ↦ touches_putString) (.unlock .done)

/-- **Shared commands** have one point read, or work on their key under its lock. -/
theorem shared_task (h : cmd.exclusive = false) :
    Shared (instsStore (S := S)) (lockOf m) (cmd.task m instanceNum now) := by
  cases cmd with
  | get => exact .peek fun found ↦ ⟨_, .done⟩
  | set key =>
    exact .guarded (k := (instanceOf instanceNum key, key))
      (.commit (fun _ ↦ touches_putString) (.unlock .done))
  | setnx | getset | incrby | append =>
    exact shared_update m instanceNum ..
  | setrange =>
    rw [task]
    split_ifs
    · exact .ends .done
    · exact .ends .done
    · exact shared_update m instanceNum ..
  | setbit =>
    rw [task]
    split_ifs
    · exact .ends .done
    · exact .ends .done
    · exact .ends .done
    · exact shared_update m instanceNum ..
  | mset | msetnx | mget | del => exact nomatch h

end StringCommand

/-! ### Concurrent commands -/

section

variable {ι : Type} (m : LockMgr) (instanceNum : ℕ) (cmds : ι → StringCommand) (now : ι → ℕ)

/-- String commands behind the command gate, each with its clock reading. -/
def stringCommands (i : ι) :
    Command (ℕ × Bytes) (Option MetaValue) (ℕ × Batch S) ℕ StringReply :=
  ⟨(cmds i).exclusive, (cmds i).task m instanceNum (now i)⟩

/-- Commands one after the other: their replies, and the contents they leave. -/
def executeAll : List ι → Insts S → List (ι × StringReply) × Insts S
  | [], insts => ([], insts)
  | i :: order, insts =>
    let first := (cmds i).execute instanceNum (now i) insts
    let others := executeAll order first.2
    ((i, first.1) :: others.1, others.2)

theorem serial_stringCommands (order : List ι) (insts : Insts S) :
    serial instsStore (stringCommands m instanceNum cmds now) order insts =
      executeAll instanceNum cmds now order insts := by
  induction order generalizing insts with
  | nil => rfl
  | cons i order ih =>
    rw [serial, executeAll, stringCommands, StringCommand.alone_task, ih]

variable {m instanceNum cmds now}

/-- **String commands are linearizable.** -/
theorem string_commands_linearizable [DecidableEq ι] {start : Insts S}
    {run : ℕ → State (Insts S) ι (ℕ × Bytes) (Option MetaValue) (ℕ × Batch S) ℕ StringReply}
    {n : ℕ} (hrun : Interleaving instsStore (stringCommands m instanceNum cmds now) start run n)
    (hend : ∀ i, (run n).phase i = .idle ∨ ∃ a, (run n).phase i = .done a) :
    ∃ order : List ι, order.Nodup ∧ (∀ i, i ∈ order ↔ (run n).phase i ≠ .idle) ∧
      (∀ i a, (run n).phase i = .done a ↔
        (i, a) ∈ (executeAll instanceNum cmds now order start).1) ∧
      (run n).store = (executeAll instanceNum cmds now order start).2 ∧
      ∀ t ≤ n, ∀ i j a, (run t).phase i = .done a → (run t).phase j = .idle →
        j ∈ order → Precedes order i j := by
  have hcmds : ∀ i, (stringCommands (S := S) m instanceNum cmds now i).exclusive = false →
      Shared instsStore (StringCommand.lockOf m) (stringCommands m instanceNum cmds now i).task :=
    fun i hi ↦ StringCommand.shared_task (S := S) m instanceNum (now i) (cmds i) hi
  simpa only [serial_stringCommands] using linearizable hcmds hrun hend

/-- A `SET` and a `GET` of one key, in a storage with two instances. -/
private abbrev setAndGet : Bool → StringCommand
  | true => .set [1] [2]
  | false => .get [1]

/-- The `GET` reads between the lock and the commit of the `SET`, and is answered after it. -/
private def setAndGetRun : ℕ →
    State (Insts ℤ) Bool (ℕ × Bytes) (Option MetaValue) (ℕ × Batch ℤ) ℕ StringReply :=
  let l := keyLock ⟨4, fun _ ↦ 0⟩ [1]
  let put : ℕ × Batch ℤ := (instanceOf 2 [1], [Strings.putString [1] [2] 5 0])
  let s₀ := initial fun _ ↦ Redis.empty
  let s₁ := s₀.goto true .waiting
  let s₂ := s₁.goto false .waiting
  let s₃ := s₂.goto true (.running [] ((setAndGet true).task ⟨4, fun _ ↦ 0⟩ 2 5))
  let s₄ := s₃.goto false (.running [] ((setAndGet false).task ⟨4, fun _ ↦ 0⟩ 2 5))
  let s₅ := s₄.goto true (.running [l] (.commit put (.unlock l (.done (.unit (.ok ⟨⟩))))))
  let missing := StringReply.bytes (Strings.getBinaryOf [1] 5 none)
  let s₆ := s₅.goto false (.running [] (.done missing))
  let s₇ := { s₆.goto true (.running [l] (.unlock l (.done (.unit (.ok ⟨⟩))))) with
    store := instsStore.write s₆.store put }
  let s₈ := s₇.goto true (.running ([l].erase l) (.done (.unit (.ok ⟨⟩))))
  let s₉ := s₈.goto true (.done (.unit (.ok ⟨⟩)))
  let s₁₀ := s₉.goto false (.done missing)
  fun n ↦ [s₀, s₁, s₂, s₃, s₄, s₅, s₆, s₇, s₈, s₉].getD n s₁₀

private theorem interleaving_setAndGetRun : Interleaving instsStore
    (stringCommands ⟨4, fun _ ↦ 0⟩ 2 setAndGet fun _ ↦ 5) (fun _ ↦ Redis.empty)
    setAndGetRun 10 := by
  refine ⟨rfl, fun t ht ↦ ?_⟩
  interval_cases t
  · exact ⟨true, .call rfl⟩
  · exact ⟨false, .call rfl⟩
  · exact ⟨true, .enter rfl fun j _ _ _ ↦ ⟨rfl, by cases j <;> rfl⟩⟩
  · exact ⟨false, .enter rfl fun j _ _ _ ↦ ⟨rfl, by cases j <;> rfl⟩⟩
  · refine ⟨true, .lock rfl fun j held rest hj ↦ ?_⟩
    have hheld : held = [] := by
      cases j
      · exact (Phase.running.inj hj).1.symm
      · exact (Phase.running.inj hj).1.symm
    rw [hheld]
    exact List.not_mem_nil
  · have hphase : (setAndGetRun 5).phase false = .running [] (.read (instanceOf 2 [1], [1])
        fun found ↦ .done (.bytes (Strings.getBinaryOf [1] 5 found))) := rfl
    exact ⟨false, .read hphase⟩
  · exact ⟨true, .commit rfl⟩
  · exact ⟨true, .unlock rfl⟩
  · exact ⟨true, .reply rfl⟩
  · exact ⟨false, .reply rfl⟩

theorem set_and_get_linearizable : ∃ order : List Bool, order.Nodup ∧
    (∀ i, i ∈ order ↔ (setAndGetRun 10).phase i ≠ .idle) ∧
    (∀ i a, (setAndGetRun 10).phase i = .done a ↔
      (i, a) ∈ (executeAll (S := ℤ) 2 setAndGet (fun _ ↦ 5) order fun _ ↦ Redis.empty).1) ∧
    (setAndGetRun 10).store =
      (executeAll 2 setAndGet (fun _ ↦ 5) order fun _ ↦ Redis.empty).2 ∧
    ∀ t ≤ 10, ∀ i j a, (setAndGetRun t).phase i = .done a →
      (setAndGetRun t).phase j = .idle → j ∈ order → Precedes order i j :=
  string_commands_linearizable interleaving_setAndGetRun fun i ↦ .inr (by
    cases i
    · exact ⟨_, rfl⟩
    · exact ⟨_, rfl⟩)

end

end Kiwi
