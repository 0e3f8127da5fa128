import Kiwi.Lib.Increments
import Kiwi.Storage.Zsets

/-!
# Concurrent calls of `zincrby`

`zincrby` (`redis_zsets.rs`) locks the key. If it finds the member, it writes the new score under
that lock. Otherwise it releases the lock and calls `zadd`, which locks the key again: two atomic
sections, between which other calls may run. `zincrbyLocked` is the first section, and
`exec_zincrby_eq` says that the two sections one after the other are `zincrby`. `IncrCalls` is a
database with several such calls on one member, which take their sections in any order.
-/

namespace Kiwi.Zsets

open Increments

variable {S : Type} [Score S]

/-- The section of `zincrby` under its own lock: the new score as text, or nothing for a member that
is not stored. -/
def zincrbyLocked (key : Bytes) (increment : S) (member : Bytes) (now : ℕ) :
    Op S (Option Bytes) := do
  let db ← get
  match ← db.validMeta .zset key now with
  | none => return none
  | some m =>
    match db.zsetsDataCF.get ⟨key, m.version, member⟩ with
    | none => return none
    | some current =>
      let score := Score.add current increment
      if Score.isNan score || Score.isInfinite score then
        throw (.redisErr "ERR increment would produce NaN or Infinity")
      else
        commit (.zsetsScoreCF (scoreKey key m.version current member) none
          :: putMember key m.version ⟨score, member⟩)
        return some (Score.format score)

open Program in
theorem exec_zincrbyLocked (key : Bytes) (increment : S) (member : Bytes) (now : ℕ) (db : Redis S) :
    (zincrbyLocked key increment member now).exec db =
      match db.baseMeta .zset key now with
      | .error e => (.error e, db)
      | .ok found =>
        match found.bind fun m ↦
          (db.zsetsDataCF.get ⟨key, m.version, member⟩).map fun current ↦ (m.version, current) with
        | none => (.ok none, db)
        | some (version, current) =>
          let score := Score.add current increment
          if Score.isNan score || Score.isInfinite score then
            (.error (.redisErr "ERR increment would produce NaN or Infinity"), db)
          else
            (.ok (some (Score.format score)),
              db.write (.zsetsScoreCF (scoreKey key version current member) none
                :: putMember key version ⟨score, member⟩)) := by
  rw [zincrbyLocked, exec_get_bind, Redis.validMeta_eq_baseMeta]
  rcases db.baseMeta .zset key now with e | (_ | m)
  · rfl
  · rfl
  · rw [exec_lift_ok_bind]
    dsimp only
    rcases hget : db.zsetsDataCF.get ⟨key, m.version, member⟩ with _ | current
    · simp only [Option.bind_some, hget, Option.map_none]
      rfl
    · simp only [Option.bind_some, hget, Option.map_some]
      rw [exec_ite]
      rfl

open Program in
/-- The sections of `zincrby`, one after the other. -/
theorem exec_zincrby_eq (key : Bytes) (increment : S) (member : Bytes) (now : ℕ) (db : Redis S) :
    (zincrby key increment member now).exec db =
      (do
        match ← zincrbyLocked key increment member now with
        | some text => return text
        | none =>
          let _ ← zadd key [⟨increment, member⟩] now
          return Score.format increment : Op S Bytes).exec db := by
  rw [exec_bind, exec_zincrbyLocked, zincrby, exec_get_bind, Redis.validMeta_eq_baseMeta]
  rcases db.baseMeta .zset key now with e | (_ | m)
  · rfl
  · rfl
  · rw [exec_lift_ok_bind]
    dsimp only
    rcases hget : db.zsetsDataCF.get ⟨key, m.version, member⟩ with _ | current
    · simp only [Option.bind_some, hget, Option.map_none]
    · simp only [Option.bind_some, hget, Option.map_some]
      split_ifs <;> rfl

/-! ### Calls that interleave -/

/-- A database with calls of `zincrby` on one member. -/
structure IncrCalls (ι S : Type) [LinearOrder S] where
  db : Redis S
  phases : ι → Phase

variable {ι : Type} [DecidableEq ι]

/-- The next section of a call, at a reading of the clock. A call whose section fails returns. -/
def IncrCalls.step (key member : Bytes) (increment : ι → S) (s : IncrCalls ι S) (a : ℕ × ι) :
    IncrCalls ι S :=
  match s.phases a.2 with
  | .called =>
    let (answer, db) := (zincrbyLocked key (increment a.2) member a.1).exec s.db
    match answer with
    | .ok none => ⟨db, Function.update s.phases a.2 .setting⟩
    | _ => ⟨db, Function.update s.phases a.2 .returned⟩
  | .setting =>
    ⟨((zadd key [⟨increment a.2, member⟩] a.1).exec s.db).2,
      Function.update s.phases a.2 .returned⟩
  | .returned => s

/-- No call has begun. -/
def IncrCalls.start (db : Redis S) : IncrCalls ι S := ⟨db, fun _ ↦ .called⟩

end Kiwi.Zsets
