import Kiwi.Correctness.ZsetAdditions
import Kiwi.Lib.Simulation

/-!
# Concurrent increments of a score

The calls of `zincrby` on one member refine the increments of a register: the score of the member is
the register, which is unset for a member that is not stored (`shows_step`). A call that finds the
member missing releases its lock and goes through `zadd`, which overwrites whatever score another
call has stored in the meantime (`zincrby_overwrites`).

`keeps_increments_iff` says for which states and calls no increment can be lost: the member is
stored already, there is at most one call, or all increments are zero.
-/

namespace Kiwi.ZsetIndex.Exact

open Zsets Increments

variable {db₀ db : Redis ExactScore} {key member : Bytes} {c now : ℕ} {times : Set ℕ}
  {value : Option ExactScore}

/-! ### The score as a register -/

/-- What the database shows of a member while calls run: nothing has been written where no zset was
found, or there is a zset that is found at all times, with room for the member. -/
inductive Shows (db₀ : Redis ExactScore) (times : Set ℕ) (key member : Bytes) :
    Redis ExactScore → Option ExactScore → Prop
  | missing (hm : ∀ now ∈ times, db₀.baseMeta .zset key now = .ok none) :
    Shows db₀ times key member db₀ none
  | found {db : Redis ExactScore} {value : Option ExactScore} {m : BaseMetaValue}
    (hm : ∀ now ∈ times, db.baseMeta .zset key now = .ok (some m))
    (hvalue : db.zsetsDataCF.get ⟨key, m.version, member⟩ = value)
    (hroom : m.count + (if value = none then 1 else 0) < 2 ^ 64) :
    Shows db₀ times key member db value

theorem Shows.get_zsetOf (h : Shows db₀ times key member db value) (hnow : now ∈ times) :
    (zsetOf db key now).get member = value := by
  cases h with
  | missing hm =>
    rw [zsetOf, hm now hnow]
    rfl
  | found hm hvalue hroom => rw [get_zsetOf_of_found (hm now hnow), hvalue]

theorem Shows.locked_unset (h : Shows db₀ times key member db none) (hnow : now ∈ times)
    (increment : ExactScore) :
    (zincrbyLocked key increment member now).exec db = (.ok none, db) := by
  rw [exec_zincrbyLocked]
  cases h with
  | missing hm => rw [hm now hnow]; rfl
  | found hm hvalue hroom =>
    rw [hm now hnow]
    dsimp only
    rw [Option.bind_some, hvalue]
    rfl

theorem Shows.locked_set {v : ExactScore} (h : Shows db₀ times key member db (some v))
    (hnow : now ∈ times) (q : ℚ) :
    ((zincrbyLocked key (.finite q) member now).exec db).1 ≠ .ok none ∧
      Shows db₀ times key member ((zincrbyLocked key (.finite q) member now).exec db).2
        (some (q +ᵥ v)) := by
  rw [exec_zincrbyLocked]
  cases h with
  | found hm hvalue hroom =>
    rw [hm now hnow]
    dsimp only
    rw [Option.bind_some, hvalue]
    dsimp only [Option.map_some]
    split_ifs with hinfinite
    · -- an infinite score refuses the increment and stays
      refine ⟨nofun, ?_⟩
      have hsame : q +ᵥ v = v := by
        rcases v with _ | a | _
        · rfl
        · cases hinfinite
        · rfl
      rw [hsame]
      exact .found hm hvalue hroom
    · refine ⟨nofun, ?_⟩
      exact .found (fun now hnow ↦ hm now hnow) (SortedMap.get_insert_self ..) (by simpa using hroom)

theorem length_newMembers_singleton (db : Redis ExactScore) (key member : Bytes) (now : ℕ)
    (s : ExactScore) :
    (newMembers db key [⟨s, member⟩] now).length =
      if (zsetOf db key now).get member = none then 1 else 0 := by
  rw [newMembers, List.map_singleton, List.dedup_cons_of_notMem List.not_mem_nil, List.dedup_nil]
  rcases hget : (zsetOf db key now).get member with _ | v <;> simp [hget]

/-- The row of the member after an addition to a zset. Scores are near when they are equal, so `zadd`
stores the score it is given. -/
theorem get_addOne {version : ℕ} (hvalue : db.zsetsDataCF.get ⟨key, version, member⟩ = value)
    (s : ExactScore) (m : BaseMetaValue) :
    (db.write ((addOne key version value ⟨s, member⟩).1 ++
      [.metaCF key (some (.base m))])).zsetsDataCF.get ⟨key, version, member⟩ = some s := by
  rcases value with _ | old
  · exact SortedMap.get_insert_self ..
  · rw [addOne]
    split_ifs with hnear
    · exact hvalue.trans (congrArg some (of_decide_eq_true hnear))
    · exact SortedMap.get_insert_self ..

theorem Shows.zadd (h : Shows db₀ times key member db value) (hnow : now ∈ times)
    (s : ExactScore) :
    Shows db₀ times key member ((Zsets.zadd key [⟨s, member⟩] now).exec db).2 (some s) := by
  have hlength := length_newMembers_singleton db key member now s
  rw [h.get_zsetOf hnow] at hlength
  cases h with
  | missing hm =>
    have hget : (zsetOf (db₀.write (createZset key (firstBy ScoreMember.member [⟨s, member⟩]) now))
        key now).get member = some s := by
      rw [get_zsetOf_createZset_firstBy db₀ (List.cons_ne_nil _ _)]
      simp [firstScore]
    have hmeta := baseMeta_createZset db₀ key
      (firstBy_ne_nil (f := ScoreMember.member) (List.cons_ne_nil ⟨s, member⟩ [])) now
    rw [get_zsetOf_of_found (hmeta now)] at hget
    rw [exec_zadd_of_missing (hm now hnow) (List.cons_ne_nil _ _)]
    exact .found (fun time _ ↦ hmeta time) hget (show 1 + 0 < 2 ^ 64 by norm_num)
  | @found _ _ m hm hvalue hroom =>
    have hne : [(⟨s, member⟩ : ScoreMember ExactScore)] ≠ [] := List.cons_ne_nil _ _
    rw [← hlength] at hroom
    have hcount : m.count ≠ 0 := by
      have hvalid := Redis.isValid_of_liveMeta (Redis.baseMeta_eq_ok_some_iff.1 (hm now hnow)).1
      simp only [BaseMetaValue.isValid, Bool.and_eq_true, bne_iff_ne] at hvalid
      exact hvalid.2
    refine .found (fun time htime ↦ baseMeta_zadd (hm now hnow) hne hroom hcount
      (hm time htime)) ?_ ?_
    · rw [exec_zadd_of_found (hm now hnow) hne, if_pos hroom]
      have hone : (additions db key m.version
          (firstBy ScoreMember.member [⟨s, member⟩])).flatMap Prod.fst =
            (addOne key m.version value ⟨s, member⟩).1 := by
        rw [← hvalue]
        exact List.append_nil _
      rw [hone]
      exact get_addOne hvalue s _
    · show min _ _ + 0 < _
      omega

/-- **One section** of a call is a step of the register. -/
theorem shows_step {ι : Type} [DecidableEq ι] (increment : ι → ℚ) {s : IncrCalls ι ExactScore} {r : Register ι ExactScore} {a : ℕ × ι}
    (h : Shows db₀ times key member s.db r.value ∧ s.phases = r.phases) (ha : a.1 ∈ times) :
    Shows db₀ times key member (s.step key member (fun i ↦ .finite (increment i)) a).db
        (step (.finite 0) increment r a.2).value ∧
      (s.step key member (fun i ↦ .finite (increment i)) a).phases =
        (step (.finite 0) increment r a.2).phases := by
  obtain ⟨hshows, hphases⟩ := h
  unfold IncrCalls.step
  rcases hphase : r.phases a.2 with _ | _ | _ <;> rw [hphases, hphase]
  · rcases hvalue : r.value with _ | v <;> rw [hvalue] at hshows
    · -- the first section finds no member and writes nothing
      rw [step_of_unset hphase hvalue, hshows.locked_unset ha]
      exact ⟨hshows, rfl⟩
    · obtain ⟨hanswer, hnext⟩ := hshows.locked_set ha (increment a.2)
      rw [step_of_set hphase hvalue]
      dsimp only
      split
      · rename_i hnone
        exact absurd hnone hanswer
      · exact ⟨hnext, rfl⟩
  · -- the second section sets the score, whatever it has become in the meantime
    rw [step_of_setting hphase]
    have hset : increment a.2 +ᵥ (.finite 0 : ExactScore) = .finite (increment a.2) :=
      congrArg ExactScore.finite (zero_add _)
    rw [hset]
    exact ⟨hshows.zadd ha _, rfl⟩
  · rw [step_of_returned hphase]
    exact ⟨hshows, hphases⟩

/-! ### Runs -/

variable {found : Option BaseMetaValue}

theorem shows_start (hinv : Inv c db) (hnow : now ∈ times)
    (hm : ∀ now ∈ times, db.baseMeta .zset key now = .ok found)
    (hroom : (zsetOf db key now).size + 1 < 2 ^ 64) :
    Shows db times key member db ((zsetOf db key now).get member) := by
  rcases found with _ | m
  · have hnone : (zsetOf db key now).get member = none := by
      rw [zsetOf, hm now hnow]
      rfl
    rw [hnone]
    exact .missing hm
  · obtain ⟨-, -, -, -, t, ht, hsize⟩ := hinv.found (hm now hnow)
    rw [zsetOf_of_stores (hm now hnow) ht, ← IndexedMap.size, hsize] at hroom
    refine .found hm (get_zsetOf_of_found (hm now hnow) member).symm ?_
    split_ifs <;> omega

/-- **A run of calls** leads to the score and the phases that the register has after the same steps.
-/
theorem run_follows_register (h : Inv c db) (hnow : now ∈ times)
    (hm : ∀ t ∈ times, db.baseMeta .zset key t = .ok found)
    (hroom : (zsetOf db key now).size + 1 < 2 ^ 64) {ι : Type} [DecidableEq ι] (increment : ι → ℚ)
    {steps : List (ℕ × ι)} {time : ℕ} (htimes : ∀ t ∈ time :: steps.map Prod.fst, t ∈ times) :
    (zsetOf (Run.final (IncrCalls.step key member fun i ↦ .finite (increment i))
      (.start db) steps).db key time).get member =
        (Run.final (step (.finite 0) increment) (start ((zsetOf db key now).get member))
          (steps.map Prod.snd)).value ∧
    (Run.final (IncrCalls.step key member fun i ↦ .finite (increment i))
      (.start db) steps).phases =
        (Run.final (step (.finite 0) increment) (start ((zsetOf db key now).get member))
          (steps.map Prod.snd)).phases := by
  have hstart : Shows db times key member db ((zsetOf db key now).get member) :=
    shows_start h hnow hm hroom
  have hsteps : ∀ a ∈ steps, a.1 ∈ times := fun a ha ↦
    htimes _ (List.mem_cons_of_mem _ (List.mem_map_of_mem ha))
  have hfinal := Run.related_final (step (.finite 0) increment)
    (fun (s : IncrCalls ι ExactScore) (r : Register ι ExactScore) ↦
      Shows db times key member s.db r.value ∧ s.phases = r.phases) Prod.snd
    (fun s r a hs ha ↦ shows_step increment hs ha)
    (s := .start db) (t := start ((zsetOf db key now).get member)) ⟨hstart, rfl⟩ hsteps
  exact ⟨hfinal.1.get_zsetOf (htimes time List.mem_cons_self), hfinal.2⟩

/-- **Concurrent increments.** Whatever the order in which concurrent calls of `zincrby` on one
member take their locked sections, the score at the end is the score at the beginning, zero for a
member that is not stored, plus the sum of all increments, exactly when the member is stored at the
beginning, there is at most one call, or all increments are zero. The zset has room for one more
member, and the clock reads any times, in any order, at which the same meta value is found. -/
theorem keeps_increments_iff (db : Redis ExactScore) (c now : ℕ) (h : Inv c db)
    (key member : Bytes) (found : Option BaseMetaValue) (times : Set ℕ) (hnow : now ∈ times)
    (hm : ∀ t ∈ times, db.baseMeta .zset key t = .ok found)
    (hroom : (zsetOf db key now).size + 1 < 2 ^ 64) {ι : Type} [Fintype ι] [DecidableEq ι]
    (increment : ι → ℚ) :
    (∀ (steps : List (ℕ × ι)) (time : ℕ), (∀ t ∈ time :: steps.map Prod.fst, t ∈ times) →
      Completed (Run.final (IncrCalls.step key member fun i ↦ .finite (increment i))
        (.start db) steps).phases →
      ((zsetOf (Run.final (IncrCalls.step key member fun i ↦ .finite (increment i))
        (.start db) steps).db key time).get member).getD (.finite 0) =
          (∑ i, increment i) +ᵥ ((zsetOf db key now).get member).getD (.finite 0)) ↔
      ((zsetOf db key now).get member).isSome ∨ Subsingleton ι ∨ ∀ i, increment i = 0 := by
  have hbase : Function.Injective fun q : ℚ ↦ q +ᵥ (.finite 0 : ExactScore) := by
    intro p q hpq
    have hpq : 0 + p = 0 + q := ExactScore.finite.inj hpq
    rwa [zero_add, zero_add] at hpq
  rw [← forall_final_iff hbase]
  constructor
  · -- every run of the register is one of the calls, all at one reading of the clock
    intro hall is hdone
    have htimes : ∀ t ∈ now :: (is.map fun i ↦ (now, i)).map Prod.fst, t ∈ times := by
      intro t ht
      obtain rfl : t = now := by
        rcases List.mem_cons.1 ht with ht | ht
        · exact ht
        · obtain ⟨a, ha, rfl⟩ := List.mem_map.1 ht
          obtain ⟨i, -, rfl⟩ := List.mem_map.1 ha
          rfl
      exact hnow
    obtain ⟨hscore, hphases⟩ := run_follows_register h hnow hm hroom increment htimes
    have hsnd : (is.map fun i ↦ (now, i)).map Prod.snd = is := by simp
    rw [hsnd] at hscore hphases
    have hsum := hall _ now htimes (by rw [hphases]; exact hdone)
    rwa [hscore] at hsum
  · intro hall steps time htimes hdone
    obtain ⟨hscore, hphases⟩ := run_follows_register h hnow hm hroom increment htimes
    rw [hscore]
    exact hall _ (by rwa [hphases] at hdone)

/-- The increments of two calls. -/
def oneAndTwo : Bool → ℚ
  | false => 1
  | true => 2

/-- Two calls on a member that is stored. -/
theorem keeps_increments_stored :
    Inv 1 twoScores ∧ ∀ (steps : List (ℕ × Bool)) (time : ℕ),
      (∀ t ∈ time :: steps.map Prod.fst, t ∈ {t | twoScores.baseMeta .zset [1] t =
        .ok (some ((BaseMetaValue.new .zset 2 1).updateVersion 1))}) →
      Completed (Run.final (IncrCalls.step [1] [97] fun i ↦ .finite (oneAndTwo i))
        (.start twoScores) steps).phases →
      ((zsetOf (Run.final (IncrCalls.step [1] [97] fun i ↦ .finite (oneAndTwo i))
        (.start twoScores) steps).db [1] time).get [97]).getD (.finite 0) =
          (∑ i, oneAndTwo i) +ᵥ ((zsetOf twoScores [1] 2).get [97]).getD (.finite 0) :=
  ⟨inv_twoScores, (keeps_increments_iff twoScores 1 2 inv_twoScores [1] [97] _ _
    baseMeta_twoScores (fun _ ht ↦ ht) (by decide +kernel) oneAndTwo).2 (Or.inl (by decide +kernel))⟩

/-- Two calls look, and then both add the member. -/
def lookLookAddAdd : IncrCalls Bool ExactScore :=
  Run.final (IncrCalls.step [1] [97] fun i ↦ .finite (oneAndTwo i)) (.start .empty)
    [(1, false), (2, true), (3, false), (4, true)]

/-- **A lost increment**: two calls find the member missing, and the second one to add it overwrites
the score of the first. -/
theorem zincrby_overwrites :
    Inv 0 (Redis.empty : Redis ExactScore) ∧ Completed lookLookAddAdd.phases ∧
      (zsetOf lookLookAddAdd.db [1] 4).get [97] = some (.finite 2) :=
  ⟨inv_empty, by decide +kernel, by decide +kernel⟩

end Kiwi.ZsetIndex.Exact
