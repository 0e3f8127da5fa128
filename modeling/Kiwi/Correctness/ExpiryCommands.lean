import Kiwi.Correctness.Liveness

/-!
# Commands on expiry times

`expire`, `pexpire` and `expireat` turn seconds, milliseconds and Unix time into microseconds, each
with guards of its own, and write the result over the last field of the stored entry. On what the
encoders write, every command is a function of the live entry of its key (`liveEntry`), and
`expiry_commands_agree_iff` compares them.

They agree on a live key only for a positive number of seconds whose expiry time fits a `u64`:
otherwise `expire` and `pexpire` answer that they did nothing, where `expireat` stores the time that
has passed; and an overflow is reported in different words. The times to live are as expected at
every time except that of the expiry itself, at which the key is still live for everyone else.
-/

namespace Kiwi.Encoded

open MetaValue

variable {cf : MetaCF} {key : Bytes} {now time : ℕ} {m : MetaValue}

/-! ### Commands on encoded entries -/

/-- The entry of a key that is live. -/
def liveEntry (cf : MetaCF) (key : Bytes) (now : ℕ) : Option MetaValue :=
  (cf.get key).filter fun m ↦ !m.isStale now

theorem liveEntry_eq_some_iff :
    liveEntry cf key now = some m ↔ cf.get key = some m ∧ m.isStale now = false := by
  simp [liveEntry, Option.filter_eq_some_iff]

theorem encode_setEtime (e : ℕ) :
    (m.setEtime e).encode = m.encode.take (m.encode.length - 8) ++ leBytes 8 e := by
  have hsplit : ∀ front : Bytes, (front ++ leBytes 8 m.etime).take
      ((front ++ leBytes 8 m.etime).length - 8) = front := by
    intro front
    rw [List.length_append, length_leBytes, Nat.add_sub_cancel, List.take_left]
  cases m with
  | string v | base m | list m => exact congrArg (· ++ _) (hsplit _).symm

theorem encodeCF_insert : (encodeCF cf).insert key m.encode = encodeCF (cf.insert key m) := by
  refine SortedMap.ext_get fun k ↦ ?_
  rw [SortedMap.get_insert, encodeCF, encodeCF, SortedMap.get_mapValues, SortedMap.get_mapValues,
    SortedMap.get_insert]
  split_ifs <;> rfl

/-- **`key_etime`** on encoded entries. -/
theorem keyEtime_eq (hfit : AllFit cf) (key : Bytes) (now : ℕ) :
    keyEtime (encodeCF cf) key now = .ok ((liveEntry cf key now).map MetaValue.etime) := by
  rcases hget : cf.get key with _ | m
  · rw [keyEtime, liveEntry, encodeCF, SortedMap.get_mapValues, hget]
    rfl
  · rw [keyEtime_encode (hfit.get hget) hget, liveEntry, hget]
    cases hstale : m.isStale now <;> simp [hstale, Option.filter]

/-- **`set_key_etime`** on encoded entries. -/
theorem setKeyEtime_eq (hfit : AllFit cf) (key : Bytes) (e now : ℕ) :
    setKeyEtime (encodeCF cf) key e now = .ok (match liveEntry cf key now with
      | none => (false, encodeCF cf)
      | some m => (true, encodeCF (cf.insert key (m.setEtime e)))) := by
  rcases hget : cf.get key with _ | m
  · rw [setKeyEtime, liveEntry, hget]
    have hraw : (encodeCF cf).get key = none := by
      rw [encodeCF, SortedMap.get_mapValues, hget]
      rfl
    rw [hraw]
    rfl
  rw [setKeyEtime, get_encodeCF hget]
  dsimp only
  rw [isStaleStatic_encode (hfit.get hget), Program.except_ok_bind]
  cases hstale : m.isStale now with
  | true =>
    have hlive : liveEntry cf key now = none := by simp [liveEntry, hget, hstale, Option.filter]
    rw [hlive]
    rfl
  | false =>
    rw [liveEntry_eq_some_iff.2 ⟨hget, hstale⟩, if_neg Bool.false_ne_true, tryFrom_headD_encode,
      Program.except_ok_bind, if_neg (dataType_not_none_nor_all m), ← encode_setEtime,
      encodeCF_insert]
    rfl

variable {unit : ℕ}

/-- The answer of `ttl` and `pttl`, from the live entry. -/
theorem timeToLive_eq (hfit : AllFit cf) (hunit : 2 ≤ unit) (key : Bytes) (now : ℕ) :
    timeToLive unit (encodeCF cf) key now = .ok (match liveEntry cf key now with
      | none => -2
      | some m =>
        if m.etime = 0 then -1
        else if m.etime ≤ now then -2 else ((m.etime - now) / unit : ℕ)) := by
  rw [timeToLive, keyEtime_eq hfit, Program.except_ok_bind]
  rcases hlive : liveEntry cf key now with _ | m
  · rfl
  have hfits := (hfit.get (liveEntry_eq_some_iff.1 hlive).1).etime
  -- half of a `u64` is an `i64`, so the cast of the quotient changes nothing
  have hsmall : (m.etime - now) / unit < 2 ^ 63 := by
    refine Nat.div_lt_of_lt_mul ?_
    calc m.etime - now < 2 * 2 ^ 63 := by omega
      _ ≤ unit * 2 ^ 63 := Nat.mul_le_mul_right _ hunit
  rw [Option.map_some]
  dsimp only
  rw [asI64_of_lt hsmall]
  split_ifs <;> rfl

section

variable (hfit : AllFit cf) (key : Bytes) (now : ℕ)

include hfit

/-- **`persist`** on encoded entries. -/
theorem persist_eq :
    persist (encodeCF cf) key now = .ok (match liveEntry cf key now with
      | none => (false, encodeCF cf)
      | some m =>
        if m.etime = 0 then (false, encodeCF cf)
        else (true, encodeCF (cf.insert key (m.setEtime 0)))) := by
  rw [persist, keyEtime_eq hfit, Program.except_ok_bind]
  rcases hlive : liveEntry cf key now with _ | m
  · rfl
  rw [Option.map_some]
  dsimp only
  split_ifs
  · rfl
  · rw [setKeyEtime_eq hfit, hlive]

theorem keyExistsLive_eq :
    keyExistsLive (encodeCF cf) key now = .ok (liveEntry cf key now).isSome := by
  rcases hget : cf.get key with _ | m
  · rw [keyExistsLive, getKeyType, liveEntry, hget]
    have hraw : (encodeCF cf).get key = none := by
      rw [encodeCF, SortedMap.get_mapValues, hget]
      rfl
    rw [hraw]
    rfl
  · rw [keyExistsLive_encode (hfit.get hget) hget, liveEntry, hget]
    cases hstale : m.isStale now <;> simp [hstale, Option.filter]

end

/-! ### The three conversions -/

/-- The expiry time, in microseconds. -/
def expiryAt (sec : ℕ) (s : ℤ) : ℕ := (sec + s).toNat * 1000000

section Conversions

variable {raw : RawMetaCF} {sec : ℕ} {s : ℤ}

theorem relativeExpireTime_of_fits {n : ℤ} (hn : 0 ≤ n)
    (hfits : now + n.toNat * unit < 2 ^ 64) (negative overflow : String) :
    relativeExpireTime unit negative overflow n now = .ok (now + n.toNat * unit) := by
  rw [relativeExpireTime, if_neg (not_lt.2 hn), checkedMul, if_pos (by omega),
    Program.except_ok_bind, checkedAdd, if_pos hfits]

theorem relativeExpireTime_of_overflow {n : ℤ} (hn : 0 ≤ n)
    (hfits : ¬now + n.toNat * unit < 2 ^ 64) (negative overflow : String) :
    ∃ message ∈ [overflow, "TTL timestamp overflow"],
      relativeExpireTime unit negative overflow n now = .error (.invalidFormat message) := by
  rw [relativeExpireTime, if_neg (not_lt.2 hn), checkedMul]
  by_cases hmul : n.toNat * unit < 2 ^ 64
  · rw [if_pos hmul, Program.except_ok_bind, checkedAdd, if_neg hfits]
    exact ⟨_, by simp, rfl⟩
  · rw [if_neg hmul]
    exact ⟨_, by simp, rfl⟩

theorem expiryAt_eq_seconds (sec : ℕ) (hs : 0 ≤ s) :
    expiryAt sec s = sec * 1000000 + s.toNat * 1000000 := by
  rw [expiryAt, ← Nat.add_mul]
  congr 1
  omega

theorem expiryAt_eq_milliseconds (sec : ℕ) (hs : 0 ≤ s) :
    expiryAt sec s = sec * 1000000 + (1000 * s).toNat * 1000 := by
  rw [expiryAt_eq_seconds sec hs]
  omega

section

variable (hs : 0 < s) (hfits : expiryAt sec s < 2 ^ 64) (key : Bytes)

include hs hfits

theorem expire_of_pos :
    expire raw key s (sec * 1000000) =
      setKeyEtime raw key (expiryAt sec s) (sec * 1000000) := by
  rw [expiryAt_eq_seconds sec hs.le] at hfits ⊢
  rw [expire, if_neg (not_le.2 hs), secondsToExpireTime, relativeExpireTime_of_fits hs.le hfits]
  rfl

theorem pexpire_of_pos :
    pexpire raw key (1000 * s) (sec * 1000000) =
      setKeyEtime raw key (expiryAt sec s) (sec * 1000000) := by
  rw [expiryAt_eq_milliseconds sec hs.le] at hfits ⊢
  rw [pexpire, if_neg (by omega), millisecondsToExpireTime,
    relativeExpireTime_of_fits (by omega) hfits]
  rfl

end

theorem expireat_of_fits (hpos : 0 < sec + s) (hfits : expiryAt sec s < 2 ^ 64) (key : Bytes) :
    expireat raw key (sec + s) now = setKeyEtime raw key (expiryAt sec s) now := by
  rw [expiryAt] at hfits ⊢
  rw [expireat, unixSecondsToExpireTime, unixExpireTime, if_neg (not_le.2 hpos), checkedMul,
    if_pos hfits]
  rfl

section

variable (hs : s ≤ 0) (key : Bytes) (now : ℕ)

include hs

theorem expire_of_nonpos : expire raw key s now = .ok (false, raw) := by
  rw [expire, if_pos hs]
  rfl

theorem pexpire_of_nonpos : pexpire raw key (1000 * s) now = .ok (false, raw) := by
  rw [pexpire, if_pos (by omega)]
  rfl

end

theorem expire_ne_expireat_of_overflow (hs : 0 < s) (hpos : 0 < sec + s)
    (hfits : ¬expiryAt sec s < 2 ^ 64) (key : Bytes) :
    (expireat raw key (sec + s) (sec * 1000000)).map Prod.fst ≠
      (expire raw key s (sec * 1000000)).map Prod.fst := by
  have hunix : unixSecondsToExpireTime (sec + s) =
      .error (.invalidFormat "Unix timestamp overflow") := by
    rw [expiryAt] at hfits
    rw [unixSecondsToExpireTime, unixExpireTime, if_neg (not_le.2 hpos), checkedMul, if_neg hfits]
  rw [expiryAt_eq_seconds sec hs.le] at hfits
  obtain ⟨message, hmem, hrelative⟩ := relativeExpireTime_of_overflow hs.le hfits
    "Negative TTL seconds" "TTL seconds overflow"
  rw [expireat, hunix, expire, if_neg (not_le.2 hs), secondsToExpireTime, hrelative]
  intro heq
  -- neither the product nor the sum of `expire` overflows in the words of `expireat`
  have hmessage : "Unix timestamp overflow" = message :=
    Error.invalidFormat.inj (Except.error.inj heq)
  rw [← hmessage] at hmem
  simp at hmem

end Conversions

/-! ### Agreement -/

/-- The entries after a command, which are as before if it fails. -/
def after (raw : RawMetaCF) : Except Error (Bool × RawMetaCF) → RawMetaCF
  | .ok r => r.2
  | .error _ => raw

/-- The entries that `expire` leaves at the full second `sec`. -/
def expired (cf : MetaCF) (key : Bytes) (sec : ℕ) (s : ℤ) : RawMetaCF :=
  after (encodeCF cf) (expire (encodeCF cf) key s (sec * 1000000))

/-- What the commands are for, given at the full second `sec` and looked at from `time`. -/
structure ExpiryCommandsAgree (cf : MetaCF) (key : Bytes) (sec : ℕ) (s : ℤ) (time : ℕ) : Prop where
  /-- `pexpire` answers like `expire`. -/
  milliseconds : (pexpire (encodeCF cf) key (1000 * s) (sec * 1000000)).map Prod.fst =
    (expire (encodeCF cf) key s (sec * 1000000)).map Prod.fst
  /-- `expireat` answers like `expire`. -/
  unix : (expireat (encodeCF cf) key (sec + s) (sec * 1000000)).map Prod.fst =
    (expire (encodeCF cf) key s (sec * 1000000)).map Prod.fst
  /-- `pexpire` leaves the entries that `expire` does. -/
  after_milliseconds : after (encodeCF cf)
    (pexpire (encodeCF cf) key (1000 * s) (sec * 1000000)) = expired cf key sec s
  /-- `expireat` leaves the entries that `expire` does. -/
  after_unix : after (encodeCF cf)
    (expireat (encodeCF cf) key (sec + s) (sec * 1000000)) = expired cf key sec s
  /-- A key whose time has passed is dead. -/
  dead : s ≤ 0 → keyExistsLive (expired cf key sec s) key time = .ok false
  /-- A live key gets the expiry time and keeps its value. -/
  live : 0 < s → ∀ m, liveEntry cf key (sec * 1000000) = some m →
    expired cf key sec s = encodeCF (cf.insert key (m.setEtime (expiryAt sec s)))
  /-- While the key is live, its times to live are consistent and `persist` makes it stay. -/
  remaining : 0 < s → keyExistsLive (expired cf key sec s) key time = .ok true →
    ∃ p : ℤ, pttl (expired cf key sec s) key time = .ok p ∧ 0 ≤ p ∧ p ≤ 1000 * s ∧
      ttl (expired cf key sec s) key time = .ok (p / 1000) ∧
      ∃ raw, persist (expired cf key sec s) key time = .ok (true, raw) ∧ ttl raw key time = .ok (-1)

theorem isStale_setEtime (h : m.isStale now = false) (e time : ℕ) :
    (m.setEtime e).isStale time = isExpired e time := by
  cases m with
  | string v => rfl
  | base m | list m =>
    have hcount := (Bool.or_eq_false_iff.1 h).1
    exact (congrArg (· || _) hcount).trans (Bool.false_or _)

variable {e : ℕ}

theorem fits_setEtime (h : m.Fits) (he : e < 2 ^ 64) : (m.setEtime e).Fits := by
  cases m with
  | string v => exact he
  | base m | list m => exact ⟨h.1, he⟩

theorem AllFit.insert (h : AllFit cf) (hm : m.Fits) : AllFit (cf.insert key m) := by
  rintro ⟨k, m'⟩ hr
  have hget := SortedMap.get_eq_some_iff.2 hr
  rw [SortedMap.get_insert] at hget
  split_ifs at hget with hk
  · exact Option.some.inj hget ▸ hm
  · exact h.get hget

theorem liveEntry_insert_setEtime (h : liveEntry cf key now = some m) (e time : ℕ) :
    liveEntry (cf.insert key (m.setEtime e)) key time =
      if isExpired e time then none else some (m.setEtime e) := by
  have hstale := isStale_setEtime (liveEntry_eq_some_iff.1 h).2 e time
  rw [liveEntry, SortedMap.get_insert_self]
  cases hexpired : isExpired e time <;> simp [Option.filter, hstale, hexpired]

/-- What is not live does not become live. -/
theorem liveEntry_mono (h : now ≤ time) (hdead : liveEntry cf key now = none) :
    liveEntry cf key time = none := by
  rcases hlive : liveEntry cf key time with _ | m
  · rfl
  · obtain ⟨hget, hfresh⟩ := liveEntry_eq_some_iff.1 hlive
    have hstale : m.isStale now = false :=
      Bool.eq_false_iff.2 fun hs ↦ Bool.eq_false_iff.1 hfresh (isStale_mono h hs)
    rw [liveEntry_eq_some_iff.2 ⟨hget, hstale⟩] at hdead
    cases hdead

section Agreement

variable {sec : ℕ} {s : ℤ}

/-- A key that is not live is left alone by all three commands. -/
theorem agree_of_dead (hfit : AllFit cf) (hpos : 0 < sec + s)
    (hdead : liveEntry cf key (sec * 1000000) = none) (htime : sec * 1000000 ≤ time)
    (hfits : expiryAt sec s < 2 ^ 64) : ExpiryCommandsAgree cf key sec s time := by
  have hset : setKeyEtime (encodeCF cf) key (expiryAt sec s) (sec * 1000000) =
      .ok (false, encodeCF cf) := by
    rw [setKeyEtime_eq hfit, hdead]
  have hunix : expireat (encodeCF cf) key (sec + s) (sec * 1000000) = .ok (false, encodeCF cf) :=
    (expireat_of_fits hpos hfits key).trans hset
  have hseconds : expire (encodeCF cf) key s (sec * 1000000) = .ok (false, encodeCF cf) := by
    rcases le_or_gt s 0 with hs | hs
    · exact expire_of_nonpos hs key _
    · exact (expire_of_pos hs hfits key).trans hset
  have hmilliseconds : pexpire (encodeCF cf) key (1000 * s) (sec * 1000000) =
      .ok (false, encodeCF cf) := by
    rcases le_or_gt s 0 with hs | hs
    · exact pexpire_of_nonpos hs key _
    · exact (pexpire_of_pos hs hfits key).trans hset
  have hexpired : expired cf key sec s = encodeCF cf := by rw [expired, hseconds, after]
  have hexists : keyExistsLive (expired cf key sec s) key time = .ok false := by
    rw [hexpired, keyExistsLive_eq hfit, liveEntry_mono htime hdead]
    rfl
  constructor
  case milliseconds => rw [hmilliseconds, hseconds]
  case unix => rw [hunix, hseconds]
  case after_milliseconds => rw [hmilliseconds, hexpired, after]
  case after_unix => rw [hunix, hexpired, after]
  case dead => exact fun _ ↦ hexists
  case live =>
    intro _ m hm
    rw [hdead] at hm
    cases hm
  case remaining =>
    intro _ hlive
    rw [hexists] at hlive
    cases hlive

theorem expired_of_live (hfit : AllFit cf) (hs : 0 < s)
    (hlive : liveEntry cf key (sec * 1000000) = some m) (hfits : expiryAt sec s < 2 ^ 64) :
    expired cf key sec s = encodeCF (cf.insert key (m.setEtime (expiryAt sec s))) := by
  rw [expired, expire_of_pos hs hfits, setKeyEtime_eq hfit, hlive, after]

theorem etime_setEtime (e : ℕ) : (m.setEtime e).etime = e := by
  cases m <;> rfl

section

variable (hfit : AllFit cf)

include hfit

theorem allFit_insert_setEtime (hlive : liveEntry cf key now = some m)
    (he : e < 2 ^ 64) : AllFit (cf.insert key (m.setEtime e)) :=
  hfit.insert (fits_setEtime (hfit.get (liveEntry_eq_some_iff.1 hlive).1) he)

/-- The answer of `ttl` and `pttl` under an expiry time that has not passed. -/
theorem timeToLive_setEtime {unit e : ℕ} (hunit : 2 ≤ unit) (he : e < 2 ^ 64)
    (hlive : liveEntry cf key now = some m) (hfresh : isExpired e time = false) :
    timeToLive unit (encodeCF (cf.insert key (m.setEtime e))) key time =
      .ok (if e = 0 then -1 else if e ≤ time then -2 else ((e - time) / unit : ℕ)) := by
  rw [timeToLive_eq (allFit_insert_setEtime hfit hlive he) hunit, liveEntry_insert_setEtime hlive,
    if_neg (Bool.eq_false_iff.1 hfresh)]
  dsimp only
  rw [etime_setEtime]

/-- `persist` takes an expiry time away that has not passed, and the key stays. -/
theorem persist_setEtime (he : e < 2 ^ 64) (hne : e ≠ 0)
    (hlive : liveEntry cf key now = some m) (hfresh : isExpired e time = false) :
    ∃ raw, persist (encodeCF (cf.insert key (m.setEtime e))) key time = .ok (true, raw) ∧
      ttl raw key time = .ok (-1) := by
  have hfit' := allFit_insert_setEtime hfit hlive he
  have hlive' : liveEntry (cf.insert key (m.setEtime e)) key time = some (m.setEtime e) := by
    rw [liveEntry_insert_setEtime hlive, if_neg (Bool.eq_false_iff.1 hfresh)]
  refine ⟨encodeCF ((cf.insert key (m.setEtime e)).insert key ((m.setEtime e).setEtime 0)), ?_, ?_⟩
  · rw [persist_eq hfit', hlive']
    dsimp only
    rw [etime_setEtime, if_neg hne]
  · rw [ttl, timeToLive_setEtime hfit' (by norm_num) (by norm_num) hlive' rfl, if_pos rfl]

/-- The times to live of a key that `expire` has given a time to live, until it runs out. -/
theorem remaining_of_lt (hs : 0 < s)
    (hlive : liveEntry cf key (sec * 1000000) = some m) (hfits : expiryAt sec s < 2 ^ 64)
    (htime : sec * 1000000 ≤ time) (hlt : time < expiryAt sec s) :
    ∃ p : ℤ, pttl (expired cf key sec s) key time = .ok p ∧ 0 ≤ p ∧ p ≤ 1000 * s ∧
      ttl (expired cf key sec s) key time = .ok (p / 1000) ∧
      ∃ raw, persist (expired cf key sec s) key time = .ok (true, raw) ∧
        ttl raw key time = .ok (-1) := by
  have hfresh : isExpired (expiryAt sec s) time = false := by simp [isExpired, hlt.le]
  have hdistance := expiryAt_eq_seconds sec hs.le
  rw [expired_of_live hfit hs hlive hfits]
  refine ⟨((expiryAt sec s - time) / 1000 : ℕ), ?_, by positivity, by omega, ?_,
    persist_setEtime hfit hfits (by omega) hlive hfresh⟩
  · rw [pttl, timeToLive_setEtime hfit (by norm_num) hfits hlive hfresh, if_neg (by omega),
      if_neg (by omega)]
  · rw [ttl, timeToLive_setEtime hfit (by norm_num) hfits hlive hfresh, if_neg (by omega),
      if_neg (by omega)]
    congr 1
    omega

theorem agree_of_live_iff (hs : 0 < s) (hpos : 0 < sec + s)
    (hlive : liveEntry cf key (sec * 1000000) = some m) (htime : sec * 1000000 ≤ time)
    (hfits : expiryAt sec s < 2 ^ 64) :
    ExpiryCommandsAgree cf key sec s time ↔ time ≠ expiryAt sec s := by
  have hset : setKeyEtime (encodeCF cf) key (expiryAt sec s) (sec * 1000000) =
      .ok (true, encodeCF (cf.insert key (m.setEtime (expiryAt sec s)))) := by
    rw [setKeyEtime_eq hfit, hlive]
  have hseconds := (expire_of_pos hs hfits key).trans hset
  have hmilliseconds := (pexpire_of_pos hs hfits key).trans hset
  have hunix := (expireat_of_fits hpos hfits key).trans hset
  have hexpired := expired_of_live hfit hs hlive hfits
  have hne : expiryAt sec s ≠ 0 := by
    have := expiryAt_eq_seconds sec hs.le
    omega
  have hexists : keyExistsLive (expired cf key sec s) key time =
      .ok (!isExpired (expiryAt sec s) time) := by
    rw [hexpired, keyExistsLive_eq (allFit_insert_setEtime hfit hlive hfits),
      liveEntry_insert_setEtime hlive]
    cases isExpired (expiryAt sec s) time <;> rfl
  constructor
  · -- At the expiry time itself the key is live, but has no time to live.
    rintro h rfl
    have hfresh : isExpired (expiryAt sec s) (expiryAt sec s) = false := by simp [isExpired]
    obtain ⟨p, hp, hnonneg, -⟩ := h.remaining hs (hexists.trans (by rw [hfresh]; rfl))
    rw [hexpired, pttl, timeToLive_setEtime hfit (by norm_num) hfits hlive hfresh, if_neg hne,
      if_pos le_rfl] at hp
    have := Except.ok.inj hp
    omega
  intro hat
  constructor
  case milliseconds => rw [hmilliseconds, hseconds]
  case unix => rw [hunix, hseconds]
  case after_milliseconds => rw [hmilliseconds, hexpired, after]
  case after_unix => rw [hunix, hexpired, after]
  case dead => exact fun h ↦ absurd hs (not_lt.2 h)
  case live =>
    intro _ m' hm'
    rw [hexpired, Option.some.inj (hlive.symm.trans hm')]
  case remaining =>
    intro _ htrue
    refine remaining_of_lt hfit hs hlive hfits htime ?_
    have hfresh : isExpired (expiryAt sec s) time = false := by
      have := Except.ok.inj (hexists.symm.trans htrue)
      simpa using this
    rw [isExpired, Bool.and_eq_false_iff, bne_eq_false_iff_eq, decide_eq_false_iff_not] at hfresh
    omega

/-- `expire` and `pexpire` refuse the times that `expireat` stores as passed. -/
theorem not_agree_of_nonpos (hs : s ≤ 0) (hpos : 0 < sec + s)
    (hlive : liveEntry cf key (sec * 1000000) = some m) (hfits : expiryAt sec s < 2 ^ 64) :
    ¬ExpiryCommandsAgree cf key sec s time := by
  intro h
  have hunix := h.unix
  rw [expireat_of_fits hpos hfits, setKeyEtime_eq hfit, hlive, expire_of_nonpos hs] at hunix
  exact Bool.noConfusion (Except.ok.inj hunix)

end

theorem expiryAt_lt_of_nonpos (hclock : sec * 1000000 < 2 ^ 64) (hs : s ≤ 0) :
    expiryAt sec s < 2 ^ 64 := by
  have hle : (sec + s).toNat ≤ sec := by omega
  exact (Nat.mul_le_mul_right 1000000 hle).trans_lt hclock

/-- **The expiry commands** agree on a key that is not live unless the time overflows, and on a
live key if moreover the number of seconds is positive and the expiry time is not being looked at
in the very microsecond it names. -/
theorem expiry_commands_agree_iff (hfit : AllFit cf) (hclock : sec * 1000000 < 2 ^ 64)
    (hpos : 0 < sec + s) (htime : sec * 1000000 ≤ time) :
    ExpiryCommandsAgree cf key sec s time ↔
      expiryAt sec s < 2 ^ 64 ∧
        (liveEntry cf key (sec * 1000000) ≠ none → 0 < s ∧ time ≠ expiryAt sec s) := by
  rcases le_or_gt s 0 with hs | hs
  · -- a time that has passed fits, because the clock does
    have hfits := expiryAt_lt_of_nonpos hclock hs
    rcases hlive : liveEntry cf key (sec * 1000000) with _ | m
    · exact iff_of_true (agree_of_dead hfit hpos hlive htime hfits) ⟨hfits, fun h ↦ absurd rfl h⟩
    · refine iff_of_false (not_agree_of_nonpos hfit hs hpos hlive hfits) fun h ↦ ?_
      exact absurd (h.2 (Option.some_ne_none m)).1 (not_lt.2 hs)
  by_cases hfits : expiryAt sec s < 2 ^ 64
  · rcases hlive : liveEntry cf key (sec * 1000000) with _ | m
    · exact iff_of_true (agree_of_dead hfit hpos hlive htime hfits) ⟨hfits, fun h ↦ absurd rfl h⟩
    · rw [agree_of_live_iff hfit hs hpos hlive htime hfits]
      exact ⟨fun h ↦ ⟨hfits, fun _ ↦ ⟨hs, h⟩⟩, fun h ↦ (h.2 (Option.some_ne_none m)).2⟩
  · exact iff_of_false (fun h ↦ expire_ne_expireat_of_overflow hs hpos hfits key h.unix)
      fun h ↦ hfits h.1

end Agreement

/-- Ten seconds for the hash of three fields, looked at after two and a half. -/
theorem expiry_commands_agree_threeKeys :
    AllFit threeKeys ∧ ExpiryCommandsAgree threeKeys [1] 100 10 102500000 := by
  have hfit : AllFit threeKeys := by
    unfold AllFit
    decide
  exact ⟨hfit, (expiry_commands_agree_iff hfit (by norm_num) (by norm_num) (by norm_num)).2
    ⟨by decide, fun _ ↦ ⟨by norm_num, by decide⟩⟩⟩

/-- One second ago: `expire` and `pexpire` leave the hash as it is, and `expireat` ends it. -/
theorem expire_spares_what_expireat_ends :
    expire (encodeCF threeKeys) [1] (-1) 100000000 = .ok (false, encodeCF threeKeys) ∧
      pexpire (encodeCF threeKeys) [1] (-1000) 100000000 = .ok (false, encodeCF threeKeys) ∧
      keyExistsLive (encodeCF threeKeys) [1] 100000000 = .ok true ∧
      (expireat (encodeCF threeKeys) [1] 99 100000000).map Prod.fst = .ok true ∧
      keyExistsLive (after (encodeCF threeKeys) (expireat (encodeCF threeKeys) [1] 99 100000000))
        [1] 100000000 = .ok false := by
  refine ⟨expire_of_nonpos (by norm_num) _ _, ?_, ?_, ?_, ?_⟩
  · exact pexpire_of_nonpos (s := -1) (by norm_num) _ _
  all_goals decide +kernel

end Kiwi.Encoded
