import Kiwi.Correctness.StringRanges

/-!
# Writes into strings

`setbit`, `setrange` and `append` read the string, put a changed copy in its place, and keep its
creation and expiry time. A missing or stale key counts as an empty string without expiry.

`Replaced` is what all three do to the database; the rest is about the bytes. For `setbit` the only
fact needed is which bits a byte has after one of them was set (`withBit_and_ne_zero_iff`), which is
checked for all bytes.
-/

namespace Kiwi.StringWrites

open Strings StringRanges

variable {S : Type} [LinearOrder S] {db db' : Redis S} {key : Bytes} {now : ℕ} {old : StringsValue}

/-! ### The string that a write starts from -/

/-- The string at the key is replaced, with its times kept, and nothing else changes. -/
structure Replaced (db db' : Redis S) (key : Bytes) (old : StringsValue) (new : Bytes) : Prop where
  stored : db'.metaCF.get key = some (.string ⟨new, old.ctime, old.etime⟩)
  others : ∀ k, k ≠ key → db'.AgreeAt db k

theorem replaced_write (db : Redis S) (key : Bytes) (old : StringsValue) (new : Bytes) :
    Replaced db (db.write [putString key new old.ctime old.etime]) key old new where
  stored := Redis.get_metaCF_write_append db [] key _
  others _ hk := Redis.agreeAt_write_of_ne (meets_meta trivial) hk

section

variable (h : existing db key now = .ok old)

include h

theorem existing_of_live {v : StringsValue}
    (hlive : db.liveMeta key now = some (.string v)) : old = v := by
  rw [existing, Redis.stringValue, hlive] at h
  exact (Except.ok.inj h).symm

theorem existing_of_dead (hdead : db.liveMeta key now = none) : old = ⟨[], now, 0⟩ := by
  rw [existing, Redis.stringValue, hdead] at h
  exact (Except.ok.inj h).symm

theorem valueOf_of_existing :
    (∃ found, db.stringValue key now = .ok found) ∧ valueOf db key now = old.userValue := by
  rw [existing] at h
  rcases hv : db.stringValue key now with e | found
  · rw [hv] at h
    cases h
  · rw [hv] at h
    obtain rfl := Except.ok.inj h
    refine ⟨⟨found, rfl⟩, ?_⟩
    rw [valueOf, hv]
    cases found <;> rfl

section

variable {new : Bytes} (hr : Replaced db db' key old new)

include hr

theorem stringValue_of_replaced :
    db'.stringValue key now = .ok (some ⟨new, old.ctime, old.etime⟩) := by
  have hfresh : (MetaValue.string ⟨new, old.ctime, old.etime⟩).isStale now = false := by
    show isExpired old.etime now = false
    -- a new string has no expiry time, and that of a live one has not passed
    rcases hlive : db.liveMeta key now with _ | m
    · rw [existing_of_dead h hlive]
      rfl
    · rcases m with v | m | m
      · rw [existing_of_live h hlive]
        exact (Redis.liveMeta_eq_some_iff.1 hlive).2
      · rw [existing, Redis.stringValue, hlive] at h
        cases h
      · rw [existing, Redis.stringValue, hlive] at h
        cases h
  rw [Redis.stringValue, Redis.liveMeta_eq_some_iff.2 ⟨hr.stored, hfresh⟩]

theorem valueOf_of_replaced : valueOf db' key now = new := by
  rw [valueOf, stringValue_of_replaced h hr]

end

end

/-! ### Bits -/

theorem toBitVec_bitMask {k : ℕ} (hk : k < 8) : (bitMask k).toBitVec = BitVec.twoPow 8 (7 - k) := by
  interval_cases k <;> rfl

theorem and_bitMask_ne_zero_iff {k : ℕ} (hk : k < 8) (x : UInt8) :
    x &&& bitMask k ≠ 0 ↔ x.toBitVec.getLsbD (7 - k) = true := by
  have hmask : BitVec.twoPow 8 (7 - k) ≠ 0 := by interval_cases k <;> decide
  rw [ne_eq, ← UInt8.toBitVec_inj, UInt8.toBitVec_and, toBitVec_bitMask hk, BitVec.and_twoPow]
  split_ifs with h
  · exact iff_of_true hmask h
  · exact iff_of_false (fun hne ↦ hne rfl) h

/-- A byte with one bit set to zero or one. -/
def withBit (x : UInt8) (j : ℕ) (bit : ℤ) : UInt8 :=
  if bit = 1 then x ||| bitMask j else x &&& ~~~bitMask j

/-- **One bit of a byte** is set, and the others are kept. -/
theorem withBit_and_ne_zero_iff {j k : ℕ} (hj : j < 8) (hk : k < 8) (x : UInt8) (bit : ℤ) :
    withBit x j bit &&& bitMask k ≠ 0 ↔ if k = j then bit = 1 else x &&& bitMask k ≠ 0 := by
  have hsame : 7 - j = 7 - k ↔ k = j := by omega
  have hlt : 7 - j < 8 := by omega
  have hlt' : 7 - k < 8 := by omega
  rw [and_bitMask_ne_zero_iff hk, and_bitMask_ne_zero_iff hk, withBit]
  by_cases hbit : bit = 1
  · rw [if_pos hbit, UInt8.toBitVec_or, BitVec.getLsbD_or, toBitVec_bitMask hj,
      BitVec.getLsbD_twoPow]
    by_cases hkj : k = j
    · simp [hkj, hbit, hlt]
    · simp [hkj, hsame]
  · rw [if_neg hbit, UInt8.toBitVec_and, UInt8.toBitVec_not, BitVec.getLsbD_and, BitVec.getLsbD_not,
      toBitVec_bitMask hj, BitVec.getLsbD_twoPow]
    by_cases hkj : k = j
    · simp [hkj, hbit, hlt]
    · simp [hkj, hsame, hlt']

/-- The string that `setbit` stores. -/
def setBitAt (v : Bytes) (o : ℕ) (bit : ℤ) : Bytes :=
  let padded := v ++ List.replicate (o / 8 + 1 - v.length) 0
  padded.set (o / 8) (withBit (padded.getD (o / 8) 0) (o % 8) bit)

/-- Padding with zeros is not seen. -/
theorem getD_append_replicate (v : Bytes) (n i : ℕ) :
    (v ++ List.replicate n 0).getD i 0 = v.getD i 0 := by
  rw [List.getD_eq_getElem?_getD, List.getD_eq_getElem?_getD, List.getElem?_append]
  split_ifs with h
  · rfl
  · rw [List.getElem?_eq_none (not_lt.1 h), List.getElem?_replicate]
    split_ifs <;> rfl

section SetBit

variable (v : Bytes) (o : ℕ) (bit : ℤ)

theorem length_setBitAt : (setBitAt v o bit).length = max v.length (o / 8 + 1) := by
  rw [setBitAt, List.length_set, List.length_append, List.length_replicate]
  omega

/-- The byte of the offset changes, and only that one. -/
theorem getD_setBitAt (i : ℕ) : (setBitAt v o bit).getD i 0 =
    if i = o / 8 then withBit (v.getD i 0) (o % 8) bit else v.getD i 0 := by
  have hlength := length_setBitAt v o bit
  rw [setBitAt, List.length_set] at hlength
  rw [setBitAt, List.getD_eq_getElem?_getD, List.getElem?_set]
  by_cases hi : i = o / 8
  · subst hi
    rw [if_pos rfl, if_pos rfl, if_pos (by omega), Option.getD_some, getD_append_replicate]
  · rw [if_neg (Ne.symm hi), if_neg hi, ← List.getD_eq_getElem?_getD, getD_append_replicate]

theorem bitAt_setBitAt (hbit : bit = 0 ∨ bit = 1) (q : ℕ) :
    bitAt (setBitAt v o bit) q = if q = o then bit else bitAt v q := by
  have hj : o % 8 < 8 := Nat.mod_lt _ (by decide)
  have hk : q % 8 < 8 := Nat.mod_lt _ (by decide)
  rw [bitAt, getD_setBitAt]
  by_cases hbyte : q / 8 = o / 8
  · -- in the byte that changes, the mask tells the bits apart
    simp only [hbyte, if_true, withBit_and_ne_zero_iff hj hk]
    by_cases hq : q = o
    · subst hq
      rcases hbit with rfl | rfl <;> simp
    · have hne : q % 8 ≠ o % 8 := by omega
      simp only [hne, hq, if_false]
      rw [bitAt, hbyte]
  · have hne : q ≠ o := fun h ↦ hbyte (by rw [h])
    rw [if_neg hbyte, if_neg hne, bitAt]

end SetBit

variable {o : ℕ}

open Program in
/-- **Execution of `setbit`** with arguments that it takes. -/
theorem exec_setbit (h : existing db key now = .ok old) (ho : o < 2 ^ 32) {bit : ℤ}
    (hbit : bit = 0 ∨ bit = 1) :
    (setbit key o bit now).exec db = (.ok (bitAt old.userValue o),
      db.write [putString key (setBitAt old.userValue o bit) old.ctime old.etime]) := by
  rw [setbit, exec_ite, if_neg (by omega), exec_ite, if_neg (by omega), exec_ite, if_neg (by omega),
    exec_get_bind, h, exec_lift_ok_bind]
  rfl

/-! ### Ranges -/

variable {part : Bytes}

/-- A string with a part overwritten: padded with zeros up to it, then the part, then the rest. -/
theorem overwrite_eq (v : Bytes) (o : ℕ) : overwrite v o part =
    (v ++ List.replicate (o - v.length) 0).take o ++ part ++ v.drop (o + part.length) := by
  have hfront : (v ++ List.replicate (o + part.length - v.length) 0).take o =
      (v ++ List.replicate (o - v.length) 0).take o := by
    -- padding beyond the offset is cut off again
    rw [List.take_append, List.take_append, List.take_replicate, List.take_replicate]
    congr 2
    omega
  have hback : (v ++ List.replicate (o + part.length - v.length) 0).drop (o + part.length) =
      v.drop (o + part.length) := by
    rw [List.drop_append, List.drop_replicate, Nat.sub_self, List.replicate_zero, List.append_nil]
  rw [overwrite, hfront, hback]

theorem overwrite_length (v part : Bytes) : overwrite v v.length part = v ++ part := by
  rw [overwrite_eq, Nat.sub_self, List.replicate_zero, List.append_nil, List.take_length,
    List.drop_of_length_le (Nat.le_add_right ..), List.append_nil]

open Program in
/-- **Execution of `setrange`** with arguments that it takes. -/
theorem exec_setrange (h : existing db key now = .ok old) (hpart : part ≠ [])
    (hfits : o + part.length ≤ 2 ^ 31 - 1) :
    (setrange key o part now).exec db = (.ok (asI32 (overwrite old.userValue o part).length),
      db.write [putString key (overwrite old.userValue o part) old.ctime old.etime]) := by
  have hmax : i32Max = 2 ^ 31 - 1 := rfl
  have houtcome : (setrangeWithOutcome key o part now).exec db =
      (.ok (asI32 (overwrite old.userValue o part).length, true),
        db.write [putString key (overwrite old.userValue o part) old.ctime old.etime]) := by
    rw [setrangeWithOutcome, exec_ite, if_neg (by omega), exec_ite, if_neg (by rw [hmax]; omega),
      exec_get_bind, h, exec_lift_ok_bind]
    dsimp only
    rw [exec_ite, if_neg (by simp [hpart]), exec_ite, if_neg (by rw [hmax]; omega)]
    rfl
  rw [setrange, exec_bind_pure, houtcome]
  generalize asI32 (overwrite old.userValue o part).length = length
  rfl

open Program in
theorem exec_setrange_nil (h : existing db key now = .ok old)
    (hfits : old.userValue.length ≤ 2 ^ 31 - 1) :
    (setrange key old.userValue.length [] now).exec db = (.ok (asI32 old.userValue.length), db) := by
  have hmax : i32Max = 2 ^ 31 - 1 := rfl
  have houtcome : (setrangeWithOutcome key old.userValue.length [] now).exec db =
      (.ok (asI32 old.userValue.length, false), db) := by
    rw [setrangeWithOutcome, exec_ite, if_neg (by omega), exec_ite, if_neg (by rw [hmax]; omega),
      exec_get_bind, h, exec_lift_ok_bind]
    dsimp only
    rw [exec_ite, if_pos ⟨rfl, (asI32_of_lt (by omega)).ge⟩]
    rfl
  rw [setrange, exec_bind_pure, houtcome]
  generalize asI32 old.userValue.length = length
  rfl

open Program in
/-- **Execution of `append`** with an argument that it takes. -/
theorem exec_append (h : existing db key now = .ok old)
    (hfits : old.userValue.length + part.length ≤ 2 ^ 31 - 1) :
    (append key part now).exec db = (.ok (asI32 (old.userValue ++ part).length),
      db.write [putString key (old.userValue ++ part) old.ctime old.etime]) := by
  have hmax : i32Max = 2 ^ 31 - 1 := rfl
  rw [append, exec_get_bind, h, exec_lift_ok_bind]
  dsimp only
  rw [exec_ite, if_neg (by rw [hmax, List.length_append]; omega)]
  rfl

/-! ### All three writes -/

/-- `setbit` sets one bit. -/
structure SetsBit (db : Redis S) (key : Bytes) (old : StringsValue) (o : ℕ) (bit : ℤ) (now : ℕ) :
    Prop where
  answer : ((setbit key o bit now).exec db).1 = .ok (bitAt old.userValue o)
  here : getbit ((setbit key o bit now).exec db).2 key o now = .ok bit
  /-- All other bits are as they were. -/
  elsewhere : ∀ p : ℤ, p ≠ o →
    getbit ((setbit key o bit now).exec db).2 key p now = getbit db key p now
  /-- The string is as long as the bit needs it, and all other bytes are as they were, or zero. -/
  replaced : ∃ new, Replaced db ((setbit key o bit now).exec db).2 key old new ∧
    new.length = max old.userValue.length (o / 8 + 1) ∧
    ∀ i, i ≠ o / 8 → new.getD i 0 = old.userValue.getD i 0

/-- `setrange` writes a part of the string. -/
structure SetsRange (db : Redis S) (key : Bytes) (old : StringsValue) (o : ℕ) (part : Bytes)
    (now : ℕ) : Prop where
  /-- The old string up to the offset, the part, and the old string after it. -/
  replaced : Replaced db ((setrange key o part now).exec db).2 key old
    ((old.userValue ++ List.replicate (o - old.userValue.length) 0).take o ++ part ++
      old.userValue.drop (o + part.length))
  /-- The answer is the new length, as an `i32`. -/
  answer : ((setrange key o part now).exec db).1 =
    .ok (asI32 (max old.userValue.length (o + part.length) : ℕ))

/-- `append` is `setrange` at the end. -/
structure AppendsAtEnd (db : Redis S) (key : Bytes) (old : StringsValue) (part : Bytes) (now : ℕ) :
    Prop where
  answer : ((append key part now).exec db).1 =
    ((setrange key old.userValue.length part now).exec db).1
  /-- The strings are the same, where a missing key counts as an empty string. -/
  value : valueOf ((append key part now).exec db).2 key now =
    valueOf ((setrange key old.userValue.length part now).exec db).2 key now
  /-- The databases are the same if there is something to append. -/
  database : part ≠ [] → ((append key part now).exec db).2 =
    ((setrange key old.userValue.length part now).exec db).2
  /-- The part follows the old string, whose times are kept. -/
  replaced : Replaced db ((append key part now).exec db).2 key old (old.userValue ++ part)

theorem getbit_congr (h : ∃ found, db.stringValue key now = .ok found)
    (h' : ∃ found, db'.stringValue key now = .ok found) {p : ℤ}
    (hbit : 0 ≤ p → bitAt (valueOf db' key now) p.toNat = bitAt (valueOf db key now) p.toNat) :
    getbit db' key p now = getbit db key p now := by
  obtain ⟨found, h⟩ := h
  obtain ⟨found', h'⟩ := h'
  have hnil : ∀ q, bitAt [] q = 0 := fun q ↦ by simp [bitAt]
  rw [getbit, getbit]
  by_cases hneg : p < 0
  · rw [if_pos hneg, if_pos hneg]
  rw [if_neg hneg, if_neg hneg]
  replace hbit := hbit (not_lt.1 hneg)
  rw [valueOf, valueOf, h, h'] at hbit
  rw [h, h']
  by_cases hmax : p > 2 ^ 32 - 1
  · rw [if_pos hmax, if_pos hmax]
  rw [if_neg hmax, if_neg hmax, Program.except_ok_bind, Program.except_ok_bind]
  -- a missing key answers zero, like the empty string
  rcases found with _ | v <;> rcases found' with _ | v'
  · rfl
  · exact congrArg Except.ok (hbit.trans (hnil _))
  · exact congrArg Except.ok ((hnil _).symm.trans hbit)
  · exact congrArg Except.ok hbit

section

variable (h : existing db key now = .ok old)

include h

theorem setsBit (ho : o < 2 ^ 32) {bit : ℤ}
    (hbit : bit = 0 ∨ bit = 1) : SetsBit db key old o bit now := by
  have hexec := exec_setbit h ho hbit
  have hreplaced := replaced_write db key old (setBitAt old.userValue o bit)
  obtain ⟨hfound, hvalue⟩ := valueOf_of_existing h
  have hnew := stringValue_of_replaced h hreplaced
  have hvalue' := valueOf_of_replaced h hreplaced
  refine ⟨by rw [hexec], ?_, fun p hp ↦ ?_, ?_⟩
  · rw [hexec, getbit_eq hnew, hvalue', bitAt_setBitAt _ _ _ hbit, if_pos rfl]
    exact ⟨ho, rfl⟩
  · rw [hexec]
    refine getbit_congr hfound ⟨_, hnew⟩ fun hle ↦ ?_
    rw [hvalue', hvalue, bitAt_setBitAt _ _ _ hbit, if_neg (by omega)]
  · rw [hexec]
    refine ⟨_, hreplaced, length_setBitAt .., fun i hi ↦ ?_⟩
    rw [getD_setBitAt, if_neg hi]

theorem setsRange (hpart : part ≠ [])
    (hfits : o + part.length ≤ 2 ^ 31 - 1) : SetsRange db key old o part now := by
  have hexec := exec_setrange h hpart hfits
  constructor
  · rw [hexec, ← overwrite_eq]
    exact replaced_write ..
  · rw [hexec, overwrite_eq]
    simp only [List.length_append, List.length_take, List.length_drop, List.length_replicate]
    congr 3
    omega

theorem appendsAtEnd (hfits : old.userValue.length + part.length ≤ 2 ^ 31 - 1) :
    AppendsAtEnd db key old part now := by
  have hexec := exec_append h hfits
  have hreplaced := replaced_write db key old (old.userValue ++ part)
  by_cases hpart : part = []
  · subst hpart
    have hnothing := exec_setrange_nil h (by omega)
    rw [List.append_nil] at hexec hreplaced
    refine ⟨by rw [hexec, hnothing], ?_, fun hne ↦ absurd rfl hne, ?_⟩
    · rw [hexec, hnothing, valueOf_of_replaced h hreplaced, (valueOf_of_existing h).2]
    · rw [hexec, List.append_nil]
      exact hreplaced
  · have hrange := exec_setrange h hpart hfits
    rw [overwrite_length] at hrange
    have hsame := hexec.trans hrange.symm
    refine ⟨by rw [hsame], by rw [hsame], fun _ ↦ by rw [hsame], ?_⟩
    rw [hexec]
    exact hreplaced

end

/-- **Writes into strings touch only their target.** For every string or missing key, with any
expiry, and all arguments that the commands take: `setbit` sets one bit, `setrange` writes one part,
and `append` is `setrange` at the end. All three start from the string of a live key and keep its
times, and from an empty string without expiry if the key is missing or stale. -/
theorem writes_touch_only_their_target (db : Redis S) (key : Bytes) (now : ℕ) (old : StringsValue)
    (hold : existing db key now = .ok old) :
    (∀ o bit, o < 2 ^ 32 → bit = 0 ∨ bit = 1 → SetsBit db key old o bit now) ∧
      (∀ o part, part ≠ [] → o + part.length ≤ 2 ^ 31 - 1 → SetsRange db key old o part now) ∧
      (∀ part, old.userValue.length + part.length ≤ 2 ^ 31 - 1 →
        AppendsAtEnd db key old part now) ∧
      (∀ v, db.liveMeta key now = some (.string v) → old = v) ∧
      (db.liveMeta key now = none → old = ⟨[], now, 0⟩) :=
  ⟨fun _ _ ho hbit ↦ setsBit hold ho hbit, fun _ _ hpart hfits ↦ setsRange hold hpart hfits,
    fun _ hfits ↦ appendsAtEnd hold hfits, fun _ ↦ existing_of_live hold, existing_of_dead hold⟩

/-- A letter that expires. -/
def expiringLetter : Redis ℤ := ((setKeyEtime [1] 100 1).exec letterA).2

/-- Writes beyond the end of a string that expires. -/
theorem writes_touch_expiringLetter :
    existing expiringLetter [1] 2 = .ok ⟨[97], 1, 100⟩ ∧
      SetsBit expiringLetter [1] ⟨[97], 1, 100⟩ 20 1 2 ∧
      SetsRange expiringLetter [1] ⟨[97], 1, 100⟩ 3 [98] 2 ∧
      AppendsAtEnd expiringLetter [1] ⟨[97], 1, 100⟩ [98] 2 := by
  have hold : existing expiringLetter [1] 2 = .ok ⟨[97], 1, 100⟩ := rfl
  obtain ⟨hbit, hrange, happend, -⟩ :=
    writes_touch_only_their_target expiringLetter [1] 2 ⟨[97], 1, 100⟩ hold
  exact ⟨hold, hbit 20 1 (by norm_num) (Or.inr rfl), hrange 3 [98] (by simp) (by decide),
    happend [98] (by decide)⟩

end Kiwi.StringWrites
