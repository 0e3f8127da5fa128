import Kiwi.Storage.Strings

/-!
# Ranges of strings

`getrange`, `bitcount` and `bitpos` take a start and an end that may be negative, and each brings
them into the string in its own way.

* `getrange` rejects a reversed pair of negative indexes, and then moves an index before the
  beginning to the first byte.
* `bitcount` and `bitpos` move a start before the beginning to the first byte, but an end before the
  beginning to `-1`, so that nothing is left.
* `bitpos` moves a start after the end to the last byte, where `getrange` finds nothing.

`Selected` is the range of `getrange`. `bitcount_counts_getrange_iff` and `bitpos_finds_iff` say for
which strings and indexes the other two agree with it. Moreover `bitpos` answers `0` when it looks
for a zero and finds none.
-/

namespace Kiwi.StringRanges

open Strings

variable {S : Type} [LinearOrder S] {db : Redis S} {key : Bytes} {now : ℕ} {v : Bytes} {a b : ℤ}

/-- The string at a key, empty if the key is missing. -/
def valueOf (db : Redis S) (key : Bytes) (now : ℕ) : Bytes :=
  match db.stringValue key now with
  | .ok (some v) => v.userValue
  | _ => []

/-! ### The range of `getrange` -/

/-- A negative index counts from the end, and one before the beginning is moved there. -/
def normalize (len : ℕ) (index : ℤ) : ℤ := if index < 0 then max (len + index) 0 else index

theorem normalize_nonneg (len : ℕ) (index : ℤ) : 0 ≤ normalize len index := by
  rw [normalize]
  split_ifs <;> omega

/-- The first selected byte. -/
def first (len : ℕ) (a : ℤ) : ℕ := (min (normalize len a) len).toNat

/-- The end of the selected bytes, before any byte for a reversed pair of negative indexes. -/
def past (len : ℕ) (a b : ℤ) : ℕ :=
  if a < 0 ∧ b < 0 ∧ a > b then 0 else (min (normalize len b) (len - 1) + 1).toNat

/-- The selected bytes. -/
def slice (v : Bytes) (a b : ℤ) : Bytes := (v.take (past v.length a b)).drop (first v.length a)

@[simp] theorem slice_nil (a b : ℤ) : slice [] a b = [] := by
  rw [slice, List.take_nil, List.drop_nil]

variable {found : Option StringsValue}

/-- **`getrange`** returns the selected bytes. -/
theorem getrange_eq (h : db.stringValue key now = .ok found)
    (a b : ℤ) : getrange db key a b now = .ok (slice (valueOf db key now) a b) := by
  rw [getrange, valueOf, h, Program.except_ok_bind]
  rcases found with _ | ⟨v, ctime, etime⟩
  · exact congrArg Except.ok (slice_nil a b).symm
  dsimp only
  by_cases hempty : (v.length : ℤ) = 0
  · rw [if_pos hempty, List.length_eq_zero_iff.1 (by omega : v.length = 0), slice_nil]
    rfl
  rw [if_neg hempty]
  by_cases hreject : a < 0 ∧ b < 0 ∧ a > b
  · rw [if_pos hreject, slice, past, if_pos hreject, List.take_zero, List.drop_nil]
    rfl
  rw [if_neg hreject, slice, past, if_neg hreject, first]
  by_cases horder : min (normalize v.length a) v.length > min (normalize v.length b) (v.length - 1)
  · refine (if_pos horder).trans (congrArg Except.ok (List.drop_eq_nil_of_le ?_).symm)
    rw [List.length_take]
    omega
  · exact if_neg horder

/-- The bit is in a selected byte. -/
def Selected (v : Bytes) (a b : ℤ) (q : ℕ) : Prop :=
  first v.length a ≤ q / 8 ∧ q / 8 < past v.length a b

variable {q : ℕ}

theorem selected_iff : Selected v a b q ↔
    ¬(a < 0 ∧ b < 0 ∧ a > b) ∧ normalize v.length a ≤ (q / 8 : ℕ) ∧
      ((q / 8 : ℕ) : ℤ) ≤ normalize v.length b ∧ q / 8 < v.length := by
  have ha := normalize_nonneg v.length a
  have hb := normalize_nonneg v.length b
  rw [Selected, first, past]
  by_cases hreject : a < 0 ∧ b < 0 ∧ a > b
  · rw [if_pos hreject]
    exact iff_of_false (fun h ↦ Nat.not_lt_zero _ h.2) fun h ↦ h.1 hreject
  · rw [if_neg hreject]
    simp only [hreject, not_false_eq_true, true_and]
    omega

theorem not_selected_of_le (h : (v.length : ℤ) ≤ a) (q : ℕ) : ¬Selected v a b q := by
  intro hq
  obtain ⟨-, hstart, -, hlen⟩ := selected_iff.1 hq
  rw [normalize, if_neg (by omega)] at hstart
  omega

theorem div_eq_zero_of_selected (h : b < -v.length) (hq : Selected v a b q) : q / 8 = 0 := by
  obtain ⟨-, -, hend, -⟩ := selected_iff.1 hq
  rw [normalize, if_pos (by omega)] at hend
  omega

/-! ### `bitcount` -/

/-- The number of one bits. -/
def ones (bytes : Bytes) : ℕ := (bytes.map countOnes).sum

/-- The end that `bitcount` and `bitpos` use: before the beginning it is `-1`. -/
def stopIndex (len : ℕ) (b : ℤ) : ℤ := if b < 0 then max (len + b) (-1) else b

theorem stopIndex_eq_normalize {len : ℕ} (h : -len ≤ b) : stopIndex len b = normalize len b := by
  rw [stopIndex, normalize]
  split_ifs <;> omega

theorem slice_eq_nil (h : normalize v.length b < normalize v.length a) : slice v a b = [] := by
  have hb := normalize_nonneg v.length b
  refine List.drop_eq_nil_of_le ?_
  rw [List.length_take, first, past]
  split_ifs <;> omega

/-- Ordered ranges are cut the way `bitcount` does it. -/
theorem slice_eq_of_ordered (hstop : -v.length ≤ b)
    (h : normalize v.length a ≤ normalize v.length b) :
    slice v a b = (v.take (min (max (normalize v.length b) (-1)).toNat (v.length - 1) + 1)).drop
      (min (max (normalize v.length a) 0).toNat v.length) := by
  have hs := normalize_nonneg v.length a
  have he := normalize_nonneg v.length b
  -- a pair that `getrange` rejects is reversed
  have hreject : ¬(a < 0 ∧ b < 0 ∧ a > b) := by
    rintro ⟨ha0, hb0, hab⟩
    rw [normalize, normalize, if_pos ha0, if_pos hb0] at h
    omega
  by_cases hv : v.length = 0
  · rw [List.length_eq_zero_iff.1 hv]
    simp
  rw [slice, past, if_neg hreject, first]
  congr 2 <;> omega

/-- **`bitcount`** of a range given by both ends: nothing for an end before the beginning. -/
theorem bitcount_eq (h : db.stringValue key now = .ok found)
    (ha : a < 2 ^ 63) (hb : b < 2 ^ 63) (hlen : (valueOf db key now).length < 2 ^ 63) :
    bitcount db key (some a) (some b) now =
      .ok (if b < -(valueOf db key now).length then 0
        else ones (slice (valueOf db key now) a b)) := by
  rw [bitcount, h, Program.except_ok_bind]
  rw [valueOf, h] at hlen ⊢
  rcases found with _ | ⟨v, ctime, etime⟩
  · simp [ones, pure, Except.pure]
  dsimp only [Option.getD_some, Option.isSome_some, Option.isNone_some] at hlen ⊢
  simp only [or_self, true_and, Bool.false_eq_true, and_self, if_false]
  have hfold : (if a < 0 then max ((v.length : ℤ) + a) 0 else a) = normalize v.length a := rfl
  have hstop : (if b < 0 then max ((v.length : ℤ) + b) (-1) else b) = stopIndex v.length b := rfl
  rw [hfold, hstop]
  have hs := normalize_nonneg v.length a
  have he := normalize_nonneg v.length b
  have hsmall : normalize v.length a < 2 ^ 63 ∧ normalize v.length b < 2 ^ 63 := by
    constructor <;> rw [normalize] <;> split_ifs <;> omega
  by_cases hearly : b < -v.length
  · have hminus : stopIndex v.length b = -1 := by
      rw [stopIndex, if_pos (by omega)]
      omega
    rw [if_pos hearly, hminus, if_pos (by omega)]
    rfl
  rw [if_neg hearly, stopIndex_eq_normalize (not_lt.1 hearly)]
  by_cases horder : normalize v.length a > normalize v.length b
  · rw [if_pos horder, slice_eq_nil horder]
    rfl
  rw [if_neg horder, asU64_of_nonneg (by omega) (by omega), asU64_of_nonneg (by omega) (by omega)]
  have hslice := slice_eq_of_ordered (not_lt.1 hearly) (not_lt.1 horder)
  split_ifs with hpast
  · refine congrArg Except.ok ?_
    rw [hslice, List.drop_eq_nil_of_le]
    · rfl
    · rw [List.length_take]
      omega
  · rw [hslice]
    rfl

/-- **`bitcount` counts what `getrange` returns**, for every string or missing key and all 64-bit
indexes, exactly when the end is not before the beginning, or there is no one bit to count. -/
theorem bitcount_counts_getrange_iff (db : Redis S) (key : Bytes) (now : ℕ) (a b : ℤ)
    (hstring : ∃ found, db.stringValue key now = .ok found)
    (ha : a < 2 ^ 63) (hb : b < 2 ^ 63) (hlen : (valueOf db key now).length < 2 ^ 63) :
    (∃ bytes, getrange db key a b now = .ok bytes ∧
        bitcount db key (some a) (some b) now = .ok (ones bytes : ℤ)) ↔
      -((valueOf db key now).length : ℤ) ≤ b ∨ ones (slice (valueOf db key now) a b) = 0 := by
  obtain ⟨found, h⟩ := hstring
  rw [getrange_eq h, bitcount_eq h ha hb hlen]
  constructor
  · rintro ⟨_, heq, hcount⟩
    obtain rfl := Except.ok.inj heq
    by_cases hearly : b < -((valueOf db key now).length : ℤ)
    · rw [if_pos hearly] at hcount
      exact Or.inr (by exact_mod_cast (Except.ok.inj hcount).symm)
    · exact Or.inl (not_lt.1 hearly)
  · intro hcond
    refine ⟨_, rfl, congrArg Except.ok ?_⟩
    split_ifs with hearly
    · rw [hcond.resolve_left (not_le.2 hearly)]
      rfl
    · rfl

/-- A string of one byte with three one bits. -/
def letterA : Redis ℤ := ((set [1] [97] 1).exec .empty).2

theorem bitcount_counts_letter :
    ∃ bytes, getrange letterA [1] (-100) (-1) 2 = .ok bytes ∧
      bitcount letterA [1] (some (-100)) (some (-1)) 2 = .ok (ones bytes : ℤ) := by
  have hfound : letterA.stringValue [1] 2 = .ok (some ⟨[97], 1, 0⟩) := rfl
  have hvalue : valueOf letterA [1] 2 = [97] := by rw [valueOf, hfound]
  exact (bitcount_counts_getrange_iff letterA [1] 2 (-100) (-1) ⟨_, hfound⟩ (by norm_num)
    (by norm_num) (by rw [hvalue]; norm_num)).2 (Or.inl (by rw [hvalue]; decide))

/-- **Both indexes before the beginning**: `getrange` returns the first byte, and `bitcount` counts
nothing. -/
theorem bitcount_misses_first_byte :
    (getrange letterA [1] (-100) (-50) 2).toOption = some [97] ∧ ones [97] = 3 ∧
      (bitcount letterA [1] (some (-100)) (some (-50)) 2).toOption = some 0 :=
  ⟨by decide +kernel, by decide +kernel, by decide +kernel⟩

/-! ### `bitpos` -/

/-- The first byte that is searched: a start after the end is moved to the last byte. -/
def searchStart (len : ℕ) (a : ℤ) : ℤ := min (max (normalize len a) 0) (len - 1)

/-- The last byte that is searched. -/
def searchStop (len : ℕ) (b : ℤ) : ℤ := min (max (stopIndex len b) (-1)) (len - 1)

/-- The answer when nothing is found. -/
def notFound (bit : ℤ) : ℤ := if bit = 1 then -1 else 0

/-- The bit is in a byte that is searched. -/
def Searched (v : Bytes) (a b : ℤ) (q : ℕ) : Prop :=
  searchStart v.length a ≤ (q / 8 : ℕ) ∧ ((q / 8 : ℕ) : ℤ) ≤ searchStop v.length b

/-- The first position in a range that holds the bit. -/
structure IsFirst (R : ℕ → Prop) (v : Bytes) (bit : ℤ) (q : ℕ) : Prop where
  mem : R q
  holds : bitAt v q = bit
  /-- No earlier position of the range does. -/
  least : ∀ j < q, R j → bitAt v j ≠ bit

variable {bit : ℤ}

theorem IsFirst.eq {R : ℕ → Prop} {p q : ℕ} (hp : IsFirst R v bit p)
    (hq : IsFirst R v bit q) : p = q := by
  rcases lt_trichotomy p q with hlt | heq | hlt
  · exact absurd hp.holds (hq.least p hlt hp.mem)
  · exact heq
  · exact absurd hq.holds (hp.least q hlt hq.mem)

theorem bitAt_eq (v : Bytes) (q : ℕ) : bitAt v q = 0 ∨ bitAt v q = 1 := by
  rw [bitAt]
  split_ifs
  · exact Or.inr rfl
  · exact Or.inl rfl

/-- **`bitpos`** in bytes: an absent end is the last byte. -/
theorem bitpos_eq (h : db.stringValue key now = .ok found)
    (hbit : bit = 0 ∨ bit = 1) (start stop : Option ℤ) :
    bitpos db key bit start stop false now =
      .ok ((findBit (valueOf db key now) bit
        (searchStart (valueOf db key now).length (start.getD 0) * 8)
        (searchStop (valueOf db key now).length (stop.getD (-1)) * 8 + 7)).getD (notFound bit)) := by
  have hnil : ∀ s e, findBit [] bit s e = none := by
    intro s e
    rw [findBit, List.find?_eq_none]
    simp
  rw [bitpos, if_neg (by omega), valueOf, h, Program.except_ok_bind]
  rcases found with _ | ⟨v, ctime, etime⟩
  · dsimp only
    rw [hnil]
    rfl
  dsimp only [Bool.false_eq_true, if_false]
  by_cases hempty : v.isEmpty = true
  · rw [if_pos hempty, List.isEmpty_iff.1 hempty, hnil]
    rfl
  rw [if_neg hempty]
  have hpos : 0 < v.length := List.length_pos_iff.2 (by simpa using hempty)
  have hstart : (if start.getD 0 < 0 then max ((v.length : ℤ) + start.getD 0) 0 else start.getD 0) =
      normalize v.length (start.getD 0) := rfl
  have hstop : (if stop.getD (v.length - 1) < 0 then max ((v.length : ℤ) + stop.getD (v.length - 1))
      (-1) else stop.getD (v.length - 1)) = stopIndex v.length (stop.getD (-1)) := by
    rcases stop with _ | b
    · rw [Option.getD_none, Option.getD_none, stopIndex]
      split_ifs <;> omega
    · rfl
  simp only [Bool.false_eq_true, if_false]
  rw [hstart, hstop]
  show (if searchStart v.length (start.getD 0) > searchStop v.length (stop.getD (-1)) then _ else _) =
    _
  by_cases horder : searchStart v.length (start.getD 0) > searchStop v.length (stop.getD (-1))
  · -- the range of bits is empty too
    have hzero : (searchStop v.length (stop.getD (-1)) * 8 + 7 -
        searchStart v.length (start.getD 0) * 8 + 1).toNat = 0 := by omega
    rw [if_pos horder, findBit, hzero]
    rfl
  · rw [if_neg horder]
    rfl

section Search

variable {bit : ℤ}

theorem searched_iff : Searched v a b q ↔
    searchStart v.length a * 8 ≤ q ∧ (q : ℤ) ≤ searchStop v.length b * 8 + 7 := by
  rw [Searched]
  omega

theorem length_of_searched (h : Searched v a b q) : q / 8 < v.length := by
  have hle := h.2
  rw [searchStop] at hle
  omega

theorem findBit_eq (bit : ℤ) (hpos : 0 < v.length) :
    ∃ s n : ℕ, (∀ q, Searched v a b q ↔ s ≤ q ∧ q < s + n) ∧
      findBit v bit (searchStart v.length a * 8) (searchStop v.length b * 8 + 7) =
        ((List.range n).find? fun i ↦ (s + i) / 8 < v.length ∧ bitAt v (s + i) = bit).map
          fun i ↦ ((s + i : ℕ) : ℤ) := by
  have hs : 0 ≤ searchStart v.length a := by
    rw [searchStart]
    omega
  -- the start is not negative, so the offsets of the search count up from a natural number
  obtain ⟨s, hs⟩ := Int.eq_ofNat_of_zero_le (by omega : 0 ≤ searchStart v.length a * 8)
  refine ⟨s, (searchStop v.length b * 8 + 7 - s + 1).toNat, fun q ↦ ?_, ?_⟩
  · rw [searched_iff, hs]
    omega
  · rw [hs, findBit, List.find?_map]
    rfl

theorem findBit_eq_some_iff (hpos : 0 < v.length) {p : ℤ} :
    findBit v bit (searchStart v.length a * 8) (searchStop v.length b * 8 + 7) = some p ↔
      ∃ q : ℕ, p = q ∧ IsFirst (Searched v a b) v bit q := by
  obtain ⟨s, n, hsearched, hfind⟩ := findBit_eq (a := a) (b := b) bit hpos
  rw [hfind, Option.map_eq_some_iff]
  constructor
  · rintro ⟨i, hi, rfl⟩
    obtain ⟨hholds, hrange, hleast⟩ := List.find?_range_eq_some.1 hi
    rw [decide_eq_true_eq] at hholds
    refine ⟨s + i, rfl, (hsearched _).2 ⟨Nat.le_add_right s i, ?_⟩, hholds.2, fun j hj hmem hat ↦ ?_⟩
    · exact Nat.add_lt_add_left (List.mem_range.1 hrange) s
    · obtain ⟨hle, -⟩ := (hsearched j).1 hmem
      have hno := hleast (j - s) (by omega)
      rw [Nat.add_sub_cancel' hle] at hno
      simp [hat, length_of_searched hmem] at hno
  · rintro ⟨q, rfl, hq⟩
    obtain ⟨hle, hlt⟩ := (hsearched q).1 hq.mem
    refine ⟨q - s, List.find?_range_eq_some.2 ⟨?_, List.mem_range.2 (by omega), fun j hj ↦ ?_⟩, ?_⟩
    · rw [Nat.add_sub_cancel' hle]
      exact decide_eq_true ⟨length_of_searched hq.mem, hq.holds⟩
    · have hne := hq.least (s + j) (by omega) ((hsearched _).2 ⟨by omega, by omega⟩)
      simp [hne]
    · rw [Nat.add_sub_cancel' hle]

theorem findBit_eq_none_iff (hpos : 0 < v.length) :
    findBit v bit (searchStart v.length a * 8) (searchStop v.length b * 8 + 7) = none ↔
      ∀ q, Searched v a b q → bitAt v q ≠ bit := by
  obtain ⟨s, n, hsearched, hfind⟩ := findBit_eq (a := a) (b := b) bit hpos
  rw [hfind, Option.map_eq_none_iff, List.find?_range_eq_none]
  constructor
  · intro h q hmem hat
    obtain ⟨hle, hlt⟩ := (hsearched q).1 hmem
    have hno := h (q - s) (by omega)
    rw [Nat.add_sub_cancel' hle] at hno
    simp [hat, length_of_searched hmem] at hno
  · intro h i hi
    have hne := h (s + i) ((hsearched _).2 ⟨by omega, by omega⟩)
    simp [hne]

/-! ### Where the search differs from the selection -/

theorem searched_iff_selected (ha : a < v.length) (hb : -v.length ≤ b) :
    Searched v a b q ↔ Selected v a b q := by
  have hs := normalize_nonneg v.length a
  rw [selected_iff, Searched, searchStart, searchStop, stopIndex_eq_normalize hb]
  simp only [normalize] at hs ⊢
  split_ifs at hs ⊢ <;> omega

theorem searched_of_le (ha : (v.length : ℤ) ≤ a) :
    Searched v a b q ↔ q / 8 + 1 = v.length ∧ (b = -1 ∨ (v.length : ℤ) ≤ b + 1) := by
  have hstart : normalize v.length a = a := if_neg (by omega)
  rw [Searched, searchStart, searchStop, hstart, stopIndex]
  split_ifs <;> omega

theorem not_searched_of_lt (hb : b < -v.length) (q : ℕ) : ¬Searched v a b q := by
  rintro ⟨-, hle⟩
  rw [searchStop, stopIndex, if_pos (by omega)] at hle
  omega

theorem selected_zero (hb : b < -v.length) (hq : Selected v a b q) : Selected v a b 0 := by
  have hzero := div_eq_zero_of_selected hb hq
  rw [Selected, hzero] at hq
  exact hq

end Search

/-! ### When the answer is right -/

section Right

variable {bit r : ℤ} {both : Prop}

/-- The answer `r` is right for a range, which may be given by both ends. -/
def Right (v : Bytes) (bit a b : ℤ) (both : Prop) (r : ℤ) : Prop :=
  (both → 0 ≤ r → r.toNat < 2 ^ 32 ∧ IsFirst (Selected v a b) v bit r.toNat) ∧
    (r = -1 ↔ ∀ q, Selected v a b q → bitAt v q ≠ bit)

/-- The answer of a search. -/
def answer (v : Bytes) (bit a b : ℤ) : ℤ :=
  (findBit v bit (searchStart v.length a * 8) (searchStop v.length b * 8 + 7)).getD (notFound bit)

theorem ne_one_iff : bitAt v q ≠ 1 ↔ bitAt v q = 0 := by
  rcases bitAt_eq v q with h | h <;> simp [h]

/-- Where nothing is found, a one bit was rightly not found if there is none in the range, and a
zero bit never. -/
theorem right_notFound (hbit : bit = 0 ∨ bit = 1) : Right v bit a b both (notFound bit) ↔
    (bit = 1 → ∀ q, Selected v a b q → bitAt v q = 0) ∧
      (bit = 0 → (∃ q, Selected v a b q ∧ bitAt v q = 0) ∧
        (both → IsFirst (Selected v a b) v 0 0)) := by
  rcases hbit with rfl | rfl
  · have hnone : notFound 0 = 0 := rfl
    rw [Right, hnone]
    simp
    tauto
  · have hnone : notFound 1 = -1 := rfl
    rw [Right, hnone]
    simp [ne_one_iff]

section

variable (hbit : bit = 0 ∨ bit = 1) (hpos : 0 < v.length)

include hbit hpos

theorem right_of_searched (ha : a < v.length)
    (hb : -v.length ≤ b) : Right v bit a b both (answer v bit a b) ↔
      (bit = 0 → ∃ q, Selected v a b q ∧ bitAt v q = 0) ∧
        (both → ∀ q, IsFirst (Selected v a b) v bit q → q < 2 ^ 32) := by
  have hsame : Searched v a b = Selected v a b :=
    funext fun q ↦ propext (searched_iff_selected ha hb)
  rcases hfind : findBit v bit (searchStart v.length a * 8) (searchStop v.length b * 8 + 7) with
    _ | p
  · have hno := (findBit_eq_none_iff hpos).1 hfind
    rw [hsame] at hno
    -- a search that fails is right about a one bit, and wrong about a zero bit
    rw [answer, hfind, Option.getD_none, right_notFound hbit]
    constructor
    · rintro ⟨-, hzero⟩
      exact ⟨fun h0 ↦ (hzero h0).1, fun _ q hq ↦ absurd hq.holds (hno q hq.mem)⟩
    · rintro ⟨hzero, -⟩
      refine ⟨fun h1 q hq ↦ ne_one_iff.1 (h1 ▸ hno q hq), fun h0 ↦ ?_⟩
      obtain ⟨q, hq, hat⟩ := hzero h0
      exact absurd (hat.trans h0.symm) (hno q hq)
  · obtain ⟨q, rfl, hq⟩ := (findBit_eq_some_iff hpos).1 hfind
    rw [hsame] at hq
    rw [answer, hfind, Option.getD_some, Right, Int.toNat_natCast]
    constructor
    · rintro ⟨hfound, -⟩
      refine ⟨fun h0 ↦ ⟨q, hq.mem, hq.holds.trans h0⟩, fun hboth q' hq' ↦ ?_⟩
      rw [hq'.eq hq]
      exact (hfound hboth (Int.natCast_nonneg q)).1
    · rintro ⟨-, hoffset⟩
      refine ⟨fun hboth _ ↦ ⟨hoffset hboth q hq, hq⟩, iff_of_false (by omega) fun hno ↦ ?_⟩
      exact hno q hq.mem hq.holds

/-- A start after the end: the last byte is searched, and nothing is selected. -/
theorem right_of_late (ha : (v.length : ℤ) ≤ a) :
    Right v bit a b both (answer v bit a b) ↔ bit = 1 ∧
      ((b = -1 ∨ (v.length : ℤ) ≤ b + 1) → ∀ q, q / 8 + 1 = v.length → bitAt v q = 0) := by
  have hempty : ∀ q, ¬Selected v a b q := not_selected_of_le ha
  have hright : ∀ r, Right v bit a b both r ↔ r = -1 := by
    intro r
    rw [Right]
    constructor
    · rintro ⟨-, hiff⟩
      exact hiff.2 fun q hq ↦ absurd hq (hempty q)
    · rintro rfl
      exact ⟨fun _ hle ↦ absurd hle (by decide), iff_of_true rfl fun q hq ↦ absurd hq (hempty q)⟩
  rw [hright, answer]
  rcases hfind : findBit v bit (searchStart v.length a * 8) (searchStop v.length b * 8 + 7) with
    _ | p
  · have hno := (findBit_eq_none_iff hpos).1 hfind
    rw [Option.getD_none]
    rcases hbit with rfl | rfl
    · exact iff_of_false (by decide) fun h ↦ absurd h.1 (by decide)
    · refine iff_of_true rfl ⟨rfl, fun hlast q hq ↦ ?_⟩
      exact ne_one_iff.1 (hno q ((searched_of_le ha).2 ⟨hq, hlast⟩))
  · obtain ⟨q, rfl, hq⟩ := (findBit_eq_some_iff hpos).1 hfind
    obtain ⟨hlast, hstop⟩ := (searched_of_le ha).1 hq.mem
    rw [Option.getD_some]
    refine iff_of_false (by omega) ?_
    rintro ⟨rfl, hzero⟩
    exact ne_one_iff.2 (hzero hstop q hlast) hq.holds

/-- An end before the beginning: nothing is searched, and the first byte may be selected. -/
theorem right_of_early (hb : b < -v.length) :
    Right v bit a b both (answer v bit a b) ↔
      (bit = 1 → ∀ q, Selected v a b q → bitAt v q = 0) ∧
        (bit = 0 → (∃ q, Selected v a b q ∧ bitAt v q = 0) ∧ (both → bitAt v 0 = 0)) := by
  have hnone : findBit v bit (searchStart v.length a * 8) (searchStop v.length b * 8 + 7) = none :=
    (findBit_eq_none_iff hpos).2 fun q hq ↦ absurd hq (not_searched_of_lt hb q)
  rw [answer, hnone, Option.getD_none, right_notFound hbit]
  refine and_congr_right fun _ ↦ forall_congr' fun _ ↦ ?_
  constructor
  · rintro ⟨hzero, hfirst⟩
    exact ⟨hzero, fun hboth ↦ (hfirst hboth).holds⟩
  · rintro ⟨⟨q, hq, hat⟩, hfirst⟩
    exact ⟨⟨q, hq, hat⟩, fun hboth ↦ ⟨selected_zero hb hq, hfirst hboth, fun j hj ↦ by omega⟩⟩

end

end Right

/-- What `bitpos` is for, with the range that `getrange` selects. -/
structure FindsBit (db : Redis S) (key : Bytes) (bit : ℤ) (start stop : Option ℤ) (now : ℕ) :
    Prop where
  /-- In a range given by both ends, an answer is the first position that holds the bit. -/
  found : start.isSome → stop.isSome → ∀ p, bitpos db key bit start stop false now = .ok p → 0 ≤ p →
    getbit db key p now = .ok bit ∧
      IsFirst (Selected (valueOf db key now) (start.getD 0) (stop.getD (-1))) (valueOf db key now)
        bit p.toNat
  /-- The answer is `-1` if and only if the range does not hold the bit. -/
  missing : bitpos db key bit start stop false now = .ok (-1) ↔
    ∀ q, Selected (valueOf db key now) (start.getD 0) (stop.getD (-1)) q →
      bitAt (valueOf db key now) q ≠ bit

/-- The ranges and strings for which `bitpos` does that. -/
structure Searchable (v : Bytes) (bit : ℤ) (start stop : Option ℤ) : Prop where
  /-- A start after the end is moved to the last byte, in which there must be no one bit. -/
  late : bit = 1 → v.length ≤ start.getD 0 → (stop.getD (-1) = -1 ∨ v.length ≤ stop.getD (-1) + 1) →
    ∀ q, q / 8 + 1 = v.length → bitAt v q = 0
  /-- With an end before the beginning nothing is searched, so there must be no one bit. -/
  early : bit = 1 → stop.getD (-1) < -v.length →
    ∀ q, Selected v (start.getD 0) (stop.getD (-1)) q → bitAt v q = 0
  /-- A zero bit must be there to be found. -/
  zero : bit = 0 → ∃ q, Selected v (start.getD 0) (stop.getD (-1)) q ∧ bitAt v q = 0
  /-- The answer for a zero bit without a search is the first position. -/
  unsearched : bit = 0 → start.isSome → stop.isSome → stop.getD (-1) < -v.length → bitAt v 0 = 0
  /-- The answer is an offset that `getbit` takes. -/
  offset : start.isSome → stop.isSome →
    ∀ q, IsFirst (Selected v (start.getD 0) (stop.getD (-1))) v bit q → q < 2 ^ 32

section

variable (h : db.stringValue key now = .ok found)

include h

theorem getbit_eq (q : ℕ)
    (x : ℤ) : getbit db key q now = .ok x ↔ q < 2 ^ 32 ∧ bitAt (valueOf db key now) q = x := by
  rw [getbit, if_neg (by omega), valueOf, h]
  by_cases hq : (q : ℤ) > 2 ^ 32 - 1
  · rw [if_pos hq]
    exact iff_of_false nofun fun hboth ↦ by omega
  · rw [if_neg hq, Program.except_ok_bind, Int.toNat_natCast]
    rw [and_iff_right (by omega : q < 2 ^ 32)]
    rcases found with _ | ⟨v, ctime, etime⟩
    · have hnil : bitAt [] q = 0 := by simp [bitAt]
      rw [hnil]
      exact Except.ok.injEq .. |>.to_iff
    · exact Except.ok.injEq .. |>.to_iff

/-- The two parts of `FindsBit`, for the answer of the search. -/
theorem findsBit_iff (hbit : bit = 0 ∨ bit = 1) {start stop : Option ℤ} :
    FindsBit db key bit start stop now ↔
      Right (valueOf db key now) bit (start.getD 0) (stop.getD (-1)) (start.isSome ∧ stop.isSome)
        (answer (valueOf db key now) bit (start.getD 0) (stop.getD (-1))) := by
  have hanswer : bitpos db key bit start stop false now =
      .ok (answer (valueOf db key now) bit (start.getD 0) (stop.getD (-1))) :=
    bitpos_eq h hbit start stop
  have hget : ∀ {r : ℤ}, 0 ≤ r → (getbit db key r now = .ok bit ↔
      r.toNat < 2 ^ 32 ∧ bitAt (valueOf db key now) r.toNat = bit) := by
    intro r hr
    rw [← getbit_eq h, Int.toNat_of_nonneg hr]
  generalize answer (valueOf db key now) bit (start.getD 0) (stop.getD (-1)) = r at hanswer
  constructor
  · rintro ⟨hfound, hmissing⟩
    rw [hanswer, Except.ok.injEq] at hmissing
    refine ⟨fun hboth hr ↦ ?_, hmissing⟩
    obtain ⟨hbitAt, hfirst⟩ := hfound hboth.1 hboth.2 r hanswer hr
    exact ⟨((hget hr).1 hbitAt).1, hfirst⟩
  · rintro ⟨hfound, hmissing⟩
    refine ⟨fun hstart hstop p hp hle ↦ ?_, ?_⟩
    · obtain rfl := Except.ok.inj (hanswer.symm.trans hp)
      obtain ⟨hlt, hfirst⟩ := hfound ⟨hstart, hstop⟩ hle
      exact ⟨(hget hle).2 ⟨hlt, hfirst.holds⟩, hfirst⟩
    · rw [hanswer, Except.ok.injEq]
      exact hmissing

end

/-- **`bitpos`**, for every string or missing key, both bits and all ranges: it finds the first bit
of the range that `getrange` selects, and `-1` if there is none, exactly for the strings and ranges
that are `Searchable`. -/
theorem bitpos_finds_iff (db : Redis S) (key : Bytes) (now : ℕ) (bit : ℤ) (start stop : Option ℤ)
    (hstring : ∃ found, db.stringValue key now = .ok found) (hbit : bit = 0 ∨ bit = 1) :
    FindsBit db key bit start stop now ↔ Searchable (valueOf db key now) bit start stop := by
  obtain ⟨found, h⟩ := hstring
  rw [findsBit_iff h hbit]
  generalize valueOf db key now = v
  rcases Nat.eq_zero_or_pos v.length with hempty | hpos
  · -- nothing is selected of an empty string, and nothing is found
    have hnone : ∀ q, ¬Selected v (start.getD 0) (stop.getD (-1)) q := fun q hq ↦ by
      have hlt := (selected_iff.1 hq).2.2.2
      omega
    have hanswer : answer v bit (start.getD 0) (stop.getD (-1)) = notFound bit := by
      rw [answer, findBit, List.find?_eq_none.2 (by simp [hempty])]
      rfl
    rw [hanswer, right_notFound hbit]
    constructor
    · rintro ⟨-, hzero⟩
      exact ⟨fun _ _ _ q hq ↦ by omega, fun _ _ q hq ↦ absurd hq (hnone q), fun h0 ↦ (hzero h0).1,
        fun h0 hs ht _ ↦ ((hzero h0).2 ⟨hs, ht⟩).holds, fun _ _ q hq ↦ absurd hq.mem (hnone q)⟩
    · intro h
      refine ⟨fun _ q hq ↦ absurd hq (hnone q), fun h0 ↦ ?_⟩
      obtain ⟨q, hq, -⟩ := h.zero h0
      exact absurd hq (hnone q)
  by_cases hearly : stop.getD (-1) < -v.length
  · rw [right_of_early hbit hpos hearly]
    constructor
    · rintro ⟨hone, hzero⟩
      refine ⟨fun _ ha hlast ↦ by omega, fun h1 _ ↦ hone h1, fun h0 ↦ (hzero h0).1,
        fun h0 hs ht _ ↦ (hzero h0).2 ⟨hs, ht⟩, fun _ _ q hq ↦ ?_⟩
      have hbyte := div_eq_zero_of_selected hearly hq.mem
      omega
    · intro h
      exact ⟨fun h1 ↦ h.early h1 hearly, fun h0 ↦ ⟨h.zero h0, fun hboth ↦
        h.unsearched h0 hboth.1 hboth.2 hearly⟩⟩
  by_cases hlate : (v.length : ℤ) ≤ start.getD 0
  · -- nothing is selected, but the last byte is searched
    have hnone := @not_selected_of_le v (start.getD 0) (stop.getD (-1)) hlate
    rw [right_of_late hbit hpos hlate]
    constructor
    · rintro ⟨rfl, hlast⟩
      exact ⟨fun _ _ ↦ hlast, fun _ hlt ↦ absurd hlt hearly, nofun, nofun,
        fun _ _ q hq ↦ absurd hq.mem (hnone q)⟩
    · intro h
      have h1 : bit = 1 := hbit.resolve_left fun h0 ↦ by
        obtain ⟨q, hq, -⟩ := h.zero h0
        exact hnone q hq
      exact ⟨h1, h.late h1 hlate⟩
  · rw [right_of_searched hbit hpos (not_le.1 hlate) (not_lt.1 hearly)]
    constructor
    · rintro ⟨hzero, hoffset⟩
      exact ⟨fun _ hle ↦ absurd hle hlate, fun _ hlt ↦ absurd hlt hearly, hzero,
        fun _ _ _ hlt ↦ absurd hlt hearly, fun hs ht ↦ hoffset ⟨hs, ht⟩⟩
    · intro h
      exact ⟨h.zero, fun hboth ↦ h.offset hboth.1 hboth.2⟩

/-- The first one bit of a letter. -/
theorem bitpos_finds_letter : FindsBit letterA [1] 1 (some 0) (some (-1)) 2 ∧
    (bitpos letterA [1] 1 (some 0) (some (-1)) false 2).toOption = some 1 := by
  have hfound : letterA.stringValue [1] 2 = .ok (some ⟨[97], 1, 0⟩) := rfl
  have hvalue : valueOf letterA [1] 2 = [97] := by rw [valueOf, hfound]
  refine ⟨(bitpos_finds_iff letterA [1] 2 1 (some 0) (some (-1)) ⟨_, hfound⟩ (Or.inr rfl)).2 ?_,
    by decide +kernel⟩
  rw [hvalue]
  refine ⟨fun _ hlate ↦ absurd hlate (by decide), fun _ hearly ↦ absurd hearly (by decide), nofun,
    nofun, fun _ _ q hq ↦ ?_⟩
  have hpast : past ([97] : Bytes).length 0 (-1) = 1 := by decide
  have hlt : q / 8 < past ([97] : Bytes).length 0 (-1) := hq.mem.2
  omega

/-- A string without a zero bit. -/
def allOnes : Redis ℤ := ((set [1] [0xFF] 1).exec .empty).2

/-- **A zero bit that is not there is found at the first position, and a start after the end finds a
one bit in the last byte.** -/
theorem bitpos_finds_what_is_not_there :
    (bitpos allOnes [1] 0 (some 0) (some (-1)) false 2).toOption = some 0 ∧
      (getbit allOnes [1] 0 2).toOption = some 1 ∧
      (getrange letterA [1] 5 10 2).toOption = some [] ∧
      (bitpos letterA [1] 1 (some 5) (some 10) false 2).toOption = some 1 :=
  ⟨by decide +kernel, by decide +kernel, by decide +kernel, by decide +kernel⟩

end Kiwi.StringRanges
