import Mathlib.Algebra.Ring.Int.Defs
import Mathlib.Algebra.Ring.Nat
import Mathlib.Order.Defs.LinearOrder
import Mathlib.Data.List.Lex
import Mathlib.Data.Int.DivMod
import Mathlib.Tactic.Common
import Mathlib.Tactic.IntervalCases

/-!
# Byte strings and machine integers

Keys, fields, members and values are byte strings, ordered as RocksDB's default comparator orders
them. This module holds what the storage functions do to byte strings and to fixed-width integers
outside RocksDB:

* `fromUtf8Lossy` — `String::from_utf8_lossy`, with one replacement character for each maximal
  ill-formed part, as the standard library's `Utf8Chunks` cuts them. `fromUtf8Lossy_of_isUtf8` is
  the only thing the rest of the development uses about it: on well-formed text it is the identity.
* `parseI64` and `formatI64` — `str::parse::<i64>` and `i64::to_string`.
* `wrapU64`, `subU64`, `asI32`, `asI64` — wrapping arithmetic and `as` casts. The release profile
  turns overflow checks off, so unsigned subtraction wraps.
-/

instance UInt8.instLinearOrder : LinearOrder UInt8 where
  le_refl := UInt8.le_refl
  le_trans _ _ _ := UInt8.le_trans
  le_antisymm _ _ := UInt8.le_antisymm
  le_total := UInt8.le_total
  lt_iff_le_not_ge a b := by
    rw [UInt8.le_iff_toNat_le, UInt8.le_iff_toNat_le, UInt8.lt_iff_toNat_lt]
    omega
  toDecidableLE := inferInstance
  toDecidableLT := inferInstance
  toDecidableEq := inferInstance

namespace Kiwi

/-- A byte string. -/
abbrev Bytes := List UInt8

/-! ### Fixed-width integers -/

/-- Reduction to `u64`. -/
def wrapU64 (n : ℕ) : ℕ := n % 2 ^ 64

/-- `a - b` on `u64` without overflow check. -/
def subU64 (a b : ℕ) : ℕ := (a + (2 ^ 64 - b % 2 ^ 64)) % 2 ^ 64

/-- The cast `as i32`. -/
def asI32 (n : ℤ) : ℤ := n.bmod (2 ^ 32)

/-- The cast `as i64`. -/
def asI64 (n : ℤ) : ℤ := n.bmod (2 ^ 64)

/-- The cast `as u64`. -/
def asU64 (n : ℤ) : ℕ := (n % 2 ^ 64).toNat

variable {n : ℕ}

theorem wrapU64_of_lt (h : n < 2 ^ 64) : wrapU64 n = n := Nat.mod_eq_of_lt h

theorem subU64_of_le {a b : ℕ} (h : b ≤ a) (ha : a < 2 ^ 64) : subU64 a b = a - b := by
  unfold subU64
  rw [Nat.mod_eq_of_lt (lt_of_le_of_lt h ha)]
  omega

theorem eq_of_subU64_eq_sub {a b c : ℕ} (ha : a < 2 ^ 64) (hb : b < 2 ^ 64) (hc : c ≤ a)
    (h : subU64 a b = a - c) : b = c := by
  rw [subU64, Nat.mod_eq_of_lt hb] at h
  omega

theorem asI32_of_lt (h : n < 2 ^ 31) : asI32 n = n := by
  unfold asI32
  exact Int.bmod_eq_of_le (by omega) (by omega)

theorem asU64_of_nonneg {n : ℤ} (h₀ : 0 ≤ n) (h : n < 2 ^ 64) : asU64 n = n.toNat := by
  rw [asU64, Int.emod_eq_of_lt h₀ h]

theorem asI64_of_lt (h : n < 2 ^ 63) : asI64 n = n := by
  unfold asI64
  exact Int.bmod_eq_of_le (by omega) (by omega)

/-! ### Deduplication -/

/-- What is kept of a list by inserting `f x` into a `HashSet` for every element and dropping those
whose image was there already. -/
def firstBy {α β : Type*} [DecidableEq β] (f : α → β) : List α → List α
  | [] => []
  | x :: xs => x :: (firstBy f xs).filter (f · ≠ f x)

section firstBy

variable {α β : Type*} [DecidableEq β] {f : α → β} {xs : List α}

theorem firstBy_sublist : (firstBy f xs).Sublist xs := by
  induction xs with
  | nil => exact List.Sublist.slnil
  | cons x xs ih => exact (List.filter_sublist.trans ih).cons_cons x

theorem mem_of_mem_firstBy {x : α} (h : x ∈ firstBy f xs) : x ∈ xs := firstBy_sublist.subset h

theorem nodup_map_firstBy : ((firstBy f xs).map f).Nodup := by
  induction xs with
  | nil => exact List.nodup_nil
  | cons x xs ih =>
    rw [firstBy, List.map_cons, List.nodup_cons]
    refine ⟨?_, ih.sublist (List.filter_sublist.map f)⟩
    simp [List.mem_map, List.mem_filter]

theorem map_firstBy_mem_iff {b : β} : b ∈ (firstBy f xs).map f ↔ b ∈ xs.map f := by
  induction xs with
  | nil => rfl
  | cons x xs ih =>
    simp only [firstBy, List.map_cons, List.mem_cons]
    refine or_congr_right' fun hb ↦ ?_
    rw [← ih]
    simp only [List.mem_map, List.mem_filter, decide_eq_true_eq]
    constructor
    · rintro ⟨y, ⟨hy, -⟩, rfl⟩
      exact ⟨y, hy, rfl⟩
    · rintro ⟨y, hy, rfl⟩
      exact ⟨y, ⟨hy, hb⟩, rfl⟩

theorem find?_firstBy (b : β) :
    ((firstBy f xs).find? fun x ↦ f x = b) = xs.find? fun x ↦ f x = b := by
  induction xs with
  | nil => rfl
  | cons x xs ih =>
    rw [firstBy, List.find?_cons, List.find?_cons]
    by_cases hx : f x = b
    · rw [decide_eq_true hx]
    · have hfilter : ∀ y, decide (decide (f y ≠ f x) = true ∧ decide (f y = b) = true) =
          decide (f y = b) := by
        intro y
        by_cases hy : f y = b
        · simp [hy, Ne.symm hx]
        · simp [hy]
      rw [decide_eq_false hx, ← ih, List.find?_filter]
      simp only [hfilter]

theorem firstBy_ne_nil (h : xs ≠ []) : firstBy f xs ≠ [] := by
  cases xs with
  | nil => exact absurd rfl h
  | cons x xs => exact List.cons_ne_nil _ _

end firstBy

theorem firstBy_congr {α : Type} [DecidableEq α] {f : α → α} {xs : List α}
    (h : ∀ x ∈ xs, f x = x) : firstBy f xs = firstBy id xs := by
  induction xs with
  | nil => rfl
  | cons x xs ih =>
    have hrest := ih fun y hy ↦ h y (List.mem_cons_of_mem _ hy)
    rw [firstBy, firstBy, hrest]
    congr 1
    refine List.filter_congr fun y hy ↦ ?_
    rw [h y (List.mem_cons_of_mem _ (mem_of_mem_firstBy hy)), h x List.mem_cons_self]
    rfl

/-! ### Text -/

/-- The number of bytes a UTF-8 lead byte announces, `0` for a byte that starts no character. -/
def utf8CharWidth (b : UInt8) : ℕ :=
  if b < 0x80 then 1
  else if b < 0xC2 then 0
  else if b < 0xE0 then 2
  else if b < 0xF0 then 3
  else if b < 0xF5 then 4
  else 0

/-- A byte of the form `10xxxxxx`. -/
def isCont (b : UInt8) : Bool := b &&& 0xC0 == 0x80

/-- The first continuation byte of a three- or four-byte character: the ranges that exclude
overlong forms, surrogates and code points above the last one. -/
def isSecond (b c : UInt8) : Bool :=
  if b == 0xE0 then 0xA0 ≤ c && c ≤ 0xBF
  else if b == 0xED then 0x80 ≤ c && c ≤ 0x9F
  else if b == 0xF0 then 0x90 ≤ c && c ≤ 0xBF
  else if b == 0xF4 then 0x80 ≤ c && c ≤ 0x8F
  else 0x80 ≤ c && c ≤ 0xBF

/-- One step of `Utf8Chunks` after the byte `b`: whether a whole character was read, and how many
further bytes were consumed. -/
def utf8Step (b : UInt8) (bs : Bytes) : Bool × ℕ :=
  -- reading past the end sees a zero byte, which continues no character
  let at' := fun i ↦ bs.getD i 0
  match utf8CharWidth b with
  | 1 => (true, 0)
  | 2 => if isCont (at' 0) then (true, 1) else (false, 0)
  | 3 =>
    if isSecond b (at' 0) then
      if isCont (at' 1) then (true, 2) else (false, 1)
    else (false, 0)
  | 4 =>
    if isSecond b (at' 0) then
      if isCont (at' 1) then
        if isCont (at' 2) then (true, 3) else (false, 2)
      else (false, 1)
    else (false, 0)
  | _ => (false, 0)

/-- U+FFFD in UTF-8. -/
def replacementCharacter : Bytes := [0xEF, 0xBF, 0xBD]

/-- `fromUtf8Lossy` on at most `fuel` characters or ill-formed parts. -/
def lossyChunks : ℕ → Bytes → Bytes
  | 0, _ => []
  | _, [] => []
  | fuel + 1, b :: bs =>
    let (valid, k) := utf8Step b bs
    (if valid then b :: bs.take k else replacementCharacter) ++ lossyChunks fuel (bs.drop k)

/-- `String::from_utf8_lossy`, as the bytes of the resulting string. -/
def fromUtf8Lossy (bs : Bytes) : Bytes := lossyChunks bs.length bs

/-- Well-formedness of the first `fuel` characters. -/
def utf8Chunks : ℕ → Bytes → Bool
  | 0, _ => true
  | _, [] => true
  | fuel + 1, b :: bs =>
    let (valid, k) := utf8Step b bs
    valid && utf8Chunks fuel (bs.drop k)

/-- The byte string is well-formed UTF-8. -/
def isUtf8 (bs : Bytes) : Bool := utf8Chunks bs.length bs

variable {bs : Bytes}

theorem lossyChunks_of_utf8Chunks {fuel : ℕ} (hlen : bs.length ≤ fuel)
    (h : utf8Chunks fuel bs = true) : lossyChunks fuel bs = bs := by
  induction fuel generalizing bs with
  | zero =>
    rw [List.eq_nil_of_length_eq_zero (Nat.le_zero.1 hlen)]
    rfl
  | succ fuel ih =>
    cases bs with
    | nil => rfl
    | cons b bs =>
      simp only [utf8Chunks, Bool.and_eq_true] at h
      have hrest : (bs.drop (utf8Step b bs).2).length ≤ fuel := by
        rw [List.length_drop]
        simp only [List.length_cons] at hlen
        omega
      simp only [lossyChunks, h.1, if_true, ih hrest h.2, List.cons_append, List.take_append_drop]

/-- **Well-formed text is rendered unchanged.** -/
theorem fromUtf8Lossy_of_isUtf8 (h : isUtf8 bs = true) : fromUtf8Lossy bs = bs :=
  lossyChunks_of_utf8Chunks le_rfl h

theorem isUtf8_of_ascii (h : ∀ b ∈ bs, b < 0x80) : isUtf8 bs = true := by
  have hchunks : ∀ fuel, utf8Chunks fuel bs = true := by
    intro fuel
    induction fuel generalizing bs with
    | zero => rfl
    | succ fuel ih =>
      cases bs with
      | nil => rfl
      | cons b bs =>
        have hstep : utf8Step b bs = (true, 0) := by
          simp [utf8Step, utf8CharWidth, h b List.mem_cons_self]
        rw [utf8Chunks, hstep]
        exact ih fun b' hb' ↦ h b' (List.mem_cons_of_mem _ hb')
  exact hchunks _

theorem lt_length_of_getD_ne {i : ℕ} (h : bs.getD i 0 ≠ 0) : i < bs.length := by
  by_contra hge
  exact h (by simp [List.getD, List.getElem?_eq_none (not_lt.1 hge)])

variable {b : UInt8}

theorem isCont_ne (h : isCont b = true) : b ≠ 0 := by
  rintro rfl
  exact absurd h (by decide)

theorem utf8Step_take_append (h : (utf8Step b bs).1 = true) (rest : Bytes) :
    (bs.take (utf8Step b bs).2).length = (utf8Step b bs).2 ∧
      utf8Step b (bs.take (utf8Step b bs).2 ++ rest) = utf8Step b bs := by
  have hget : ∀ {i k : ℕ}, i < k → k ≤ bs.length →
      (bs.take k ++ rest).getD i 0 = bs.getD i 0 := by
    intro i k hi hk
    rw [List.getD_eq_getElem?_getD, List.getD_eq_getElem?_getD, List.getElem?_append_left (by
      rw [List.length_take]; omega), List.getElem?_take_of_lt hi]
  unfold utf8Step at h ⊢
  dsimp only at h ⊢
  split at h
  · simp
  · split_ifs at h with h0
    have hlen := lt_length_of_getD_ne (isCont_ne h0)
    simp only [h0, if_true, List.length_take]
    rw [hget (by omega) (by omega), if_pos h0]
    exact ⟨by omega, rfl⟩
  · split_ifs at h with h0 h1
    have hlen := lt_length_of_getD_ne (isCont_ne h1)
    simp only [h0, h1, if_true, List.length_take]
    rw [hget (by omega) (by omega), hget (by omega) (by omega), if_pos h0, if_pos h1]
    exact ⟨by omega, rfl⟩
  · split_ifs at h with h0 h1 h2
    have hlen := lt_length_of_getD_ne (isCont_ne h2)
    simp only [h0, h1, h2, if_true, List.length_take]
    rw [hget (by omega) (by omega), hget (by omega) (by omega), hget (by omega) (by omega),
      if_pos h0, if_pos h1, if_pos h2]
    exact ⟨by omega, rfl⟩
  · cases h

theorem utf8Step_replacementCharacter (rest : Bytes) :
    utf8Step 0xEF (0xBF :: 0xBD :: rest) = (true, 2) := by
  have hwidth : utf8CharWidth 0xEF = 3 := by decide
  have hsecond : isSecond 0xEF 0xBF = true := by decide
  have hcont : isCont 0xBD = true := by decide
  simp [utf8Step, hwidth, hsecond, hcont]

theorem utf8Chunks_lossyChunks (fuel n : ℕ) (bs : Bytes) :
    utf8Chunks fuel (lossyChunks n bs) = true := by
  induction n generalizing fuel bs with
  | zero => cases fuel <;> rfl
  | succ n ih =>
    cases bs with
    | nil => cases fuel <;> rfl
    | cons b bs =>
      cases fuel with
      | zero => rfl
      | succ fuel =>
        rw [lossyChunks]
        by_cases hvalid : (utf8Step b bs).1 = true
        · obtain ⟨hlength, hstep⟩ := utf8Step_take_append hvalid
            (lossyChunks n (bs.drop (utf8Step b bs).2))
          dsimp only
          rw [if_pos hvalid, List.cons_append, utf8Chunks, hstep]
          dsimp only
          rw [List.drop_append_of_le_length hlength.ge, List.drop_of_length_le hlength.le, hvalid]
          exact ih fuel _
        · dsimp only
          rw [if_neg hvalid]
          show utf8Chunks (fuel + 1) (0xEF :: 0xBF :: 0xBD :: lossyChunks n _) = true
          rw [utf8Chunks, utf8Step_replacementCharacter]
          exact ih fuel _

theorem isUtf8_fromUtf8Lossy (bs : Bytes) : isUtf8 (fromUtf8Lossy bs) = true :=
  utf8Chunks_lossyChunks _ _ _

-- a lone continuation byte is not text, and two different ones are rendered alike
example : fromUtf8Lossy [0xFF] = fromUtf8Lossy [0xFE] := by decide
example : isUtf8 [0xC3, 0xA9] = true ∧ isUtf8 [0xC3] = false := by decide

/-! ### Decimal integers -/

/-- The value of a decimal digit. -/
def digitValue (b : UInt8) : Option ℕ :=
  if 0x30 ≤ b && b ≤ 0x39 then some (b.toNat - 48) else none

/-- The value of a string of digits, most significant first. -/
def parseDigits (bs : Bytes) : Option ℕ :=
  bs.foldl (fun acc b ↦ do
    let n ← acc
    let d ← digitValue b
    return 10 * n + d) (some 0)

/-- `str::parse::<i64>`: an optional sign, at least one digit, and a value in range. -/
def parseI64 (bs : Bytes) : Option ℤ :=
  let inRange := fun (n : ℤ) ↦ if -2 ^ 63 ≤ n ∧ n < 2 ^ 63 then some n else none
  match bs with
  | [] => none
  | 0x2D :: ds => if ds = [] then none else (parseDigits ds).bind fun n ↦ inRange (-n)
  | 0x2B :: ds => if ds = [] then none else (parseDigits ds).bind fun n ↦ inRange n
  | ds => (parseDigits ds).bind fun n ↦ inRange n

/-- `str::parse::<u64>`. -/
def parseU64 (bs : Bytes) : Option ℕ :=
  let ds := if bs.head? = some 0x2B then bs.tail else bs
  if ds = [] then none
  else (parseDigits ds).bind fun n ↦ if n < 2 ^ 64 then some n else none

/-- Decimal digits of a natural number, most significant first, prepended to `acc`. -/
def natDigits : ℕ → ℕ → Bytes → Bytes
  | 0, _, acc => acc
  | fuel + 1, n, acc =>
    let acc := UInt8.ofNat (48 + n % 10) :: acc
    if n / 10 = 0 then acc else natDigits fuel (n / 10) acc

/-- `u64::to_string`. -/
def formatNat (n : ℕ) : Bytes := natDigits (n + 1) n []

/-- `i64::to_string`. -/
def formatI64 (n : ℤ) : Bytes :=
  if n < 0 then 0x2D :: formatNat n.natAbs else formatNat n.natAbs

theorem natDigits_ascii {fuel n : ℕ} {acc : Bytes} (h : ∀ b ∈ acc, b < 0x80) :
    ∀ b ∈ natDigits fuel n acc, b < 0x80 := by
  induction fuel generalizing n acc with
  | zero => exact h
  | succ fuel ih =>
    have hdigit : ∀ b ∈ UInt8.ofNat (48 + n % 10) :: acc, b < 0x80 := by
      intro b hb
      rcases List.mem_cons.1 hb with rfl | hb
      · rw [UInt8.lt_iff_toNat_lt, UInt8.toNat_ofNat']
        show (48 + n % 10) % 2 ^ 8 < 128
        omega
      · exact h b hb
    rw [natDigits]
    split_ifs
    · exact hdigit
    · exact ih hdigit

theorem isUtf8_formatI64 (n : ℤ) : isUtf8 (formatI64 n) = true := by
  have hnat : ∀ b ∈ formatNat n.natAbs, b < 0x80 := natDigits_ascii fun b hb ↦ by simp at hb
  refine isUtf8_of_ascii fun b hb ↦ ?_
  rw [formatI64] at hb
  split_ifs at hb
  · rcases List.mem_cons.1 hb with rfl | hb
    · decide
    · exact hnat b hb
  · exact hnat b hb

theorem digitValue_digit : digitValue (UInt8.ofNat (48 + n % 10)) = some (n % 10) := by
  have hlt : n % 10 < 10 := Nat.mod_lt _ (by decide)
  generalize n % 10 = d at hlt
  interval_cases d <;> rfl

theorem foldl_natDigits {fuel n : ℕ} (h : n < fuel) (acc : Bytes) :
    (natDigits fuel n acc).foldl (fun acc b ↦ do
      let n ← acc
      let d ← digitValue b
      return 10 * n + d) (some 0) =
    acc.foldl (fun acc b ↦ do
      let n ← acc
      let d ← digitValue b
      return 10 * n + d) (some n) := by
  induction fuel generalizing n acc with
  | zero => exact absurd h (Nat.not_lt_zero _)
  | succ fuel ih =>
    rw [natDigits]
    split_ifs with hzero
    · have hn : 10 * 0 + n % 10 = n := by omega
      rw [List.foldl_cons, digitValue_digit]
      exact congrArg (fun m ↦ acc.foldl _ (some m)) hn
    · have hn : 10 * (n / 10) + n % 10 = n := Nat.div_add_mod n 10
      rw [ih (by omega), List.foldl_cons, digitValue_digit]
      exact congrArg (fun m ↦ acc.foldl _ (some m)) hn

theorem natDigits_head {fuel n : ℕ} (h : 0 < fuel) (acc : Bytes) :
    ∃ d bs, natDigits fuel n acc = UInt8.ofNat (48 + d % 10) :: bs := by
  induction fuel generalizing n acc with
  | zero => exact absurd h (lt_irrefl _)
  | succ fuel ih =>
    rw [natDigits]
    split_ifs with hzero
    · exact ⟨n, acc, rfl⟩
    · rcases Nat.eq_zero_or_pos fuel with rfl | hpos
      · exact ⟨n, acc, rfl⟩
      · exact ih hpos _

theorem parseI64_of_digits (hminus : b ≠ 0x2D) (hplus : b ≠ 0x2B)
    (hdigits : parseDigits (b :: bs) = some n) (hrange : -2 ^ 63 ≤ (n : ℤ) ∧ (n : ℤ) < 2 ^ 63) :
    parseI64 (b :: bs) = some (n : ℤ) := by
  unfold parseI64
  split
  · rename_i heq
    cases heq
  · rename_i heq
    exact absurd (List.cons.inj heq).1 hminus
  · rename_i heq
    exact absurd (List.cons.inj heq).1 hplus
  · rw [hdigits, Option.bind_some]
    beta_reduce
    split
    · rfl
    · rename_i hout
      exact absurd hrange hout

theorem ofNat_digit_ne_sign (d : ℕ) :
    UInt8.ofNat (48 + d % 10) ≠ 0x2D ∧ UInt8.ofNat (48 + d % 10) ≠ 0x2B := by
  have hlt : d % 10 < 10 := Nat.mod_lt _ (by decide)
  generalize d % 10 = e at hlt
  interval_cases e <;> decide

theorem parseU64_formatNat (h : n < 2 ^ 64) : parseU64 (formatNat n) = some n := by
  have hdigits : parseDigits (formatNat n) = some n := foldl_natDigits (Nat.lt_succ_self n) []
  obtain ⟨d, bs, hcons⟩ := natDigits_head (n := n) (Nat.succ_pos n) ([] : Bytes)
  have hformat : formatNat n = UInt8.ofNat (48 + d % 10) :: bs := hcons
  have hsign : (formatNat n).head? ≠ some 0x2B := by
    rw [hformat, List.head?_cons, ne_eq, Option.some_inj]
    exact (ofNat_digit_ne_sign d).2
  rw [parseU64, if_neg hsign, if_neg (hformat ▸ List.cons_ne_nil _ _), hdigits, Option.bind_some,
    if_pos h]

/-- **Numbers are read back.** -/
theorem parseI64_formatI64 (hrange : -2 ^ 63 ≤ (n : ℤ) ∧ (n : ℤ) < 2 ^ 63) :
    parseI64 (formatI64 n) = some (n : ℤ) := by
  have hformat : formatI64 n = natDigits (n + 1) n [] := by
    rw [formatI64, if_neg (not_lt.2 (Int.natCast_nonneg n)), Int.natAbs_natCast]
    rfl
  have hdigits : parseDigits (natDigits (n + 1) n []) = some n :=
    foldl_natDigits (Nat.lt_succ_self n) []
  obtain ⟨d, bs, hcons⟩ := natDigits_head (n := n) (Nat.succ_pos n) ([] : Bytes)
  rw [hcons] at hdigits
  rw [hformat, hcons]
  exact parseI64_of_digits (ofNat_digit_ne_sign d).1 (ofNat_digit_ne_sign d).2 hdigits hrange

/-- `i64::checked_add`. -/
def checkedAddI64 (a b : ℤ) : Option ℤ :=
  if -2 ^ 63 ≤ a + b ∧ a + b < 2 ^ 63 then some (a + b) else none

example : parseI64 (formatI64 (-107)) = some (-107) := by decide
example : parseI64 [0x2D] = none ∧ parseI64 [0x31, 0x61] = none := by decide

end Kiwi
