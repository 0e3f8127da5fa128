import Kiwi.Lib.Lexicographic
import Kiwi.Storage.Redis

/-!
# The encoding of user keys

In an encoded key every zero of the user key is followed by a one and a double zero ends the user
key. So the end is found whatever follows, no encoded user key begins another one, and since an
escaped zero is after the end mark and before every other byte, the order of the encoded user keys
is the order of the user keys (`encodeUserKey_order_preserving`).
-/

namespace Kiwi

/-- `encode_user_key`: zeros are escaped, and a double zero ends the key. -/
def encodeUserKey (userKey : Bytes) : Bytes :=
  (userKey.flatMap fun b ↦ if b = 0 then [0, 1] else [b]) ++ [0, 0]

/-- The reserved bytes before and behind a key. -/
def encodedKey (userKey rest : Bytes) : Bytes :=
  List.replicate 8 0 ++ (encodeUserKey userKey ++ (rest ++ List.replicate 16 0))

/-- `seek_userkey_delim`: the number of bytes up to and including the first double zero, or all of
them. -/
def seekUserkeyDelim (zeroAhead : Bool) : Bytes → ℕ
  | [] => 0
  | b :: bs => if b = 0 ∧ zeroAhead = true then 1 else 1 + seekUserkeyDelim (b = 0) bs

/-- The loop of `decode_user_key`. -/
def decodeUserKeyFrom (zeroAhead : Bool) (userKey : Bytes) : Bytes → Except Error Bytes
  | [] => .error (.invalidFormat "Encoded key delimiter not found or key ends unexpectedly")
  | b :: bs =>
    if b = 0 then
      if zeroAhead then .ok userKey else decodeUserKeyFrom true userKey bs
    else if b = 1 then
      decodeUserKeyFrom false (userKey ++ [if zeroAhead then 0 else 1]) bs
    else if zeroAhead then
      .error (.invalidFormat
        "Invalid encoding sequence: single zero followed by non-one/non-zero byte")
    else decodeUserKeyFrom false (userKey ++ [b]) bs

def decodeUserKey (encoded : Bytes) : Except Error Bytes :=
  if encoded.length < 2 then .error (.invalidFormat "Encoded key part too short")
  else decodeUserKeyFrom false [] encoded

open Lexicographic

variable (b : UInt8) (bs : Bytes)

theorem encodeUserKey_cons :
    encodeUserKey (b :: bs) = (if b = 0 then [0, 1] else [b]) ++ encodeUserKey bs := by
  rw [encodeUserKey, List.flatMap_cons, List.append_assoc]
  rfl

theorem encodeUserKey_head : ∃ rest, encodeUserKey (b :: bs) = b :: rest := by
  rw [encodeUserKey_cons]
  by_cases hb : b = 0
  · subst hb
    exact ⟨_, rfl⟩
  · rw [if_neg hb]
    exact ⟨_, rfl⟩

variable (userKey : Bytes)

theorem two_le_length_encodeUserKey : 2 ≤ (encodeUserKey userKey).length := by
  rw [encodeUserKey, List.length_append]
  exact Nat.le_add_left 2 _

/-! ### Reading an encoded user key -/

variable (userKey rest : Bytes)

theorem seekUserkeyDelim_encodeUserKey :
    seekUserkeyDelim false (encodeUserKey userKey ++ rest) = (encodeUserKey userKey).length := by
  induction userKey with
  | nil => rfl
  | cons b bs ih =>
    rw [encodeUserKey] at ih ⊢
    by_cases hb : b = 0
    · -- an escaped zero is followed by a one
      subst hb
      simp [seekUserkeyDelim] at ih ⊢
      omega
    · simp [seekUserkeyDelim, hb] at ih ⊢
      omega

theorem decodeUserKeyFrom_encodeUserKey (userKey acc rest : Bytes) :
    decodeUserKeyFrom false acc (encodeUserKey userKey ++ rest) = .ok (acc ++ userKey) := by
  induction userKey generalizing acc with
  | nil => simp [encodeUserKey, decodeUserKeyFrom]
  | cons b bs ih =>
    rw [encodeUserKey_cons, List.append_assoc]
    by_cases hb : b = 0
    · subst hb
      simp [decodeUserKeyFrom, ih]
    · by_cases hb' : b = 1
      · subst hb'
        simp [decodeUserKeyFrom, ih]
      · simp [decodeUserKeyFrom, hb, hb', ih]

theorem decodeUserKey_append : decodeUserKey (encodeUserKey userKey ++ rest) = .ok userKey := by
  have hlength := two_le_length_encodeUserKey userKey
  rw [decodeUserKey, if_neg (by rw [List.length_append]; omega), decodeUserKeyFrom_encodeUserKey,
    List.nil_append]

theorem decodeUserKey_encodeUserKey : decodeUserKey (encodeUserKey userKey) = .ok userKey := by
  have h := decodeUserKey_append userKey []
  rwa [List.append_nil] at h

/-! ### Comparing encoded user keys -/

theorem encodeUserKey_injective : Function.Injective encodeUserKey := by
  intro a b h
  have ha := decodeUserKey_encodeUserKey a
  rw [h, decodeUserKey_encodeUserKey] at ha
  exact (Except.ok.inj ha).symm

theorem eq_of_encodeUserKey_append {a b : Bytes} (h : encodeUserKey a <+: encodeUserKey b) :
    encodeUserKey a = encodeUserKey b := by
  obtain ⟨rest, hrest⟩ := h
  have ha := seekUserkeyDelim_encodeUserKey a rest
  have hb := seekUserkeyDelim_encodeUserKey b []
  rw [List.append_nil, ← hrest, ha] at hb
  exact List.IsPrefix.eq_of_length ⟨rest, hrest⟩ (hrest ▸ hb)

theorem lexCompare_encodeUserKey_nil :
    lexCompare (encodeUserKey []) (encodeUserKey (b :: bs)) = .lt := by
  rw [encodeUserKey_cons, encodeUserKey, List.flatMap_nil, List.nil_append]
  by_cases hb : b = 0
  · subst hb
    rfl
  · rw [if_neg hb, List.singleton_append, lexCompare_cons,
      (cmp_eq_lt_iff 0 b).2 (UInt8.pos_iff_ne_zero.2 hb)]
    rfl

theorem lexCompare_encodeUserKey (a b : Bytes) :
    lexCompare (encodeUserKey a) (encodeUserKey b) = lexCompare a b := by
  induction a generalizing b with
  | nil =>
    cases b with
    | nil => rfl
    | cons y bs => rw [lexCompare_encodeUserKey_nil, lexCompare_nil_cons]
  | cons x as ih =>
    cases b with
    | nil =>
      rw [← swap_lexCompare, lexCompare_encodeUserKey_nil]
      rfl
    | cons y bs =>
      by_cases hxy : x = y
      · subst hxy
        rw [encodeUserKey_cons, encodeUserKey_cons, lexCompare_append_left, ih, lexCompare_cons,
          cmp_self_eq_eq, Ordering.eq_then]
      · obtain ⟨rest, hx⟩ := encodeUserKey_head x as
        obtain ⟨rest', hy⟩ := encodeUserKey_head y bs
        rw [hx, hy, lexCompare_cons, lexCompare_cons]
        rcases lt_or_gt_of_ne hxy with hlt | hgt
        · rw [(cmp_eq_lt_iff x y).2 hlt]
          rfl
        · rw [(cmp_eq_gt_iff x y).2 hgt]
          rfl

/-- **An order-preserving prefix code.** Whatever follows an encoded user key, decoding returns the
user key and the search for the delimiter stops behind the encoding. No encoding is a proper prefix
of another one, and encodings are in the bytewise order of the user keys. -/
theorem encodeUserKey_order_preserving (a b : Bytes) :
    (∀ rest, decodeUserKey (encodeUserKey a ++ rest) = .ok a) ∧
    (∀ rest, seekUserkeyDelim false (encodeUserKey a ++ rest) = (encodeUserKey a).length) ∧
    ¬(encodeUserKey a <+: encodeUserKey b ∧ encodeUserKey a ≠ encodeUserKey b) ∧
    (encodeUserKey a < encodeUserKey b ↔ a < b) := by
  refine ⟨decodeUserKey_append a, seekUserkeyDelim_encodeUserKey a, ?_, ?_⟩
  · rintro ⟨hbegins, hne⟩
    exact hne (eq_of_encodeUserKey_append hbegins)
  · rw [← lexCompare_eq_lt_iff, lexCompare_encodeUserKey, lexCompare_eq_lt_iff]

end Kiwi
