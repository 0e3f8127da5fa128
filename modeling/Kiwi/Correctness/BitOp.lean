import Kiwi.Correctness.StringWrites

/-!
# Bit operations on strings

`bitop` combines its sources bit by bit, where a missing source and the part after the end of a
source count as zeros. `Combined` says so by positions of bits. What is stored is the combination,
also when it is empty (`bitop_stores_empty_string`), so `bitop_combines_iff` holds exactly when one
of the sources is not empty.
-/

namespace Kiwi.BitOps

open Strings StringRanges StringWrites

variable {S : Type} [LinearOrder S] {db : Redis S} {now : ℕ} {op : BitOp} {values : List Bytes}

/-! ### Combinations by bits -/

/-- One bit of the result, from that bit of each source. -/
def bitOf : BitOp → List Bool → Bool
  | .and, bits => bits.all id
  | .or, bits => bits.any id
  | .xor, bits => bits.foldl (· ^^ ·) false
  | .not, bits => !bits.headD false

/-- The result of an operation on strings: it is as long as the longest of them, and each of its
bits comes from the bits at that position, which are zero after the end. -/
structure Combined (op : BitOp) (values : List Bytes) (result : Bytes) : Prop where
  upper : ∀ v ∈ values, v.length ≤ result.length
  attained : ∃ v ∈ values, v.length = result.length
  bits : ∀ q, q / 8 < result.length → ((bitAt result q = 1) ↔
    bitOf op (values.map fun v ↦ bitAt v q == 1) = true)

/-- The bit of a byte that a position stands for. -/
def bitIn (x : UInt8) (k : ℕ) : Bool := x.toBitVec.getLsbD (7 - k)

theorem bitAt_eq_one_iff (v : Bytes) (q : ℕ) :
    bitAt v q = 1 ↔ bitIn (v.getD (q / 8) 0) (q % 8) = true := by
  rw [bitIn, ← and_bitMask_ne_zero_iff (Nat.mod_lt _ (by decide)), bitAt]
  split_ifs with h
  · exact iff_of_true rfl h
  · exact iff_of_false (by decide) h

theorem bitAt_beq_one (v : Bytes) (q : ℕ) :
    (bitAt v q == 1) = bitIn (v.getD (q / 8) 0) (q % 8) := by
  rw [Bool.eq_iff_iff, beq_iff_eq, bitAt_eq_one_iff]

section Folds

variable {k : ℕ} (xs : List UInt8) (x : UInt8)

theorem bitIn_foldl_and : bitIn (xs.foldl (· &&& ·) x) k =
    (bitIn x k && (xs.map fun y ↦ bitIn y k).all id) := by
  induction xs generalizing x with
  | nil => simp
  | cons y xs ih =>
    rw [List.foldl_cons, ih, List.map_cons, List.all_cons]
    simp only [bitIn, UInt8.toBitVec_and, BitVec.getLsbD_and, id, Bool.and_assoc]

theorem bitIn_foldl_or : bitIn (xs.foldl (· ||| ·) x) k =
    (bitIn x k || (xs.map fun y ↦ bitIn y k).any id) := by
  induction xs generalizing x with
  | nil => simp
  | cons y xs ih =>
    rw [List.foldl_cons, ih, List.map_cons, List.any_cons]
    simp only [bitIn, UInt8.toBitVec_or, BitVec.getLsbD_or, id, Bool.or_assoc]

theorem bitIn_foldl_xor : bitIn (xs.foldl (· ^^^ ·) x) k =
    (xs.map fun y ↦ bitIn y k).foldl (· ^^ ·) (bitIn x k) := by
  induction xs generalizing x with
  | nil => rfl
  | cons y xs ih =>
    rw [List.foldl_cons, ih, List.map_cons, List.foldl_cons]
    simp only [bitIn, UInt8.toBitVec_xor, BitVec.getLsbD_xor]

end Folds

theorem bitIn_zero (k : ℕ) : bitIn 0 k = false := by simp [bitIn]

theorem bitIn_ones {k : ℕ} (hk : k < 8) : bitIn 0xFF k = true := by
  interval_cases k <;> rfl

theorem bitIn_not {k : ℕ} (x : UInt8) : bitIn (~~~x) k = !bitIn x k := by
  have hlt : 7 - k < 8 := by omega
  rw [bitIn, bitIn, UInt8.toBitVec_not, BitVec.getLsbD_not, decide_eq_true hlt, Bool.true_and]

theorem foldl_max_spec (ns : List ℕ) (n : ℕ) :
    n ≤ ns.foldl max n ∧ (∀ m ∈ ns, m ≤ ns.foldl max n) ∧
      (ns.foldl max n = n ∨ ns.foldl max n ∈ ns) := by
  induction ns generalizing n with
  | nil => exact ⟨le_rfl, by simp, Or.inl rfl⟩
  | cons m ns ih =>
    obtain ⟨hle, hall, heq⟩ := ih (max n m)
    rw [List.foldl_cons]
    refine ⟨(le_max_left n m).trans hle, ?_, ?_⟩
    · intro j hj
      rcases List.mem_cons.1 hj with rfl | hj
      · exact (le_max_right n j).trans hle
      · exact hall j hj
    · rcases heq with heq | hmem
      · rw [heq]
        rcases max_choice n m with h | h
        · exact Or.inl h
        · rw [h]
          exact Or.inr List.mem_cons_self
      · exact Or.inr (List.mem_cons_of_mem _ hmem)

theorem length_combine (op : BitOp) (values : List Bytes) :
    (combine op values).length = (values.map List.length).foldl max 0 := by
  rw [combine, List.length_map, List.length_range]

/-- **The combination** of at least one string, and of exactly one for the complement. -/
theorem combined_combine (hvalues : values ≠ []) (hnot : op = .not → values.length = 1) :
    Combined op values (combine op values) := by
  obtain ⟨-, hupper, hattained⟩ := foldl_max_spec (values.map List.length) 0
  rw [← length_combine op values] at hupper hattained
  refine ⟨fun v hv ↦ hupper _ (List.mem_map_of_mem hv), ?_, fun q hq ↦ ?_⟩
  · -- the greatest length is that of a source, or zero and then that of all of them
    obtain ⟨v, values, rfl⟩ := List.exists_cons_of_ne_nil hvalues
    rcases hattained with hzero | hmem
    · refine ⟨v, List.mem_cons_self, ?_⟩
      have hle := hupper _ (List.mem_map_of_mem (List.mem_cons_self (a := v) (l := values)))
      omega
    · obtain ⟨w, hw, heq⟩ := List.mem_map.1 hmem
      exact ⟨w, hw, heq⟩
  · have hk : q % 8 < 8 := Nat.mod_lt _ (by decide)
    have hbits : (values.map fun v ↦ bitAt v q == 1) =
        (values.map fun v ↦ v.getD (q / 8) 0).map fun y ↦ bitIn y (q % 8) := by
      rw [List.map_map]
      exact List.map_congr_left fun v _ ↦ bitAt_beq_one v q
    rw [length_combine] at hq
    rw [bitAt_eq_one_iff, combine, List.getD_eq_getElem?_getD, List.getElem?_map,
      List.getElem?_range hq, hbits, Option.map_some, Option.getD_some]
    -- the folds start from the neutral byte: ones for `AND`, zeros for the others
    cases op with
    | and => rw [bitIn_foldl_and, bitIn_ones hk, Bool.true_and, bitOf]
    | or => rw [bitIn_foldl_or, bitIn_zero, Bool.false_or, bitOf]
    | xor => rw [bitIn_foldl_xor, bitIn_zero, bitOf]
    | not =>
      obtain ⟨v, rfl⟩ := List.length_eq_one_iff.1 (hnot rfl)
      rw [bitIn_not, bitOf]
      rfl

/-! ### The command -/

/-- What `bitop` is for. -/
structure Combines (db : Redis S) (operation : Bytes) (op : BitOp) (destination : Bytes)
    (sources : List Bytes) (now : ℕ) : Prop where
  /-- The result is at the destination, without expiry, or the destination is removed. -/
  stored : ∃ result, Combined op (sources.map fun key ↦ valueOf db key now) result ∧
    ((bitop operation destination sources now).exec db).1 = .ok (result.length : ℤ) ∧
    ((bitop operation destination sources now).exec db).2.metaCF.get destination =
      if result = [] then none else some (.string ⟨result, now, 0⟩)
  others : ∀ k, k ≠ destination →
    ((bitop operation destination sources now).exec db).2.AgreeAt db k

theorem sourceValues_eq {keys : List Bytes}
    (h : ∀ key ∈ keys, ∃ found, db.stringValue key now = .ok found) :
    sourceValues db now keys = .ok (keys.map fun key ↦ valueOf db key now) := by
  induction keys with
  | nil => rfl
  | cons key keys ih =>
    obtain ⟨found, hfound⟩ := h key List.mem_cons_self
    rw [sourceValues, hfound, Program.except_ok_bind, ih fun k hk ↦ h k (List.mem_cons_of_mem _ hk),
      List.map_cons, valueOf, hfound]
    cases found <;> rfl

open Program in
theorem exec_bitop {operation destination : Bytes} {sources : List Bytes}
    (hop : parseBitOp operation = some op) (hnot : op = .not → sources.length = 1)
    (hsources : sources ≠ [])
    (hstrings : ∀ key ∈ sources, ∃ found, db.stringValue key now = .ok found) :
    (bitop operation destination sources now).exec db =
      (.ok ((combine op (sources.map fun key ↦ valueOf db key now)).length : ℤ),
        db.write [putString destination (combine op (sources.map fun key ↦ valueOf db key now))
          now 0]) := by
  rw [bitop, hop]
  dsimp only
  rw [exec_ite, if_neg (fun hboth ↦ hboth.2 (hnot hboth.1)), exec_ite, if_neg (by simpa using
    hsources), exec_get_bind, sourceValues_eq hstrings, exec_lift_ok_bind]
  rfl

/-- **`bitop`**, for all sources that hold strings or nothing, also if the destination is one of
them: it does what it is for exactly when one of the sources is not empty. -/
theorem bitop_combines_iff (db : Redis S) (operation : Bytes) (op : BitOp) (destination : Bytes)
    (sources : List Bytes) (now : ℕ) (hop : parseBitOp operation = some op)
    (hnot : op = .not → sources.length = 1) (hsources : sources ≠ [])
    (hstrings : ∀ key ∈ sources, ∃ found, db.stringValue key now = .ok found) :
    Combines db operation op destination sources now ↔
      ∃ key ∈ sources, valueOf db key now ≠ [] := by
  have hexec : (bitop operation destination sources now).exec db = _ :=
    exec_bitop hop hnot hsources hstrings
  have hcombined : Combined op (sources.map fun key ↦ valueOf db key now) (combine op _) :=
    combined_combine (by simpa using hsources) (by simpa using hnot)
  generalize combine op (sources.map fun key ↦ valueOf db key now) = result at hexec hcombined
  have hreplaced := replaced_write db destination ⟨result, now, 0⟩ result
  constructor
  · rintro ⟨⟨result', hcombined', -, hstored⟩, -⟩
    rw [hexec, hreplaced.stored] at hstored
    by_cases hempty : result' = []
    · rw [if_pos hempty] at hstored
      cases hstored
    · obtain ⟨v, hv, hlength⟩ := hcombined'.attained
      obtain ⟨key, hkey, rfl⟩ := List.mem_map.1 hv
      refine ⟨key, hkey, fun hnil ↦ hempty ?_⟩
      rw [hnil] at hlength
      exact List.length_eq_zero_iff.1 hlength.symm
  · rintro ⟨key, hkey, hne⟩
    refine ⟨⟨result, hcombined, by rw [hexec], ?_⟩, fun k hk ↦ ?_⟩
    · have hlong := hcombined.upper _ (List.mem_map_of_mem hkey)
      have hpos := List.length_pos_iff.2 hne
      rw [hexec, hreplaced.stored, if_neg (fun hnil ↦ ?_)]
      rw [hnil, List.length_nil] at hlong
      omega
    · rw [hexec]
      exact hreplaced.others k hk

/-- A string of two bytes and one of one byte. -/
def twoStrings : Redis ℤ :=
  ((do
    set [1] [0x0F, 0x01] 1
    set [2] [0xF0] 1 : Op ℤ PUnit).exec .empty).2

/-- The disjunction of a string with a shorter one, stored in place of the shorter one. -/
theorem bitop_combines_or :
    Combines twoStrings [0x6F, 0x72] .or [2] [[1], [2], [3]] 2 ∧
      (getBinary ((bitop [0x6F, 0x72] [2] [[1], [2], [3]] 2).exec twoStrings).2 [2] 2).toOption =
        some [0xFF, 0x01] := by
  have hfirst : twoStrings.stringValue [1] 2 = .ok (some ⟨[0x0F, 0x01], 1, 0⟩) := rfl
  have hsecond : twoStrings.stringValue [2] 2 = .ok (some ⟨[0xF0], 1, 0⟩) := rfl
  have hthird : twoStrings.stringValue [3] 2 = .ok none := rfl
  refine ⟨?_, by decide +kernel⟩
  refine (bitop_combines_iff twoStrings [0x6F, 0x72] .or [2] [[1], [2], [3]] 2 (by decide) nofun
    (by simp) ?_).2 ⟨[1], by simp, ?_⟩
  · intro key hkey
    simp only [List.mem_cons, List.not_mem_nil, or_false] at hkey
    rcases hkey with rfl | rfl | rfl
    · exact ⟨_, hfirst⟩
    · exact ⟨_, hsecond⟩
    · exact ⟨_, hthird⟩
  · rw [valueOf, hfirst]
    simp

/-- **An empty result is stored**: the complement of a missing key is an empty string, and the
destination exists. -/
theorem bitop_stores_empty_string :
    twoStrings.metaCF.get [3] = none ∧
      ((bitop [0x6E, 0x6F, 0x74] [2] [[3]] 2).exec twoStrings).1.toOption = some 0 ∧
      ((bitop [0x6E, 0x6F, 0x74] [2] [[3]] 2).exec twoStrings).2.metaCF.get [2] =
        some (.string ⟨[], 2, 0⟩) :=
  ⟨by decide +kernel, by decide +kernel, by decide +kernel⟩

end Kiwi.BitOps
