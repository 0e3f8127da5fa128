import Kiwi.Correctness.SetRemoval
import Mathlib.Data.Finset.Image

/-!
# Stores of set algebra

`sdiffstore`, `sinterstore` and `sunionstore` read their sources with `sdiff`, `sinter` and
`sunion`, whose answers are texts, and store what they read. So what is stored is the right set of
texts, and it is the right set of byte strings only if rendering changes nothing.

* `sdiff` and `sunion` render the members of the result: it has to be made of well-formed text.
* `sinter` renders the members of one source, the smallest by its count, and looks the texts up in
  the other sources. Beyond the above, a text that it finds in all of them has to be a member of
  that source too (`MeetsAsText`).

`store_algebra_iff` puts this together with the store itself, which clears the destination and
writes the new set in one batch, and with the answer, which is an `i32`.
-/

namespace Kiwi.SetAlgebra

open Sets

/-! ### Algebra of finite sets -/

/-- The operations of set algebra. -/
inductive Algebra
  | diff
  | inter
  | union
  deriving DecidableEq, Repr

namespace Algebra

section Eval

variable {α : Type*} [DecidableEq α] {A : Finset α} {As : List (Finset α)} {x : α}

/-- The set that an operation makes of a list of sets: the first without all others, what all have
in common, or what any of them has. -/
def eval : Algebra → List (Finset α) → Finset α
  | _, [] => ∅
  | diff, A :: As => A.filter fun x ↦ ∀ B ∈ As, x ∉ B
  | inter, A :: As => A.filter fun x ↦ ∀ B ∈ As, x ∈ B
  | union, A :: As => (A :: As).foldr (· ∪ ·) ∅

theorem mem_eval_diff : x ∈ diff.eval (A :: As) ↔ x ∈ A ∧ ∀ B ∈ As, x ∉ B := Finset.mem_filter

theorem mem_eval_inter (h : As ≠ []) : x ∈ inter.eval As ↔ ∀ B ∈ As, x ∈ B := by
  cases As with
  | nil => exact absurd rfl h
  | cons A As => rw [eval, Finset.mem_filter, List.forall_mem_cons]

theorem mem_eval_union : x ∈ union.eval As ↔ ∃ B ∈ As, x ∈ B := by
  have hfold : ∀ Bs : List (Finset α), x ∈ Bs.foldr (· ∪ ·) ∅ ↔ ∃ B ∈ Bs, x ∈ B := by
    intro Bs
    induction Bs with
    | nil => simp
    | cons B Bs ih => rw [List.foldr_cons, Finset.mem_union, ih, List.exists_mem_cons_iff]
  cases As with
  | nil => simp [eval]
  | cons A As => exact hfold _

end Eval

variable {S : Type} [LinearOrder S]

/-- The command that answers with the result. -/
def read : Algebra → Redis S → List Bytes → ℕ → Except Error (List Bytes)
  | diff => sdiff
  | inter => sinter
  | union => sunion

/-- The command that stores the result. -/
def store : Algebra → Bytes → List Bytes → ℕ → Op S ℤ
  | diff => sdiffstore
  | inter => sinterstore
  | union => sunionstore

end Algebra

variable {S : Type} [LinearOrder S] {db : Redis S} {key destination : Bytes} {keys : List Bytes}
variable {now : ℕ}

/-! ### Sources -/

/-- The members of the set at a key, of which there are none if the key is missing. -/
def setOf (db : Redis S) (key : Bytes) (now : ℕ) : Finset Bytes :=
  match db.baseMeta .set key now with
  | .ok (some m) => (membersAt db key m.version).toFinset
  | _ => ∅

/-- Every key holds a set or nothing. -/
def HoldSets (db : Redis S) (keys : List Bytes) (now : ℕ) : Prop :=
  ∀ key ∈ keys, ∃ found, db.baseMeta .set key now = .ok found

theorem setOf_of_missing (h : db.baseMeta .set key now = .ok none) : setOf db key now = ∅ := by
  rw [setOf, h]

theorem setOf_of_found {m : BaseMetaValue} (h : db.baseMeta .set key now = .ok (some m)) :
    setOf db key now = (membersAt db key m.version).toFinset := by
  rw [setOf, h]

theorem mem_membersAt {version : ℕ} {x : Bytes} :
    x ∈ membersAt db key version ↔ hasMember db key version x = true := by
  rw [SetRemoval.membersAt_eq, SetRemoval.hasMember_eq, SortedMap.mem_keys_iff]

variable {found : Option BaseMetaValue}

section

variable (h : db.baseMeta .set key now = .ok found)

include h

theorem sismember_eq (x : Bytes) :
    sismember db key x now = .ok (decide (x ∈ setOf db key now)) := by
  rw [sismember, Redis.validMeta_eq_baseMeta, h, Program.except_ok_bind]
  rcases found with _ | m
  · rw [setOf_of_missing h]
    rfl
  · rw [setOf_of_found h]
    refine congrArg Except.ok ?_
    rw [Bool.eq_iff_iff, decide_eq_true_iff, List.mem_toFinset, mem_membersAt]

theorem exists_smembers :
    ∃ ms, smembers db key now = .ok ms ∧
      ms.toFinset = (setOf db key now).image fromUtf8Lossy := by
  rw [smembers, Redis.validMeta_eq_baseMeta, h, Program.except_ok_bind]
  rcases found with _ | m
  · exact ⟨[], rfl, by rw [setOf_of_missing h]; rfl⟩
  · refine ⟨_, rfl, ?_⟩
    rw [setOf_of_found h]
    ext y
    simp only [List.mem_toFinset, List.mem_map, Finset.mem_image]

end

theorem filterM_ok {α : Type} (p : α → Bool) (xs : List α) :
    (xs.filterM fun x ↦ (Except.ok (p x) : Except Error Bool)) = .ok (xs.filter p) := by
  have hloop : ∀ acc : List α,
      (List.filterAuxM (fun x ↦ (Except.ok (p x) : Except Error Bool)) xs acc) =
        .ok ((xs.filter p).reverse ++ acc) := by
    induction xs with
    | nil => exact fun acc ↦ rfl
    | cons x xs ih =>
      intro acc
      rw [List.filterAuxM, Program.except_ok_bind, ih]
      cases hp : p x <;> simp [hp]
  rw [List.filterM, hloop, Program.except_ok_bind]
  simp [pure, Except.pure]

/-! ### What is read -/

/-- The set that a command is asked for. -/
def result (op : Algebra) (db : Redis S) (keys : List Bytes) (now : ℕ) : Finset Bytes :=
  op.eval (keys.map fun key ↦ setOf db key now)

/-- Rendering leaves a set alone if and only if it is made of text. -/
theorem image_fromUtf8Lossy_eq_self_iff {R : Finset Bytes} :
    R.image fromUtf8Lossy = R ↔ ∀ x ∈ R, isUtf8 x = true := by
  constructor
  · intro h x hx
    rw [← h] at hx
    obtain ⟨y, -, rfl⟩ := Finset.mem_image.1 hx
    exact isUtf8_fromUtf8Lossy y
  · intro h
    calc R.image fromUtf8Lossy = R.image id :=
          Finset.image_congr fun x hx ↦ fromUtf8Lossy_of_isUtf8 (h x hx)
      _ = R := Finset.image_id

section

variable (h : HoldSets db keys now)

include h

theorem inAny_eq (x : Bytes) :
    inAny db x now keys = .ok (decide (∃ key ∈ keys, x ∈ setOf db key now)) := by
  induction keys with
  | nil => rfl
  | cons key keys ih =>
    obtain ⟨found, hfound⟩ := h key List.mem_cons_self
    rw [inAny, sismember_eq hfound, Program.except_ok_bind]
    have hrest := ih fun k hk ↦ h k (List.mem_cons_of_mem _ hk)
    by_cases hx : x ∈ setOf db key now
    · simp [hx, pure, Except.pure]
    · simp [hx, hrest]

/-- **`sdiff`** reads the texts of the difference. -/
theorem exists_sdiff (hkeys : keys ≠ []) :
    ∃ ms, sdiff db keys now = .ok ms ∧
      ms.toFinset = (result .diff db keys now).image fromUtf8Lossy := by
  rcases keys with _ | ⟨first, others⟩
  · exact absurd rfl hkeys
  obtain ⟨found, hfound⟩ := h first List.mem_cons_self
  rw [Sets.sdiff, Redis.validMeta_eq_baseMeta, hfound, Program.except_ok_bind]
  rcases found with _ | m
  · refine ⟨[], rfl, ?_⟩
    have hempty : result .diff db (first :: others) now = ∅ := by
      rw [result, List.map_cons, setOf_of_missing hfound]
      rfl
    rw [hempty]
    rfl
  · have hothers : HoldSets db others now := fun k hk ↦ h k (List.mem_cons_of_mem _ hk)
    dsimp only
    simp only [inAny_eq hothers, Program.except_ok_bind, pure, Except.pure]
    rw [filterM_ok, Program.except_ok_bind]
    refine ⟨_, rfl, ?_⟩
    ext y
    simp only [List.mem_toFinset, List.mem_map, List.mem_filter, Finset.mem_image, result,
      List.map_cons, Algebra.mem_eval_diff, setOf_of_found hfound]
    simp

/-- **`sunion`** reads the texts of the union. -/
theorem exists_sunion (hkeys : keys ≠ []) :
    ∃ ms, sunion db keys now = .ok ms ∧
      ms.toFinset = (result .union db keys now).image fromUtf8Lossy := by
  have hall : ∀ ks : List Bytes, HoldSets db ks now → ∃ ms, unionMembers db now ks = .ok ms ∧
      ∀ y, y ∈ ms ↔ ∃ k ∈ ks, y ∈ (setOf db k now).image fromUtf8Lossy := by
    intro ks hks
    induction ks with
    | nil => exact ⟨[], rfl, by simp⟩
    | cons k ks ih =>
      obtain ⟨found, hfound⟩ := hks k List.mem_cons_self
      obtain ⟨ms, hms, hset⟩ := exists_smembers hfound
      obtain ⟨rest, hrest, hmem⟩ := ih fun j hj ↦ hks j (List.mem_cons_of_mem _ hj)
      refine ⟨ms ++ rest, ?_, fun y ↦ ?_⟩
      · rw [unionMembers, hms, Program.except_ok_bind, hrest]
        rfl
      · rw [List.mem_append, hmem, List.exists_mem_cons_iff, ← hset, List.mem_toFinset]
  obtain ⟨ms, hms, hmem⟩ := hall keys h
  refine ⟨firstBy id ms, ?_, ?_⟩
  · rcases keys with _ | ⟨first, others⟩
    · exact absurd rfl hkeys
    · rw [sunion, hms, Program.except_ok_bind]
      · rfl
      · exact hkeys
  · ext y
    have hfirst : y ∈ firstBy id ms ↔ y ∈ ms := by
      simpa using @map_firstBy_mem_iff _ _ _ id ms y
    rw [List.mem_toFinset, hfirst, hmem]
    simp only [Finset.mem_image, result, Algebra.mem_eval_union, List.mem_map]
    constructor
    · rintro ⟨k, hk, x, hx, rfl⟩
      exact ⟨x, ⟨_, ⟨k, hk, rfl⟩, hx⟩, rfl⟩
    · rintro ⟨x, ⟨_, ⟨k, hk, rfl⟩, hx⟩, rfl⟩
      exact ⟨k, hk, x, hx, rfl⟩

/-- The smallest set is one of the sets, unless one of them is missing. -/
theorem smallestSet_cases (best : Bytes × ℤ) :
    (smallestSet db now keys best = .ok none ∧ ∃ key ∈ keys, setOf db key now = ∅) ∨
      ∃ smallest size, smallestSet db now keys best = .ok (some (smallest, size)) ∧
        (smallest = best.1 ∨ smallest ∈ keys) := by
  induction keys generalizing best with
  | nil => exact Or.inr ⟨best.1, best.2, rfl, Or.inl rfl⟩
  | cons key keys ih =>
    obtain ⟨found, hfound⟩ := h key List.mem_cons_self
    rw [smallestSet, Redis.validMeta_eq_baseMeta, hfound, Program.except_ok_bind]
    rcases found with _ | m
    · exact Or.inl ⟨rfl, key, List.mem_cons_self, setOf_of_missing hfound⟩
    dsimp only
    -- the best so far is the one given, or this key if its count reads as less
    rcases ih (fun k hk ↦ h k (List.mem_cons_of_mem _ hk))
      (if asI32 m.count < best.2 then (key, asI32 m.count) else best) with
      ⟨hnone, k, hk, hempty⟩ | ⟨smallest, size, hsome, hmem⟩
    · exact Or.inl ⟨hnone, k, List.mem_cons_of_mem _ hk, hempty⟩
    · refine Or.inr ⟨smallest, size, hsome, ?_⟩
      rcases hmem with rfl | hmem
      · split_ifs
        · exact Or.inr List.mem_cons_self
        · exact Or.inl rfl
      · exact Or.inr (List.mem_cons_of_mem _ hmem)

theorem inAllExcept_eq (x skip : Bytes) :
    inAllExcept db x skip now keys =
      .ok (decide (∀ key ∈ keys, key ≠ skip → x ∈ setOf db key now)) := by
  induction keys with
  | nil => rfl
  | cons key keys ih =>
    obtain ⟨found, hfound⟩ := h key List.mem_cons_self
    have hrest := ih fun k hk ↦ h k (List.mem_cons_of_mem _ hk)
    rw [inAllExcept]
    by_cases hskip : key = skip
    · simp [hskip, hrest]
    · rw [if_neg hskip, sismember_eq hfound, Program.except_ok_bind]
      by_cases hx : x ∈ setOf db key now
      · simp [hx, hrest]
      · simp [hx, hskip, pure, Except.pure]

end

/-- **`sinter`** of several sets that are all there reads the texts of the smallest one that are in
all others, unless the count of that set reads as zero. -/
theorem exists_sinter {first second : Bytes} {others : List Bytes}
    (h : HoldSets db (first :: second :: others) now) {smallest : Bytes} {size : ℤ}
    (hsmallest : smallestSet db now (first :: second :: others) (first, 2 ^ 31 - 1) =
      .ok (some (smallest, size))) (hmem : smallest ∈ first :: second :: others) :
    ∃ ms, sinter db (first :: second :: others) now = .ok ms ∧
      ∀ y, y ∈ ms ↔ size ≠ 0 ∧ (∃ x ∈ setOf db smallest now, fromUtf8Lossy x = y) ∧
        ∀ key ∈ first :: second :: others, key ≠ smallest → y ∈ setOf db key now := by
  rw [sinter, hsmallest, Program.except_ok_bind]
  · dsimp only
    split_ifs with hsize
    · exact ⟨[], rfl, by simp [hsize]⟩
    · obtain ⟨found, hfound⟩ := h smallest hmem
      obtain ⟨ms, hms, hset⟩ := exists_smembers hfound
      simp only [hms, Program.except_ok_bind, inAllExcept_eq h]
      refine ⟨_, filterM_ok _ _, fun y ↦ ?_⟩
      have hy : y ∈ ms ↔ ∃ x ∈ setOf db smallest now, fromUtf8Lossy x = y := by
        rw [← List.mem_toFinset, hset, Finset.mem_image]
      rw [List.mem_filter, hy, decide_eq_true_iff]
      exact (and_iff_right hsize).symm
  · nofun

/-- What `sinter` finds as text of its smallest set in the other ones is a member of that set too.
A count that reads as zero ends the search. -/
def MeetsAsText (db : Redis S) (keys : List Bytes) (now : ℕ) : Prop :=
  ∀ first second others smallest size, keys = first :: second :: others →
    smallestSet db now keys (first, 2 ^ 31 - 1) = .ok (some (smallest, size)) →
    if size = 0 then result .inter db keys now = ∅
    else ∀ x ∈ setOf db smallest now,
      (∀ key ∈ keys, key ≠ smallest → fromUtf8Lossy x ∈ setOf db key now) →
        fromUtf8Lossy x ∈ setOf db smallest now

/-- The sources are read without a loss. -/
structure Lossless (op : Algebra) (db : Redis S) (keys : List Bytes) (now : ℕ) : Prop where
  /-- The result is made of well-formed text. -/
  text : ∀ x ∈ result op db keys now, isUtf8 x = true
  /-- No text is found in place of another byte string. -/
  meets : op = .inter → MeetsAsText db keys now

theorem mem_result_inter (hkeys : keys ≠ []) {x : Bytes} :
    x ∈ result .inter db keys now ↔ ∀ key ∈ keys, x ∈ setOf db key now := by
  rw [result, Algebra.mem_eval_inter (by simpa using hkeys), List.forall_mem_map]

theorem exists_sinter_one (h : HoldSets db [key] now) :
    ∃ ms, sinter db [key] now = .ok ms ∧
      (ms.toFinset = result .inter db [key] now ↔ Lossless .inter db [key] now) := by
  obtain ⟨found, hfound⟩ := h key List.mem_cons_self
  obtain ⟨ms, hms, hset⟩ := exists_smembers hfound
  have hone : result .inter db [key] now = setOf db key now := by
    ext x
    rw [mem_result_inter (List.cons_ne_nil _ _)]
    simp
  refine ⟨ms, hms, ?_⟩
  rw [hset, hone, image_fromUtf8Lossy_eq_self_iff]
  refine ⟨fun htext ↦ ⟨?_, fun _ ↦ nofun⟩, fun hl ↦ ?_⟩
  · rwa [hone]
  · exact hone ▸ hl.text

section Several

variable {first second : Bytes} {others : List Bytes}

/-- A missing source makes the intersection empty, and `sinter` reads nothing. -/
theorem exists_sinter_missing
    (hnone : smallestSet db now (first :: second :: others) (first, 2 ^ 31 - 1) = .ok none)
    {k : Bytes} (hk : k ∈ first :: second :: others) (hempty : setOf db k now = ∅) :
    ∃ ms, sinter db (first :: second :: others) now = .ok ms ∧
      (ms.toFinset = result .inter db (first :: second :: others) now ↔
        Lossless .inter db (first :: second :: others) now) := by
  have hresult : result .inter db (first :: second :: others) now = ∅ := by
    refine Finset.eq_empty_of_forall_notMem fun x hx ↦ ?_
    exact Finset.notMem_empty x (hempty ▸ (mem_result_inter (List.cons_ne_nil _ _)).1 hx k hk)
  refine ⟨[], ?_, ?_⟩
  · rw [sinter, hnone, Program.except_ok_bind]
    · rfl
    · nofun
  · refine iff_of_true (by rw [hresult]; rfl) ⟨by simp [hresult], fun _ ↦ ?_⟩
    intro first' _ _ smallest size heq hsome
    obtain ⟨rfl, -⟩ := List.cons.inj heq
    rw [hnone] at hsome
    cases hsome

variable {smallest : Bytes} {size : ℤ}

section

variable
  (hsome : smallestSet db now (first :: second :: others) (first, 2 ^ 31 - 1) =
    .ok (some (smallest, size)))

include hsome

theorem meetsAsText_iff :
    MeetsAsText db (first :: second :: others) now ↔
      if size = 0 then result .inter db (first :: second :: others) now = ∅
      else ∀ x ∈ setOf db smallest now,
        (∀ key ∈ first :: second :: others, key ≠ smallest →
          fromUtf8Lossy x ∈ setOf db key now) → fromUtf8Lossy x ∈ setOf db smallest now := by
  refine ⟨fun hm ↦ hm _ _ _ _ _ rfl hsome, fun hm ↦ ?_⟩
  intro first' _ _ smallest' size' heq hsome'
  obtain ⟨rfl, -⟩ := List.cons.inj heq
  obtain ⟨rfl, rfl⟩ := Prod.mk.inj (Option.some.inj (Except.ok.inj (hsome.symm.trans hsome')))
  exact hm

theorem sinter_several_iff (hmem : smallest ∈ first :: second :: others) {ms : List Bytes}
    (hread : ∀ y, y ∈ ms ↔ size ≠ 0 ∧ (∃ x ∈ setOf db smallest now, fromUtf8Lossy x = y) ∧
      ∀ key ∈ first :: second :: others, key ≠ smallest → y ∈ setOf db key now) :
    ms.toFinset = result .inter db (first :: second :: others) now ↔
      Lossless .inter db (first :: second :: others) now := by
  have hinter : ∀ {x}, x ∈ result .inter db (first :: second :: others) now ↔
      ∀ key ∈ first :: second :: others, x ∈ setOf db key now :=
    mem_result_inter (List.cons_ne_nil _ _)
  constructor
  · intro heq
    have hiff : ∀ y, y ∈ result .inter db (first :: second :: others) now ↔ y ∈ ms := fun y ↦ by
      rw [← heq, List.mem_toFinset]
    refine ⟨fun x hx ↦ ?_, fun _ ↦ (meetsAsText_iff hsome).2 ?_⟩
    · obtain ⟨-, ⟨y, -, rfl⟩, -⟩ := (hread x).1 ((hiff x).1 hx)
      exact isUtf8_fromUtf8Lossy y
    · split_ifs with hsize
      · exact Finset.eq_empty_of_forall_notMem fun x hx ↦
          ((hread x).1 ((hiff x).1 hx)).1 hsize
      · -- a text that is found is in the result, and so in the smallest set itself
        intro x hx hothers
        have hfound := (hiff _).2 ((hread _).2 ⟨hsize, ⟨x, hx, rfl⟩, hothers⟩)
        exact hinter.1 hfound smallest hmem
  · rintro ⟨htext, hm⟩
    replace hm := (meetsAsText_iff hsome).1 (hm rfl)
    ext y
    rw [List.mem_toFinset, hread]
    constructor
    · rintro ⟨hsize, ⟨x, hx, rfl⟩, hothers⟩
      rw [if_neg hsize] at hm
      refine hinter.2 fun key hkey ↦ ?_
      by_cases hk : key = smallest
      · exact hk ▸ hm x hx hothers
      · exact hothers key hkey hk
    · intro hy
      have hall := hinter.1 hy
      refine ⟨fun hsize ↦ ?_, ⟨y, hall smallest hmem, ?_⟩, fun key hkey _ ↦ hall key hkey⟩
      · rw [if_pos hsize] at hm
        exact Finset.notMem_empty y (hm ▸ hy)
      · exact fromUtf8Lossy_of_isUtf8 (htext y hy)

end

end Several

theorem exists_sinter_iff (h : HoldSets db keys now) (hkeys : keys ≠ []) :
    ∃ ms, sinter db keys now = .ok ms ∧
      (ms.toFinset = result .inter db keys now ↔ Lossless .inter db keys now) := by
  rcases keys with _ | ⟨first, _ | ⟨second, others⟩⟩
  · exact absurd rfl hkeys
  · exact exists_sinter_one h
  rcases smallestSet_cases h (first, 2 ^ 31 - 1) with
    ⟨hnone, k, hk, hempty⟩ | ⟨smallest, size, hsome, hmem⟩
  · exact exists_sinter_missing hnone hk hempty
  replace hmem : smallest ∈ first :: second :: others := by
    rcases hmem with rfl | hmem
    · exact List.mem_cons_self
    · exact hmem
  obtain ⟨ms, hms, hread⟩ := exists_sinter h hsome hmem
  exact ⟨ms, hms, sinter_several_iff hsome hmem hread⟩

/-- **What is read** is the result exactly when nothing is lost. -/
theorem exists_read (op : Algebra) (h : HoldSets db keys now) (hkeys : keys ≠ []) :
    ∃ ms, op.read db keys now = .ok ms ∧
      (ms.toFinset = result op db keys now ↔ Lossless op db keys now) := by
  have hrendered : ∀ {op : Algebra} {ms : List Bytes}, op ≠ .inter →
      ms.toFinset = (result op db keys now).image fromUtf8Lossy →
      (ms.toFinset = result op db keys now ↔ Lossless op db keys now) := by
    intro op ms hop hms
    rw [hms, image_fromUtf8Lossy_eq_self_iff]
    exact ⟨fun htext ↦ ⟨htext, fun he ↦ absurd he hop⟩, Lossless.text⟩
  cases op with
  | diff =>
    obtain ⟨ms, hms, hset⟩ := exists_sdiff h hkeys
    exact ⟨ms, hms, hrendered nofun hset⟩
  | inter => exact exists_sinter_iff h hkeys
  | union =>
    obtain ⟨ms, hms, hset⟩ := exists_sunion h hkeys
    exact ⟨ms, hms, hrendered nofun hset⟩

/-! ### What is stored -/

open Program in
theorem exec_store {op : Algebra} {ms : List Bytes} (hkeys : keys ≠ [])
    (hread : op.read db keys now = .ok ms) :
    (op.store destination keys now).exec db = (clearAndStoreSet destination ms now).exec db := by
  have hempty : ¬keys.isEmpty = true := by simpa using hkeys
  cases op with
  | diff =>
    show (sdiffstore destination keys now).exec db = _
    rw [sdiffstore, exec_ite, if_neg hempty, exec_get_bind]
    have hread : sdiff db keys now = .ok ms := hread
    rw [hread, exec_lift_ok_bind]
  | inter =>
    show (sinterstore destination keys now).exec db = _
    rw [sinterstore, exec_ite, if_neg hempty, exec_get_bind]
    have hread : sinter db keys now = .ok ms := hread
    rw [hread, exec_lift_ok_bind]
  | union =>
    show (sunionstore destination keys now).exec db = _
    rw [sunionstore, exec_ite, if_neg hempty, exec_get_bind]
    have hread : sunion db keys now = .ok ms := hread
    rw [hread, exec_lift_ok_bind]

/-- The batch of a store: the meta value, or its deletion, and the members. -/
def storeBatch (db : Redis S) (destination : Bytes) (ms : List Bytes) (now : ℕ) : Batch S :=
  let m := (newSetMeta now).setCount ms.length
  clearMembers db destination now ++
    .metaCF destination (if ms = [] then none else some (.base m)) ::
      putMembers destination m.version ms

open Program in
theorem exec_clearAndStoreSet (ms : List Bytes) :
    (clearAndStoreSet destination ms now).exec db =
      (.ok (asI32 (firstBy id ms).length), db.write (storeBatch db destination (firstBy id ms) now))
      := by
  rw [clearAndStoreSet, exec_get_bind, exec_ite]
  rcases ms with _ | ⟨x, ms⟩
  · rw [if_pos List.isEmpty_nil]
    have hzero : asI32 (([] : List Bytes).length : ℤ) = 0 := asI32_of_lt (by norm_num)
    rw [show firstBy id ([] : List Bytes) = [] from rfl, hzero]
    rfl
  · have hne : firstBy id (x :: ms) ≠ [] := firstBy_ne_nil (List.cons_ne_nil _ _)
    rw [if_neg (by simp), storeBatch, if_neg hne]
    rfl

theorem names_storeBatch (ms : List Bytes) :
    Names destination (storeBatch db destination ms now) := by
  rw [storeBatch]
  refine (meets_clearMembers db destination now).append
    (meets_cons (List.mem_singleton_self _) ?_
      (meets_putMembers (List.mem_singleton_self _) trivial _))
  split_ifs <;> trivial

theorem metaCF_storeBatch (ms : List Bytes) :
    (db.write (storeBatch db destination ms now)).metaCF.get destination =
      if ms = [] then none else some (.base ((newSetMeta now).setCount ms.length)) := by
  have hwrites : (storeBatch db destination ms now).filterMap Entry.metaWrite? = [(destination,
      if ms = [] then none else some (.base ((newSetMeta now).setCount ms.length)))] := by
    rw [storeBatch, List.filterMap_append, metaWrites_clearMembers, List.nil_append]
    exact congrArg (List.cons _) (metaWrites_putMembers ..)
  rw [Redis.write_metaCF, hwrites]
  exact SortedMap.get_apply_of_mem (List.mem_singleton_self _) (by simp)

/-- The members with a row under the version of a new set when the destination is cleared: an
earlier set of the same microsecond left them behind. -/
def leftovers (db : Redis S) (destination : Bytes) (now : ℕ) : Finset Bytes :=
  (membersAt (db.write (clearMembers db destination now)) destination
    (newSetMeta now).version).toFinset

section

variable (db) (ms : List Bytes)

/-- Under the version of the new set there are its members and what was left there. -/
theorem hasMember_storeBatch (x : Bytes) :
    hasMember (db.write (storeBatch db destination ms now)) destination (newSetMeta now).version
      x = true ↔ x ∈ ms ∨ x ∈ leftovers db destination now := by
  have hwrites : (storeBatch db destination ms now).filterMap Entry.setWrite? =
      (clearMembers db destination now).filterMap Entry.setWrite? ++
        ms.map fun y ↦ (⟨destination, (newSetMeta now).version, y⟩, some ()) := by
    rw [storeBatch, List.filterMap_append]
    exact congrArg (_ ++ ·) (setWrites_putMembers ..)
  rw [leftovers, List.mem_toFinset, mem_membersAt, hasMember, hasMember, Redis.write_setsDataCF,
    hwrites, SortedMap.apply_append, ← Redis.write_setsDataCF]
  by_cases hx : x ∈ ms
  · rw [SortedMap.get_apply_of_mem (o := some ()) (List.mem_map.2 ⟨x, hx, rfl⟩) (by simp)]
    simp [hx]
  · rw [SortedMap.get_apply_of_notMem (by simpa using hx), or_iff_right hx]

/-- **The set at the destination** after the batch, at any time. -/
theorem setOf_storeBatch (time : ℕ) :
    setOf (db.write (storeBatch db destination ms now)) destination time =
      if ms = [] then ∅ else ms.toFinset ∪ leftovers db destination now := by
  have hmeta : (db.write (storeBatch db destination ms now)).metaCF.get destination = _ :=
    metaCF_storeBatch ms
  split_ifs at hmeta ⊢ with hms
  · exact setOf_of_missing (Redis.baseMeta_eq_ok_none_iff.2 (Redis.liveMeta_eq_none_of_get hmeta))
  · have hlive : (MetaValue.base ((newSetMeta now).setCount ms.length)).isStale time = false :=
      Bool.or_eq_false_iff.2 ⟨beq_false_of_ne (by simpa [BaseMetaValue.setCount] using hms), rfl⟩
    have hfound := Redis.baseMeta_eq_ok_some_iff.2
      ⟨Redis.liveMeta_eq_some_iff.2 ⟨hmeta, hlive⟩, rfl⟩
    rw [setOf_of_found hfound]
    ext x
    rw [List.mem_toFinset, mem_membersAt, Finset.mem_union, List.mem_toFinset]
    exact hasMember_storeBatch db ms x

end

/-- What a store of set algebra is for. -/
structure Stores (op : Algebra) (db : Redis S) (destination : Bytes) (keys : List Bytes)
    (now : ℕ) : Prop where
  /-- The answer is the size of the result. -/
  answer : ((op.store destination keys now).exec db).1 = .ok ((result op db keys now).card : ℤ)
  /-- The result of the sources as they were is at the destination. -/
  stored : ∀ time, setOf ((op.store destination keys now).exec db).2 destination time =
    result op db keys now
  /-- The destination is deleted if there is nothing to store. -/
  deleted : result op db keys now = ∅ →
    ((op.store destination keys now).exec db).2.metaCF.get destination = none
  others : ∀ k, k ≠ destination → ((op.store destination keys now).exec db).2.AgreeAt db k

/-- **Stores of set algebra.** For all sources that hold sets or nothing, also repeated ones and the
destination itself, and whatever the destination holds: a store does what it is for exactly when the
sources are read without a loss, the size of the result is an `i32`, and the version of the new set
is fresh: the rows that are left under it, unless nothing is stored, belong to members of the
result. -/
theorem store_algebra_iff (op : Algebra) (db : Redis S) (destination : Bytes) (keys : List Bytes)
    (now : ℕ) (hkeys : keys ≠ []) (hsets : HoldSets db keys now) :
    Stores op db destination keys now ↔
      Lossless op db keys now ∧ (result op db keys now).card < 2 ^ 31 ∧
        (result op db keys now ≠ ∅ → leftovers db destination now ⊆ result op db keys now) := by
  obtain ⟨ms, hread, hlossless⟩ := exists_read op hsets hkeys
  have hexec : (op.store destination keys now).exec db = _ :=
    (exec_store hkeys hread).trans (exec_clearAndStoreSet ms)
  have hfirst : (firstBy id ms).toFinset = ms.toFinset := by
    ext y
    simpa using @map_firstBy_mem_iff _ _ _ id ms y
  have hnodup : (firstBy id ms).Nodup := by
    simpa using @nodup_map_firstBy _ _ _ id ms
  have hcard : (firstBy id ms).length = ms.toFinset.card := by
    rw [← hfirst, List.toFinset_card_of_nodup hnodup]
  have hnil : firstBy id ms = [] ↔ ms.toFinset = ∅ := by
    rw [← hfirst, List.toFinset_eq_empty_iff]
  have hstored : ∀ time, setOf (db.write (storeBatch db destination (firstBy id ms) now))
      destination time = _ := setOf_storeBatch db (firstBy id ms)
  simp only [hnil, hfirst] at hstored
  rw [← hlossless]
  constructor
  · intro h
    have hat := h.stored now
    rw [hexec, hstored now] at hat
    have hsub : ms.toFinset ⊆ result op db keys now := by
      rw [← hat]
      split_ifs with hempty
      · rw [hempty]
      · exact Finset.subset_union_left
    -- the answer says how many members were put
    have hanswer := h.answer
    rw [hexec, hcard] at hanswer
    have hsize := Except.ok.inj hanswer
    have hle : asI32 ms.toFinset.card ≤ ms.toFinset.card := by
      rw [asI32, Int.bmod_def]
      split_ifs <;> omega
    have heq : ms.toFinset = result op db keys now :=
      Finset.eq_of_subset_of_card_le hsub (by omega)
    refine ⟨heq, ?_, fun hne ↦ ?_⟩
    · rw [heq, SetRemoval.asI32_eq_iff le_rfl] at hsize
      exact hsize.1
    · rw [heq, if_neg hne] at hat
      exact Finset.union_eq_left.1 hat
  · rintro ⟨heq, hsmall, hfresh⟩
    refine ⟨?_, fun time ↦ ?_, fun hempty ↦ ?_, fun k hk ↦ ?_⟩
    · rw [hexec, hcard, heq]
      exact congrArg Except.ok (asI32_of_lt hsmall)
    · rw [hexec, hstored time, heq]
      split_ifs with hempty
      · exact hempty.symm
      · exact Finset.union_eq_left.2 (hfresh hempty)
    · rw [hexec]
      exact (metaCF_storeBatch _).trans (if_pos (hnil.2 (heq.trans hempty)))
    · rw [hexec]
      exact Redis.agreeAt_write_of_ne (names_storeBatch _) hk

/-- The sets `{a, b}` and `{b, c}`. -/
def twoSets : Redis ℤ :=
  ((do
    let _ ← sadd [1] [[97], [98]] 1
    sadd [2] [[98], [99]] 2 : Op ℤ ℤ).exec .empty).2

/-- The intersection replaces one of its sources. -/
theorem store_algebra_inter : HoldSets twoSets [[1], [2]] 5 ∧
    Stores .inter twoSets [2] [[1], [2]] 5 ∧ (result .inter twoSets [[1], [2]] 5).card = 1 := by
  have hsets : HoldSets twoSets [[1], [2]] 5 := by
    intro key hkey
    have hlive : ∀ k ∈ [[1], [2]], ∃ m ∈ [BaseMetaValue.mk .set 2 1 0 0, ⟨.set, 2, 2, 0, 0⟩],
        twoSets.liveMeta k 5 = some (.base m) ∧ m.dataType = .set := by decide +kernel
    obtain ⟨m, -, hm⟩ := hlive key hkey
    exact ⟨some m, Redis.baseMeta_eq_ok_some_iff.2 hm⟩
  have hresult : result .inter twoSets [[1], [2]] 5 = {[98]} := by decide +kernel
  refine ⟨hsets, ?_, by rw [hresult]; rfl⟩
  refine (store_algebra_iff .inter twoSets [2] [[1], [2]] 5 (by simp) hsets).2
    ⟨⟨?_, ?_⟩, ?_, fun _ ↦ by decide +kernel⟩
  · rw [hresult]
    decide
  · intro _ first second others smallest size heq hsome
    obtain ⟨rfl, -⟩ := List.cons.inj heq
    have hfirst : (smallestSet twoSets 5 [[1], [2]] ([1], 2 ^ 31 - 1)).toOption =
        some (some ([1], 2)) := by decide +kernel
    rw [hsome] at hfirst
    obtain ⟨rfl, rfl⟩ := Prod.mk.inj (Option.some.inj (Option.some.inj hfirst))
    decide +kernel
  · rw [hresult]
    decide

/-- A set with a member that is not text. -/
def notText : Redis ℤ := ((sadd [1] [[0xFF]] 1).exec .empty).2

/-- **A member that is not text is replaced**: the union of one set is stored with the replacement
character in place of its member. -/
theorem sunionstore_replaces_member :
    setOf notText [1] 2 = {[0xFF]} ∧ result .union notText [[1]] 2 = {[0xFF]} ∧
      setOf ((sunionstore [2] [[1]] 2).exec notText).2 [2] 2 = {[0xEF, 0xBF, 0xBD]} :=
  ⟨by decide +kernel, by decide +kernel, by decide +kernel⟩

end Kiwi.SetAlgebra
