import Kiwi.Correctness.LogRefinement
import Kiwi.Lib.Lexicographic
import Kiwi.Storage.VectorMemberKey

/-!
# The range of a vector set's members

The bound that `prefixUpperBound` computes cuts off the strings that begin with the prefix
(`forall_lt_bound_iff`). A member key begins with the prefix of a generation if it is a member of
that generation, because all fields before the element have a known length, and the members of a
key are ordered by their fields (`memberRange_exact`).
-/

namespace Kiwi.VectorFormat

open Raft (beBytes beBytes_lt_iff length_beBytes ofBeBytes_beBytes)
open Lexicographic

variable {p x : Bytes}

/-! ### The bound of a prefix -/

theorem upperBoundRev_append (bytes : Bytes) (b : UInt8) :
    upperBoundRev (bytes ++ [b]) =
      ((upperBoundRev bytes).map (· ++ [b])).or (upperBoundRev [b]) := by
  induction bytes with
  | nil => rfl
  | cons last rest ih =>
    by_cases hlast : last = 0xFF
    · rw [List.cons_append, upperBoundRev, upperBoundRev, if_pos hlast, if_pos hlast, ih]
    · rw [List.cons_append, upperBoundRev, upperBoundRev, if_neg hlast, if_neg hlast]
      rfl

theorem prefixUpperBound_cons (b : UInt8) (p : Bytes) :
    prefixUpperBound (b :: p) =
      ((prefixUpperBound p).map (b :: ·)).or (if b = 0xFF then none else some [b + 1]) := by
  rw [prefixUpperBound, prefixUpperBound, List.reverse_cons, upperBoundRev_append, Option.map_or,
    Option.map_map, Option.map_map]
  congr 2
  · funext u
    exact List.reverse_append
  · rw [upperBoundRev, upperBoundRev]
    split_ifs <;> rfl

theorem lt_succ_iff {b c : UInt8} (hb : b ≠ 0xFF) : c < b + 1 ↔ c ≤ b := by grind

theorem le_max (c : UInt8) : c ≤ 0xFF := by grind

/-- **The bound is exact.** Of the strings from the prefix on, those before the bound begin with the
prefix, and all of them do if there is no bound. -/
theorem forall_lt_bound_iff (h : p ≤ x) : (∀ bound ∈ prefixUpperBound p, x < bound) ↔ p <+: x := by
  induction p generalizing x with
  | nil => exact iff_of_true (fun _ h ↦ nomatch h) List.nil_prefix
  | cons b p ih =>
    cases x with
    | nil => exact absurd h (not_le.2 (List.nil_lt_cons b p))
    | cons c y =>
      rw [prefixUpperBound_cons, List.cons_prefix_cons]
      rcases List.cons_le_cons_iff.1 (not_lt.2 h) with hlt | ⟨rfl, hle⟩
      · -- the string has a greater byte where the prefix has `b`, and the bound has at most `b + 1`
        refine iff_of_false (fun hall ↦ ?_) fun heq ↦ hlt.ne heq.1
        cases hp : prefixUpperBound p with
        | some u =>
          rw [hp] at hall
          exact lt_asymm (hall _ rfl) (List.cons_lt_cons_iff.2 (.inl hlt))
        | none =>
          have hb : b ≠ 0xFF := fun hb ↦ not_le.2 hlt (hb ▸ le_max c)
          rw [hp, if_neg hb] at hall
          rcases List.cons_lt_cons_iff.1 (hall _ rfl) with hc | ⟨-, hy⟩
          · exact not_le.2 hlt ((lt_succ_iff hb).1 hc)
          · exact List.not_lt_nil y hy
      · rw [← ih (not_lt.1 hle), eq_self, true_and]
        cases hp : prefixUpperBound p with
        | some u =>
          simp only [Option.map_some, Option.some_or, Option.mem_some_iff, forall_eq',
            List.cons_lt_cons_iff, lt_self_iff_false, false_or, true_and]
        | none =>
          refine iff_of_true (fun bound hbound ↦ ?_) fun _ h ↦ nomatch h
          by_cases hb : b = 0xFF
          · rw [if_pos hb] at hbound
            exact nomatch hbound
          · rw [if_neg hb] at hbound
            obtain rfl : [b + 1] = bound := Option.some.inj hbound
            exact List.cons_lt_cons_iff.2 (.inl ((lt_succ_iff hb).2 le_rfl))

theorem mem_range_iff {bound : Bytes} (h : prefixUpperBound p = some bound) :
    p ≤ x ∧ x < bound ↔ p <+: x := by
  have hexact (hle : p ≤ x) : x < bound ↔ p <+: x := by
    rw [← forall_lt_bound_iff hle, h]
    simp only [Option.mem_some_iff, forall_eq']
  refine ⟨fun hx ↦ (hexact hx.1).1 hx.2, fun hp ↦ ?_⟩
  have hle : p ≤ x := not_lt.1 hp.le
  exact ⟨hle, (hexact hle).2 hp⟩

/-! ### The fields of a key -/

/-- The bytes before the element. -/
def header (key : Bytes) (storageIncarnation generationSequence : ℕ) : Bytes :=
  1 :: (beBytes 4 key.length ++ (key ++ (beBytes 8 storageIncarnation ++
    beBytes 8 generationSequence)))

theorem encodePrefix_of_lt {key : Bytes} (h : key.length < 2 ^ 32) (i g : ℕ) :
    encodePrefix key i g = .ok (header key i g) := by
  rw [encodePrefix, encodeKeyPrefix, if_pos h, header]
  simp only [Except.map, List.cons_append, List.append_assoc]

variable {k : MemberKey}

theorem encodeFull_of_valid (h : ValidKey k) :
    encodeFull k = .ok (header k.key k.storageIncarnation k.generationSequence ++ k.element) := by
  rw [encodeFull, encodeKeyPrefix, if_pos h.key, header]
  simp only [Except.map, List.cons_append, List.append_assoc]

theorem exists_bound_header (key : Bytes) (i g : ℕ) :
    ∃ bound, prefixUpperBound (header key i g) = some bound := by
  rw [header, prefixUpperBound_cons]
  cases prefixUpperBound _ with
  | some u => exact ⟨1 :: u, rfl⟩
  | none => exact ⟨[1 + 1], rfl⟩

variable {width a b : ℕ}

theorem length_beBytes_eq : (beBytes width a).length = (beBytes width b).length := by
  rw [length_beBytes, length_beBytes]

theorem beBytes_inj (ha : a < 256 ^ width) (hb : b < 256 ^ width)
    (h : beBytes width a = beBytes width b) : a = b := by
  have hmod := congrArg Raft.ofBeBytes h
  rwa [ofBeBytes_beBytes, ofBeBytes_beBytes, Nat.mod_eq_of_lt ha, Nat.mod_eq_of_lt hb] at hmod

/-- The keys that start with a header are those of its set, incarnation and generation: the length
in front of the user key tells where it ends. -/
theorem header_prefix_iff {key : Bytes} {i g : ℕ} (h : ValidKey ⟨key, i, g, []⟩) (hk : ValidKey k) :
    header key i g <+: header k.key k.storageIncarnation k.generationSequence ++ k.element ↔
      k.key = key ∧ k.storageIncarnation = i ∧ k.generationSequence = g := by
  constructor
  · rintro ⟨t, ht⟩
    simp only [header, List.cons_append, List.append_assoc, List.cons.injEq, true_and] at ht
    obtain ⟨hlen, ht⟩ := List.append_inj ht length_beBytes_eq
    obtain ⟨hkey, ht⟩ := List.append_inj ht (beBytes_inj h.key hk.key hlen)
    obtain ⟨hi, ht⟩ := List.append_inj ht length_beBytes_eq
    obtain ⟨hg, -⟩ := List.append_inj ht length_beBytes_eq
    exact ⟨hkey.symm, (beBytes_inj h.storageIncarnation hk.storageIncarnation hi).symm,
      (beBytes_inj h.generationSequence hk.generationSequence hg).symm⟩
  · rintro ⟨rfl, rfl, rfl⟩
    exact List.prefix_append _ _

/-! ### The order of the members -/

theorem beBytes_append_lt_iff (ha : a < 256 ^ width) (hb : b < 256 ^ width)
    {x y : Bytes} : beBytes width a ++ x < beBytes width b ++ y ↔ a < b ∨ a = b ∧ x < y := by
  have hlt := beBytes_lt_iff width a b
  rw [Nat.mod_eq_of_lt ha, Nat.mod_eq_of_lt hb] at hlt
  rw [← lexCompare_eq_lt_iff, lexCompare_append (fun h ↦ h.eq_of_length length_beBytes_eq)
    (fun h ↦ h.eq_of_length length_beBytes_eq), Ordering.then_eq_lt, lexCompare_eq_lt_iff,
    lexCompare_eq_lt_iff, lexCompare_eq_eq_iff, hlt]
  exact or_congr_right (and_congr_left' ⟨beBytes_inj ha hb, congrArg _⟩)

/-- Big-endian numbers are in the order of their bytes, so the keys of a set are in the order of
incarnation, generation and element. -/
theorem member_lt_iff {key e e' : Bytes} {i g i' g' : ℕ} (h : ValidKey ⟨key, i, g, e⟩)
    (h' : ValidKey ⟨key, i', g', e'⟩) :
    header key i g ++ e < header key i' g' ++ e' ↔
      toLex (i, toLex (g, e)) < toLex (i', toLex (g', e')) := by
  have hcons (u x y : Bytes) : u ++ x < u ++ y ↔ x < y := by
    rw [← lexCompare_eq_lt_iff, lexCompare_append_left, lexCompare_eq_lt_iff]
  simp only [header, List.cons_append, List.append_assoc, List.cons_lt_cons_iff,
    lt_self_iff_false, false_or, true_and, hcons]
  rw [beBytes_append_lt_iff h.storageIncarnation h'.storageIncarnation,
    beBytes_append_lt_iff h.generationSequence h'.generationSequence,
    Prod.Lex.toLex_lt_toLex, Prod.Lex.toLex_lt_toLex]

/-- **The range of a generation is exact.** The bound of its prefix exists, the range up to it holds
the strings that begin with the prefix, its member keys are those of this generation, and the
members of one key are ordered by incarnation, generation and element. -/
theorem memberRange_exact (key : Bytes) (i g : ℕ) (h : ValidKey ⟨key, i, g, []⟩) :
    ∃ lower bound, encodePrefix key i g = .ok lower ∧ prefixUpperBound lower = some bound ∧
      (∀ x, lower ≤ x ∧ x < bound ↔ lower <+: x) ∧
      (∀ k, ValidKey k → ∃ full, encodeFull k = .ok full ∧
        (lower ≤ full ∧ full < bound ↔
          k.key = key ∧ k.storageIncarnation = i ∧ k.generationSequence = g)) ∧
      ∀ i₁ g₁ e₁ i₂ g₂ e₂, ValidKey ⟨key, i₁, g₁, e₁⟩ → ValidKey ⟨key, i₂, g₂, e₂⟩ →
        ∃ full₁ full₂, encodeFull ⟨key, i₁, g₁, e₁⟩ = .ok full₁ ∧
          encodeFull ⟨key, i₂, g₂, e₂⟩ = .ok full₂ ∧
          (full₁ < full₂ ↔ toLex (i₁, toLex (g₁, e₁)) < toLex (i₂, toLex (g₂, e₂))) := by
  obtain ⟨bound, hbound⟩ := exists_bound_header key i g
  refine ⟨header key i g, bound, encodePrefix_of_lt h.key i g, hbound, fun x ↦ mem_range_iff hbound,
    fun k hk ↦ ⟨_, encodeFull_of_valid hk, ?_⟩, fun i₁ g₁ e₁ i₂ g₂ e₂ h₁ h₂ ↦
      ⟨_, _, encodeFull_of_valid h₁, encodeFull_of_valid h₂, member_lt_iff h₁ h₂⟩⟩
  rw [mem_range_iff hbound, header_prefix_iff h hk]

/-- The prefix of the last generation: its bound carries into the incarnation. -/
theorem memberRange_exact_carry :
    ∃ lower bound, encodePrefix [97] 7 (2 ^ 64 - 1) = .ok lower ∧
      prefixUpperBound lower = some bound ∧ ∀ x, lower ≤ x ∧ x < bound ↔ lower <+: x := by
  obtain ⟨lower, bound, hlower, hbound, hrange, -⟩ := memberRange_exact [97] 7 (2 ^ 64 - 1)
    ⟨by decide, by decide, by decide⟩
  exact ⟨lower, bound, hlower, hbound, hrange⟩

end Kiwi.VectorFormat
