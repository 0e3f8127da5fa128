import Kiwi.Correctness.Liveness
import Kiwi.Storage.Keys

/-!
# `KEYS` lists every live key once, in order

The encoding of keys keeps their order, so the rows that an instance stores are in the order of the
user keys and its list is sorted. The merge of sorted lists is sorted, and a key is on one instance
only, the one its slot selects, so no key is listed twice.
-/

namespace Kiwi.Keys

open Lexicographic Encoded

variable {pattern : Bytes} {now : ℕ}

/-! ### The merge -/

theorem isBetter_iff (head best : Bytes) : isBetter false head best = true ↔ head < best := by
  simp [isBetter]

theorem isBetter_eq_false_iff (head best : Bytes) :
    isBetter false head best = false ↔ best ≤ head := by
  rw [Bool.eq_false_iff, Ne, isBetter_iff, not_lt]

theorem isStrict_isBetter : Merging.IsStrict (isBetter false) :=
  Merging.isStrict_of_lt_iff isBetter_iff

theorem ordered_iff {stream : List Bytes} :
    Merging.Ordered (isBetter false) stream ↔ stream.Pairwise (· ≤ ·) := by
  simp only [Merging.Ordered, isBetter_eq_false_iff]

theorem precedes_iff (p q : ℕ × Bytes) :
    Merging.Precedes (isBetter false) p q ↔ p.2 < q.2 ∨ p.2 = q.2 ∧ p.1 ≤ q.1 := by
  rw [Merging.Precedes, isBetter_eq_false_iff, isBetter_iff]
  constructor
  · rintro ⟨hle, hlower⟩
    rcases hle.lt_or_eq with hlt | heq
    · exact .inl hlt
    · refine .inr ⟨heq, ?_⟩
      by_contra hgt
      exact absurd (hlower (not_le.1 hgt)) (heq ▸ lt_irrefl _)
  · rintro (hlt | ⟨heq, hle⟩)
    · exact ⟨hlt.le, fun _ ↦ hlt⟩
    · exact ⟨heq.le, fun hgt ↦ absurd hle (not_le.2 hgt)⟩

theorem pairwise_mergingIterator {streams : List (List Bytes)}
    (h : ∀ stream ∈ streams, stream.Pairwise (· ≤ ·)) :
    (mergingIterator false streams).Pairwise (· ≤ ·) := by
  have hordered := Merging.merge_ordered isStrict_isBetter fun s hs ↦ ordered_iff.2 (h s hs)
  refine List.pairwise_map.2 (hordered.imp fun {p q} hpq ↦ ?_)
  exact (isBetter_eq_false_iff q.2 p.2).1 hpq.1

/-! ### The rows of an instance -/

theorem encodedKey_lt_iff {k k' : Bytes} : encodedKey k [] < encodedKey k' [] ↔ k < k' := by
  rw [← lexCompare_eq_lt_iff, ← lexCompare_eq_lt_iff, encodedKey, encodedKey, lexCompare_append_left,
    lexCompare_append eq_of_encodeUserKey_append eq_of_encodeUserKey_append, lexCompare_encodeUserKey,
    lexCompare_self, Ordering.then_eq]

theorem parsedBaseKey_encodedKey (k : Bytes) : parsedBaseKey (encodedKey k []) = .ok k := by
  have hlength : (encodedKey k []).length = 24 + (encodeUserKey k).length := by
    simp [encodedKey]
    omega
  have htake : (encodedKey k []).take (8 + (encodeUserKey k).length) =
      List.replicate 8 0 ++ encodeUserKey k := by
    rw [encodedKey, List.nil_append, ← List.append_assoc]
    exact List.take_left' (by rw [List.length_append, List.length_replicate])
  rw [parsedBaseKey, if_neg (by omega), hlength,
    show 24 + (encodeUserKey k).length - 16 = 8 + (encodeUserKey k).length by omega, htake,
    List.drop_left' (List.length_replicate ..), decodeUserKey_encodeUserKey]

/-- The rows of an instance as it stores them. -/
def stored (cf : RawMetaCF) : StoredMetaCF where
  rows := cf.rows.map fun r ↦ (encodedKey r.1 [], r.2)
  sorted := List.pairwise_map.2 (cf.sorted.imp encodedKey_lt_iff.2)

theorem scanKeys_stored (cf : RawMetaCF) : scanKeys (stored cf) pattern now =
    Encoded.scanKeys cf pattern now := by
  show scanKeysLoop pattern now (cf.rows.map _) = Encoded.scanKeysLoop pattern now cf.rows
  induction cf.rows with
  | nil => rfl
  | cons r rest ih =>
    rw [List.map_cons, scanKeysLoop, Encoded.scanKeysLoop, parsedBaseKey_encodedKey,
      Program.except_ok_bind, ih]

/-! ### All instances -/

theorem mapM_ok {α β : Type} {f : α → Except Error β} {g : α → β} {xs : List α}
    (h : ∀ x ∈ xs, f x = .ok (g x)) : xs.mapM f = .ok (xs.map g) := by
  induction xs with
  | nil => rfl
  | cons x xs ih =>
    rw [List.mapM_cons, h x List.mem_cons_self, ih fun y hy ↦ h y (List.mem_cons_of_mem _ hy)]
    rfl

/-- The live keys of an instance that match, in the order of the user keys. -/
def liveKeys (pattern : Bytes) (now : ℕ) (cf : MetaCF) : List Bytes :=
  (cf.rows.filter fun r ↦ !r.2.isStale now && Glob.matchesPattern pattern r.1).map Prod.fst

variable {insts : List MetaCF}

theorem keys_stored (hfit : ∀ cf ∈ insts, AllFit cf) :
    keys (insts.map fun cf ↦ stored (encodeCF cf)) pattern now =
      .ok (mergingIterator false (insts.map (liveKeys pattern now))) := by
  have hscan : ∀ cf ∈ insts, scanKeys (stored (encodeCF cf)) pattern now =
      .ok (liveKeys pattern now cf) := fun cf hcf ↦ by
    rw [scanKeys_stored, scanKeys_encode (hfit cf hcf), liveKeys]
  rw [keys, List.mapM_map, Function.comp_def, mapM_ok hscan]
  rfl

theorem pairwise_liveKeys (cf : MetaCF) : (liveKeys pattern now cf).Pairwise (· < ·) :=
  List.pairwise_map.2 (cf.sorted.sublist List.filter_sublist)

theorem mem_liveKeys {cf : MetaCF} {key : Bytes} :
    key ∈ liveKeys pattern now cf ↔
      ∃ m, cf.get key = some m ∧ m.isStale now = false ∧ Glob.matchesPattern pattern key = true := by
  simp only [liveKeys, List.mem_map, List.mem_filter, Bool.and_eq_true, Bool.not_eq_true',
    SortedMap.get_eq_some_iff]
  constructor
  · rintro ⟨⟨_, m⟩, ⟨hmem, hkeep⟩, rfl⟩
    exact ⟨m, hmem, hkeep⟩
  · rintro ⟨m, hmem, hkeep⟩
    exact ⟨(key, m), ⟨hmem, hkeep⟩, rfl⟩

/-- Every key is on the instance that its slot selects. -/
def Routed (insts : List MetaCF) : Prop :=
  ∀ {i cf key m}, insts[i]? = some cf → cf.get key = some m → i = instanceOf insts.length key

theorem Routed.disjoint (h : Routed insts) :
    (insts.map (liveKeys pattern now)).Pairwise List.Disjoint := by
  rw [List.pairwise_map, List.pairwise_iff_getElem]
  intro i j hi hj hij key hkey hkey'
  obtain ⟨m, hm, -⟩ := mem_liveKeys.1 hkey
  obtain ⟨m', hm', -⟩ := mem_liveKeys.1 hkey'
  have hi' := h (List.getElem?_eq_getElem hi) hm
  have hj' := h (List.getElem?_eq_getElem hj) hm'
  omega

/-- **`KEYS` is the sorted merge.** The merge of sorted streams is a permutation of their elements
in ascending order, and equal elements are in the order of their streams. Over the instances of a
storage every live key that matches is listed once, in the bytewise order of the user keys. -/
theorem keys_is_sorted_merge (insts : List MetaCF) (pattern : Bytes) (now : ℕ)
    (hfit : ∀ cf ∈ insts, AllFit cf) (hrouted : Routed insts) :
    (∀ streams : List (List Bytes), (∀ stream ∈ streams, stream.Pairwise (· ≤ ·)) →
      (mergingIterator false streams).Perm streams.flatten ∧
      (mergingIterator false streams).Pairwise (· ≤ ·) ∧
      (Merging.merge (isBetter false) streams).Pairwise
        fun p q ↦ p.2 < q.2 ∨ p.2 = q.2 ∧ p.1 ≤ q.1) ∧
    ∃ listed, keys (insts.map fun cf ↦ stored (encodeCF cf)) pattern now = .ok listed ∧
      listed.Pairwise (· < ·) ∧
      ∀ key, key ∈ listed ↔ ∃ cf ∈ insts, ∃ m, cf.get key = some m ∧ m.isStale now = false ∧
        Glob.matchesPattern pattern key = true := by
  have hmerge : ∀ streams, (mergingIterator false streams).Perm streams.flatten :=
    Merging.merge_perm isStrict_isBetter
  refine ⟨fun streams hstreams ↦ ⟨hmerge streams, pairwise_mergingIterator hstreams, ?_⟩,
    _, keys_stored hfit, ?_, fun key ↦ ?_⟩
  · have hordered := Merging.merge_ordered isStrict_isBetter fun s hs ↦ ordered_iff.2 (hstreams s hs)
    exact hordered.imp fun {p q} ↦ (precedes_iff p q).1
  · have hsorted : (mergingIterator false (insts.map (liveKeys pattern now))).Pairwise (· ≤ ·) := by
      refine pairwise_mergingIterator fun stream hstream ↦ ?_
      obtain ⟨cf, -, rfl⟩ := List.mem_map.1 hstream
      exact (pairwise_liveKeys cf).imp le_of_lt
    have hnodup : (mergingIterator false (insts.map (liveKeys pattern now))).Nodup := by
      rw [(hmerge _).nodup_iff, List.nodup_flatten]
      refine ⟨fun stream hstream ↦ ?_, hrouted.disjoint⟩
      obtain ⟨cf, -, rfl⟩ := List.mem_map.1 hstream
      exact (pairwise_liveKeys cf).imp ne_of_lt
    exact hsorted.imp₂ (fun _ _ hle hne ↦ lt_of_le_of_ne hle hne) hnodup
  · rw [(hmerge _).mem_iff, List.mem_flatten]
    constructor
    · rintro ⟨stream, hstream, hkey⟩
      obtain ⟨cf, hcf, rfl⟩ := List.mem_map.1 hstream
      exact ⟨cf, hcf, mem_liveKeys.1 hkey⟩
    · rintro ⟨cf, hcf, hlive⟩
      exact ⟨_, List.mem_map_of_mem hcf, mem_liveKeys.2 hlive⟩

/-- The keys `a`, `c` and `d` on two instances. -/
def twoInsts : List MetaCF :=
  [SortedMap.empty.insert [99] (.string ⟨[120], 1, 0⟩),
    (SortedMap.empty.insert [97] (.string ⟨[120], 1, 0⟩)).insert [100] (.string ⟨[120], 1, 0⟩)]

theorem keys_is_sorted_merge_twoInsts :
    (∀ cf ∈ twoInsts, AllFit cf) ∧ Routed twoInsts ∧
      ∃ listed, keys (twoInsts.map fun cf ↦ stored (encodeCF cf)) [0x2A] 7 = .ok listed ∧
        [97] ∈ listed ∧ listed.Pairwise (· < ·) := by
  have hfit : ∀ cf ∈ twoInsts, AllFit cf := by
    unfold AllFit
    decide
  have hrouted : Routed twoInsts := by
    intro i cf key m hi hm
    rw [SortedMap.get_eq_some_iff] at hm
    rcases i with _ | _ | i
    · obtain rfl : _ = cf := Option.some.inj hi
      obtain rfl : key = [99] := (Prod.mk.inj (List.mem_singleton.1 hm)).1
      decide +kernel
    · obtain rfl : _ = cf := Option.some.inj hi
      rcases List.mem_cons.1 hm with hm | hm
      · obtain rfl : key = [97] := (Prod.mk.inj hm).1
        decide +kernel
      · obtain rfl : key = [100] := (Prod.mk.inj (List.mem_singleton.1 hm)).1
        decide +kernel
    · exact nomatch hi
  obtain ⟨-, listed, hlisted, hsorted, hmem⟩ := keys_is_sorted_merge twoInsts [0x2A] 7 hfit hrouted
  refine ⟨hfit, hrouted, listed, hlisted, (hmem [97]).2 ?_, hsorted⟩
  refine ⟨_, List.mem_cons_of_mem _ List.mem_cons_self, .string ⟨[120], 1, 0⟩, rfl, ?_⟩
  decide

end Kiwi.Keys
