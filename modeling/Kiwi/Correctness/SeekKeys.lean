import Kiwi.Correctness.Liveness
import Kiwi.Storage.PhysicalKeys

/-!
# Iterating over the members of a collection

An iteration over a collection seeks to a key and goes on while the keys begin with the seek key of
the user key and the version. These are the keys of that version of that collection and no others,
and they are in the order of their members.

A seek key has no reserved bytes behind the member, but the keys it is compared with have 16 zeros
there. So the seek key of a member that ends with zeros is not behind the key of the same member
with fewer of them (`seek_le_encode_iff`), and an iteration from it visits that one as well.
-/

namespace Kiwi.PhysicalKeys

open Lexicographic MetaValue

variable {key : Bytes} {version : UInt64} {m m' : Bytes}

theorem leBytes_injective {v w : UInt64} (h : leBytes 8 v.toNat = leBytes 8 w.toNat) : v = w := by
  have hv := ofLeBytes_leBytes_of_lt v.toNat_lt
  rw [h, ofLeBytes_leBytes_of_lt w.toNat_lt] at hv
  exact (UInt64.toNat_inj.1 hv).symm

/-- **The keys of one version of one collection.** -/
theorem encodeSeekKey_prefix_iff (k : MemberDataKey) :
    MemberDataKey.encodeSeekKey ⟨key, version, []⟩ <+: k.encode ↔
      k.key = key ∧ k.version = version := by
  constructor
  · rintro ⟨rest, hrest⟩
    simp only [MemberDataKey.encodeSeekKey, MemberDataKey.encode, encodedKey, List.append_assoc,
      List.append_nil, List.append_cancel_left_eq] at hrest
    -- both user keys end where the first double zero is
    have hseek := seekUserkeyDelim_encodeUserKey key (leBytes 8 version.toNat ++ rest)
    rw [hrest, seekUserkeyDelim_encodeUserKey] at hseek
    obtain ⟨huser, hversion⟩ := List.append_inj hrest hseek.symm
    obtain ⟨hversion, -⟩ := List.append_inj hversion (by rw [length_leBytes, length_leBytes])
    exact ⟨(encodeUserKey_injective huser).symm, (leBytes_injective hversion).symm⟩
  · rintro ⟨rfl, rfl⟩
    refine ⟨k.data ++ List.replicate 16 0, ?_⟩
    simp only [MemberDataKey.encodeSeekKey, MemberDataKey.encode, encodedKey, List.append_assoc,
      List.append_nil]

theorem lexCompare_encode :
    lexCompare (MemberDataKey.encode ⟨key, version, m⟩) (MemberDataKey.encode ⟨key, version, m'⟩) =
      lexCompare m m' := by
  simp only [MemberDataKey.encode, encodedKey, List.append_assoc, lexCompare_append_left]
  exact lexCompare_append_replicate (fun _ ↦ UInt8.zero_le) 16 m m'

theorem lexCompare_encodeSeekKey :
    lexCompare (MemberDataKey.encodeSeekKey ⟨key, version, m⟩)
      (MemberDataKey.encode ⟨key, version, m'⟩) = lexCompare m (m' ++ List.replicate 16 0) := by
  simp only [MemberDataKey.encodeSeekKey, MemberDataKey.encode, encodedKey, List.append_assoc,
    lexCompare_append_left]

theorem le_iff_lexCompare_ne_gt {x y : Bytes} : x ≤ y ↔ lexCompare x y ≠ .gt := by
  rw [← not_lt, ← lexCompare_eq_lt_iff, ← swap_lexCompare, not_iff_not]
  cases lexCompare x y <;> decide

/-- **What a seek finds.** The seek key of a member is not behind the key of another one if the
member is not behind the other one, or if it is the other one with up to 16 zeros. -/
theorem seek_le_encode_iff :
    MemberDataKey.encodeSeekKey ⟨key, version, m⟩ ≤ MemberDataKey.encode ⟨key, version, m'⟩ ↔
      m ≤ m' ∨ ∃ n, 1 ≤ n ∧ n ≤ 16 ∧ m = m' ++ List.replicate n 0 := by
  rw [le_iff_lexCompare_ne_gt, lexCompare_encodeSeekKey, le_iff_lexCompare_ne_gt]
  exact lexCompare_append_replicate_ne_gt (fun _ ↦ UInt8.zero_le) 16 m m'

/-- **Prefix iteration.** The encoded keys that begin with the seek key of a user key and a version
are the keys of this version of this collection, and they are in the order of their members. Seeking
to the seek key of a member visits exactly the members from it on if and only if the collection has
no member that becomes the one sought when 1 to 16 zeros are appended. -/
theorem prefix_iteration_exact (key : Bytes) (version : UInt64) :
    (∀ k : MemberDataKey, MemberDataKey.encodeSeekKey ⟨key, version, []⟩ <+: k.encode ↔
      k.key = key ∧ k.version = version) ∧
    (∀ m m' : Bytes,
      MemberDataKey.encode ⟨key, version, m⟩ < MemberDataKey.encode ⟨key, version, m'⟩ ↔ m < m') ∧
    ∀ (members : List Bytes) (m : Bytes),
      (∀ m' ∈ members,
        (MemberDataKey.encodeSeekKey ⟨key, version, m⟩ ≤ MemberDataKey.encode ⟨key, version, m'⟩ ↔
          m ≤ m')) ↔
      ∀ m' ∈ members, ∀ n, 1 ≤ n → n ≤ 16 → m ≠ m' ++ List.replicate n 0 := by
  refine ⟨encodeSeekKey_prefix_iff, fun m m' ↦ ?_, fun members m ↦ forall₂_congr fun m' _ ↦ ?_⟩
  · rw [← lexCompare_eq_lt_iff, lexCompare_encode, lexCompare_eq_lt_iff]
  · rw [seek_le_encode_iff, or_iff_left_iff_imp]
    constructor
    · intro h n hn hn' heq
      have hlt : m' < m := by
        rw [heq, ← List.append_nil m', List.append_assoc, ← lexCompare_eq_lt_iff,
          lexCompare_append_left, lexCompare_eq_lt_iff]
        obtain ⟨n, rfl⟩ : ∃ k, n = k + 1 := ⟨n - 1, by omega⟩
        exact List.nil_lt_cons _ _
      exact absurd (h ⟨n, hn, hn', heq⟩) (not_le_of_gt hlt)
    · rintro h ⟨n, hn, hn', heq⟩
      exact absurd heq (h n hn hn')

/-- Seeking to the member `a` followed by a zero finds the key of `a`, which is before it. -/
theorem seek_finds_smaller_member :
    MemberDataKey.encodeSeekKey ⟨[1], 5, [0x61, 0]⟩ ≤ MemberDataKey.encode ⟨[1], 5, [0x61]⟩ ∧
      ([0x61] : Bytes) < [0x61, 0] := by
  decide +kernel

end Kiwi.PhysicalKeys
