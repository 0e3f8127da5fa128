import Kiwi.Correctness.Liveness
import Kiwi.Lib.Staged
import Kiwi.Storage.PhysicalKeys

/-!
# The comparators of RocksDB

Both comparators go through a key in stages: the user key, the version, and the index or the score.
A key that is cut inside its numbers is compared bytewise instead, which is another order than the
one of the little-endian numbers. So both are antisymmetric on all strings on which they do not
panic, and transitive exactly where no such key comes between two others
(`comparators_transitive_iff`).

Encoded keys are not cut, and are compared by their components.
-/

namespace Kiwi.PhysicalKeys

open Lexicographic MetaValue

variable {a b c : Bytes} {F : Type} [LinearOrder F] (fromBits : ℕ → Option F)

/-! ### Places in a key -/

theorem seekUserkeyDelim_le_length (zeroAhead : Bool) (bs : Bytes) :
    seekUserkeyDelim zeroAhead bs ≤ bs.length := by
  induction bs generalizing zeroAhead with
  | nil => exact le_rfl
  | cons b bs ih =>
    have hrest := ih (decide (b = 0))
    rw [seekUserkeyDelim, List.length_cons]
    split_ifs <;> omega

theorem userkeyEnd_of_short (h : a.length ≤ 8) : userkeyEnd a = 8 := by
  rw [userkeyEnd, List.drop_of_length_le h, seekUserkeyDelim]

theorem lt_userkeyEnd (h : 8 < a.length) : 8 < userkeyEnd a := by
  obtain ⟨b, bs, hdrop⟩ : ∃ b bs, a.drop 8 = b :: bs := by
    refine List.exists_cons_of_ne_nil fun hnil ↦ ?_
    have := List.drop_eq_nil_iff.1 hnil
    omega
  rw [userkeyEnd, hdrop, seekUserkeyDelim]
  split_ifs <;> omega

theorem userkeyEnd_le_length (h : 8 ≤ a.length) : userkeyEnd a ≤ a.length := by
  have hle := seekUserkeyDelim_le_length false (a.drop 8)
  rw [List.length_drop] at hle
  rw [userkeyEnd]
  omega

/-! ### The stages of a comparison -/

-- `cmp` as on any linear order, not with the instances of lists
theorem lexCompare_eq_cmp (x y : Bytes) :
    lexCompare x y = @cmp Bytes Preorder.toLT LinearOrder.toDecidableLT x y :=
  (lexCompare_compares x y).inj (cmp_compares x y)

theorem cmp_toLex {U V : Type} [LinearOrder U] [LinearOrder V] (x x' : U) (y y' : V) :
    cmp (toLex (x, y)) (toLex (x', y')) = (cmp x x').then (cmp y y') :=
  (cmp_compares _ _).inj (compares_then (cmp_compares x x') (cmp_compares y y'))

section Stages

variable {U V : Type} [LinearOrder U] [LinearOrder V] (user : Bytes → U) (second : Bytes → V)

/-- The user key, the version, and what follows the version. A key may be cut before the last two.
-/
def keyStages : List (Stage Bytes) :=
  [⟨fun a ↦ some (user a)⟩,
    .ofPart (fun a ↦ a.length < userkeyEnd a + 8) fun a ↦ decodeFixed a (userkeyEnd a),
    .ofPart (fun a ↦ a.length < userkeyEnd a + 16) second]

theorem compare_keyStages (a b : Bytes) :
    Stage.compare (keyStages user second) a b = (cmp (user a) (user b)).then
      (if a.length < userkeyEnd a + 8 ∨ b.length < userkeyEnd b + 8 then lexCompare a b
      else (cmp (decodeFixed a (userkeyEnd a)) (decodeFixed b (userkeyEnd b))).then
        (if a.length < userkeyEnd a + 16 ∨ b.length < userkeyEnd b + 16 then lexCompare a b
        else cmp (second a) (second b))) := by
  rw [keyStages, Stage.compare_cons_of_some rfl rfl, Stage.compare_cons_ofPart,
    Stage.compare_cons_ofPart, lexCompare_eq_cmp, Stage.compare_nil, Ordering.then_eq]

theorem fallsBack_keyStages (a b : Bytes) :
    Stage.FallsBack (keyStages user second) a b ↔ user a = user b ∧
      (a.length < userkeyEnd a + 8 ∨ b.length < userkeyEnd b + 8 ∨
        decodeFixed a (userkeyEnd a) = decodeFixed b (userkeyEnd b) ∧
          (a.length < userkeyEnd a + 16 ∨ b.length < userkeyEnd b + 16)) := by
  rw [keyStages, Stage.FallsBack, Stage.fallsBack_cons_ofPart, Stage.fallsBack_cons_ofPart,
    Stage.FallsBack, and_false, or_false]

/-- The key `w` lies by its bytes between two keys of its user key that their numbers put the other
way round. It is cut in the version, or has the version of both and is cut in what follows it. -/
structure CutBetween (p q w : Bytes) : Prop where
  user_left : user p = user w
  user_right : user q = user w
  numbers : (decodeFixed p (userkeyEnd p) < decodeFixed q (userkeyEnd q) ∧
      userkeyEnd p + 8 ≤ p.length ∧ userkeyEnd q + 8 ≤ q.length ∧ w.length < userkeyEnd w + 8) ∨
    (decodeFixed p (userkeyEnd p) = decodeFixed q (userkeyEnd q) ∧ second p ≤ second q ∧
      userkeyEnd p + 16 ≤ p.length ∧ userkeyEnd q + 16 ≤ q.length ∧ w.length < userkeyEnd w + 16 ∧
      (userkeyEnd w + 8 ≤ w.length → decodeFixed w (userkeyEnd w) = decodeFixed p (userkeyEnd p)))
  bytes_left : q < w
  bytes_right : w < p

theorem circle_keyStages_iff (p q w : Bytes) :
    Stage.Circle (keyStages user second) p q w ↔ CutBetween user second p q w := by
  constructor
  · rintro ⟨hparts, hleft, hright, hpq, hqw, hwp⟩
    rw [fallsBack_keyStages] at hparts hleft hright
    obtain ⟨hqu, hleft⟩ := hleft
    obtain ⟨hpu, hright⟩ := hright
    rw [hqu, ← hpu, and_iff_right rfl, not_or, not_or, not_and_or, not_or, not_lt, not_lt] at hparts
    obtain ⟨hp, hq, hfull⟩ := hparts
    refine ⟨hpu.symm, hqu, ?_, hqw, hwp⟩
    rw [compare_keyStages, hqu, ← hpu, cmp_self_eq_eq, Ordering.eq_then, if_neg (by omega)] at hpq
    rcases (Stage.le_of_then_ne_gt hpq).lt_or_eq with hlt | heq
    · exact .inl ⟨hlt, hp, hq, by omega⟩
    · obtain ⟨hp', hq'⟩ := hfull.resolve_left (not_not_intro heq)
      rw [heq, cmp_self_eq_eq, Ordering.eq_then, if_neg (by omega), Ne, cmp_eq_gt_iff, not_lt] at hpq
      exact .inr ⟨heq, hpq, by omega, by omega, by omega, by omega⟩
  · rintro ⟨hpu, hqu, hnumbers, hqw, hwp⟩
    have hp : userkeyEnd p + 8 ≤ p.length := by omega
    have hq : userkeyEnd q + 8 ≤ q.length := by omega
    refine ⟨?_, (fallsBack_keyStages ..).2 ⟨hqu, by omega⟩,
      (fallsBack_keyStages ..).2 ⟨hpu.symm, by omega⟩, ?_, hqw, hwp⟩
    · rw [fallsBack_keyStages]
      omega
    · rw [compare_keyStages, hpu, hqu, cmp_self_eq_eq, Ordering.eq_then, if_neg (by omega)]
      rcases hnumbers with ⟨hlt, -⟩ | ⟨heq, hle, hp', hq', -⟩
      · rw [(cmp_eq_lt_iff _ _).2 hlt]
        exact Ordering.noConfusion
      · rw [heq, cmp_self_eq_eq, Ordering.eq_then, if_neg (by omega), Ne, cmp_eq_gt_iff, not_lt]
        exact hle

end Stages

/-! ### List keys -/

/-- A list key up to the end of its user key, and whether anything follows. -/
def listUser (a : Bytes) : Bytes ×ₗ Bool :=
  toLex (a.take (userkeyEnd a), decide (userkeyEnd a < a.length))

/-- The index of a list key. -/
def listIndex (a : Bytes) : ℕ := decodeFixed a (userkeyEnd a + 8)

/-- A key that is not longer than the reserved bytes is before or behind the others by its bytes, as
by its user key. -/
theorem compare_of_short (ha : a.length ≤ 8) (b : Bytes) :
    Stage.compare (keyStages listUser listIndex) a b = lexCompare a b := by
  have hea := userkeyEnd_of_short ha
  rw [compare_keyStages, listUser, listUser, cmp_toLex, ← lexCompare_eq_cmp, hea,
    List.take_of_length_le ha]
  by_cases hb : b.length ≤ 8
  · have heb := userkeyEnd_of_short hb
    rw [heb, List.take_of_length_le hb, decide_eq_false (by omega), decide_eq_false (by omega),
      if_pos (by omega), cmp_self_eq_eq, Ordering.then_eq]
    cases lexCompare a b <;> rfl
  · have heb := lt_userkeyEnd (a := b) (by omega)
    have hne : lexCompare a (b.take (userkeyEnd b)) ≠ .eq := by
      intro heq
      have hlength := congrArg List.length (lexCompare_eq_eq_iff.1 heq)
      rw [List.length_take] at hlength
      omega
    rw [lexCompare_take_right (by omega)] at hne ⊢
    cases h : lexCompare a b with
    | eq => exact absurd h hne
    | lt | gt => rfl

theorem listsDataKeyCompare_eq (ha : a ≠ []) (hb : b ≠ []) :
    listsDataKeyCompare a b = .ok (Stage.compare (keyStages listUser listIndex) a b) := by
  rw [listsDataKeyCompare, if_neg (by simp [ha, hb])]
  by_cases hshort : a.length ≤ 8 ∨ b.length ≤ 8
  · rw [if_pos hshort]
    rcases hshort with hshort | hshort
    · rw [compare_of_short hshort]
    · rw [← Stage.swap_compare, compare_of_short hshort, swap_lexCompare]
  have ha' := userkeyEnd_le_length (a := a) (by omega)
  have hb' := userkeyEnd_le_length (a := b) (by omega)
  rw [if_neg hshort, compare_keyStages, listUser, listUser, cmp_toLex, ← lexCompare_eq_cmp,
    Ordering.then_assoc]
  dsimp only
  -- a key that ends with its user key is before the keys of its user key that do not
  by_cases hae : userkeyEnd a = a.length
  · by_cases hbe : userkeyEnd b = b.length
    · rw [if_pos ⟨hae, hbe⟩, hae, hbe, List.take_length, List.take_length, decide_eq_false (by omega),
        decide_eq_false (by omega), cmp_self_eq_eq, Ordering.eq_then, if_pos (by omega),
        Ordering.then_eq]
      cases lexCompare a b <;> rfl
    · rw [if_neg (by omega), if_pos hae, decide_eq_false (by omega), decide_eq_true (by omega)]
      rfl
  · by_cases hbe : userkeyEnd b = b.length
    · rw [if_neg (by omega), if_neg hae, if_pos hbe, decide_eq_true (by omega),
        decide_eq_false (by omega)]
      rfl
    · rw [if_neg (by omega), if_neg hae, if_neg hbe, decide_eq_true (by omega),
        decide_eq_true (by omega), cmp_self_eq_eq, Ordering.eq_then]
      rfl

/-! ### Score keys -/

/-- A score among all scores, with NaN as the greatest. -/
def rank : Option F → WithTop F
  | some x => x
  | none => ⊤

theorem compareScores_eq_cmp (x y : Option F) : compareScores x y = cmp (rank x) (rank y) := by
  refine Ordering.Compares.inj ?_ (cmp_compares _ _)
  cases x with
  | none =>
    cases y with
    | none => exact rfl
    | some y => exact WithTop.coe_lt_top y
  | some x =>
    cases y with
    | none => exact WithTop.coe_lt_top x
    | some y => exact compares_withTop (cmp_compares x y)

/-- The user key of a score key, without the reserved bytes before it. -/
def scoreUser (a : Bytes) : Bytes := (a.take (userkeyEnd a)).drop 8

/-- The score of a score key and all that follows it. -/
def scoreAndMember (a : Bytes) : WithTop F ×ₗ Bytes :=
  toLex (rank (fromBits (decodeFixed a (userkeyEnd a + 8))), a.drop (userkeyEnd a + 16))

theorem zsetsScoreKeyCompare_eq (ha : 8 < a.length) (hb : 8 < b.length) :
    zsetsScoreKeyCompare fromBits a b =
      .ok (Stage.compare (keyStages scoreUser (scoreAndMember fromBits)) a b) := by
  rw [zsetsScoreKeyCompare, if_neg (by omega), compare_keyStages, scoreAndMember, scoreAndMember,
    cmp_toLex, ← lexCompare_eq_cmp, ← lexCompare_eq_cmp]
  dsimp only
  rw [compareScores_eq_cmp]
  rfl

/-! ### Whole keys -/

/-- A key that has its version and the number after it. -/
def Whole (a : Bytes) : Prop := userkeyEnd a + 16 ≤ a.length

theorem Whole.not_cutBetween {U V : Type} [LinearOrder U] [LinearOrder V] {user : Bytes → U}
    {second : Bytes → V} (hc : Whole c) (p q : Bytes) : ¬CutBetween user second p q c := by
  rintro ⟨-, -, hnumbers, -⟩
  unfold Whole at hc
  omega

section

variable (ha : Whole a) (hb : Whole b)

include ha hb

theorem zsetsScoreKeyCompare_of_whole :
    zsetsScoreKeyCompare fromBits a b =
      .ok ((lexCompare ((a.take (userkeyEnd a)).drop 8) ((b.take (userkeyEnd b)).drop 8)).then
        ((cmp (decodeFixed a (userkeyEnd a)) (decodeFixed b (userkeyEnd b))).then
        ((compareScores (fromBits (decodeFixed a (userkeyEnd a + 8)))
          (fromBits (decodeFixed b (userkeyEnd b + 8)))).then
        (lexCompare (a.drop (userkeyEnd a + 16)) (b.drop (userkeyEnd b + 16)))))) := by
  unfold Whole at ha hb
  have ha' : 8 ≤ userkeyEnd a := Nat.le_add_right _ _
  have hb' : 8 ≤ userkeyEnd b := Nat.le_add_right _ _
  rw [zsetsScoreKeyCompare, if_neg (by omega)]
  dsimp only
  rw [if_neg (by omega), if_neg (by omega)]

theorem listsDataKeyCompare_of_whole :
    listsDataKeyCompare a b =
      .ok ((lexCompare (a.take (userkeyEnd a)) (b.take (userkeyEnd b))).then
        ((cmp (decodeFixed a (userkeyEnd a)) (decodeFixed b (userkeyEnd b))).then
        (cmp (decodeFixed a (userkeyEnd a + 8)) (decodeFixed b (userkeyEnd b + 8))))) := by
  unfold Whole at ha hb
  have ha' : 8 ≤ userkeyEnd a := Nat.le_add_right _ _
  have hb' : 8 ≤ userkeyEnd b := Nat.le_add_right _ _
  have hne : ¬(a = [] ∨ b = []) := by
    rintro (rfl | rfl)
    · simp at ha
    · simp at hb
  rw [listsDataKeyCompare, if_neg hne, if_neg (by omega)]
  dsimp only
  rw [if_neg (by omega), if_neg (by omega), if_neg (by omega), if_neg (by omega), if_neg (by omega)]

end

/-! ### Encoded keys -/

/-- The form of all encoded keys with two numbers after the user key. -/
def framed (key : Bytes) (v w : UInt64) (rest : Bytes) : Bytes :=
  List.replicate 8 0 ++ (encodeUserKey key ++ (leBytes 8 v.toNat ++ (leBytes 8 w.toNat ++ rest)))

theorem ListsDataKey.encode_eq_framed (k : ListsDataKey) :
    k.encode = framed k.key k.version k.index (List.replicate 16 0) := by
  rw [encode, encodedKey, framed, List.append_assoc]

variable (k : ZSetsScoreKey)

theorem ZSetsScoreKey.encode_eq_framed :
    k.encode = framed k.key k.version k.score (k.member ++ List.replicate 16 0) := by
  rw [encode, encodedKey, framed, List.append_assoc, List.append_assoc]

theorem ZSetsScoreKey.encodeSeekKey_eq_framed :
    k.encodeSeekKey = framed k.key k.version k.score [] := by
  rw [encodeSeekKey, framed, List.append_nil]

section Framed

variable (key rest : Bytes) (v w : UInt64)

theorem userkeyEnd_framed : userkeyEnd (framed key v w rest) = 8 + (encodeUserKey key).length := by
  rw [framed, userkeyEnd, List.drop_left' (List.length_replicate ..), seekUserkeyDelim_encodeUserKey]

theorem take_framed :
    (framed key v w rest).take (8 + (encodeUserKey key).length) =
      List.replicate 8 0 ++ encodeUserKey key := by
  rw [framed, ← List.append_assoc]
  exact List.take_left' (by rw [List.length_append, List.length_replicate])

theorem drop_framed (n : ℕ) :
    (framed key v w rest).drop (8 + (encodeUserKey key).length + n) =
      (leBytes 8 v.toNat ++ (leBytes 8 w.toNat ++ rest)).drop n := by
  rw [framed, ← List.append_assoc, ← List.drop_drop]
  congr 1
  exact List.drop_left' (by rw [List.length_append, List.length_replicate])

theorem drop_leBytes_append (n : ℕ) (rest : Bytes) : (leBytes 8 n ++ rest).drop 8 = rest :=
  List.drop_left' (length_leBytes _ _)

theorem ofLeBytes_take_leBytes (v : UInt64) (rest : Bytes) :
    ofLeBytes ((leBytes 8 v.toNat ++ rest).take 8) = v.toNat := by
  rw [List.take_left' (length_leBytes _ _), ofLeBytes_leBytes_of_lt v.toNat_lt]

theorem decodeFixed_framed_fst :
    decodeFixed (framed key v w rest) (8 + (encodeUserKey key).length) = v.toNat := by
  have hdrop := drop_framed key rest v w 0
  rw [Nat.add_zero, List.drop_zero] at hdrop
  rw [decodeFixed, hdrop, ofLeBytes_take_leBytes]

theorem decodeFixed_framed_snd :
    decodeFixed (framed key v w rest) (8 + (encodeUserKey key).length + 8) = w.toNat := by
  rw [decodeFixed, drop_framed, drop_leBytes_append, ofLeBytes_take_leBytes]

theorem drop_framed_rest :
    (framed key v w rest).drop (8 + (encodeUserKey key).length + 16) = rest := by
  rw [drop_framed, show 16 = 8 + 8 from rfl, ← List.drop_drop, drop_leBytes_append,
    drop_leBytes_append]

theorem whole_framed : Whole (framed key v w rest) := by
  rw [Whole, userkeyEnd_framed, framed]
  simp only [List.length_append, List.length_replicate, length_leBytes]
  omega

end Framed

variable (key key' rest rest' : Bytes) (v v' w w' : UInt64)

theorem listsDataKeyCompare_framed :
    listsDataKeyCompare (framed key v w rest) (framed key' v' w' rest') =
      .ok ((lexCompare key key').then ((cmp v.toNat v'.toNat).then (cmp w.toNat w'.toNat))) := by
  rw [listsDataKeyCompare_of_whole (whole_framed ..) (whole_framed ..)]
  rw [userkeyEnd_framed, userkeyEnd_framed, take_framed, take_framed, decodeFixed_framed_fst,
    decodeFixed_framed_fst, decodeFixed_framed_snd, decodeFixed_framed_snd,
    lexCompare_append_left, lexCompare_encodeUserKey]

theorem zsetsScoreKeyCompare_framed :
    zsetsScoreKeyCompare fromBits (framed key v w rest) (framed key' v' w' rest') =
      .ok ((lexCompare key key').then ((cmp v.toNat v'.toNat).then
        ((compareScores (fromBits w.toNat) (fromBits w'.toNat)).then (lexCompare rest rest')))) := by
  have hdrop : ∀ key : Bytes, (List.replicate 8 0 ++ encodeUserKey key).drop 8 = encodeUserKey key :=
    fun key ↦ List.drop_left' (List.length_replicate ..)
  rw [zsetsScoreKeyCompare_of_whole fromBits (whole_framed ..) (whole_framed ..)]
  rw [userkeyEnd_framed, userkeyEnd_framed, take_framed, take_framed, decodeFixed_framed_fst,
    decodeFixed_framed_fst, decodeFixed_framed_snd, decodeFixed_framed_snd, drop_framed_rest,
    drop_framed_rest, hdrop, hdrop, lexCompare_encodeUserKey]

/-! ### Total orders -/

theorem listsDataKeyCompare_swap (a b : Bytes) :
    listsDataKeyCompare b a = (listsDataKeyCompare a b).map Ordering.swap := by
  by_cases hempty : a = [] ∨ b = []
  · rw [listsDataKeyCompare, if_pos hempty.symm, listsDataKeyCompare, if_pos hempty]
    rfl
  · obtain ⟨ha, hb⟩ := not_or.1 hempty
    rw [listsDataKeyCompare_eq ha hb, listsDataKeyCompare_eq hb ha, ← Stage.swap_compare]
    rfl

theorem zsetsScoreKeyCompare_swap (a b : Bytes) :
    zsetsScoreKeyCompare fromBits b a = (zsetsScoreKeyCompare fromBits a b).map Ordering.swap := by
  by_cases hshort : a.length ≤ 8 ∨ b.length ≤ 8
  · rw [zsetsScoreKeyCompare, if_pos hshort.symm, zsetsScoreKeyCompare, if_pos hshort]
    rfl
  · obtain ⟨ha, hb⟩ := not_or.1 hshort
    rw [zsetsScoreKeyCompare_eq fromBits (not_le.1 ha) (not_le.1 hb),
      zsetsScoreKeyCompare_eq fromBits (not_le.1 hb) (not_le.1 ha), ← Stage.swap_compare]
    rfl

/-- The comparison says that the first key is not behind the second. -/
def AtMost (r : Except Error Ordering) : Prop := r = .ok .lt ∨ r = .ok .eq

theorem atMost_ok_iff {o : Ordering} : AtMost (.ok o) ↔ o ≠ .gt := by
  cases o <;> simp [AtMost]

/-- A comparator that compares by stages on a set of keys is transitive on it exactly if no key of
the set is cut between two others. -/
theorem transitive_iff_of_stages {U V : Type} [LinearOrder U] [LinearOrder V] {user : Bytes → U}
    {second : Bytes → V} {r : Bytes → Bytes → Except Error Ordering} {S : Set Bytes}
    (hr : ∀ a ∈ S, ∀ b ∈ S, r a b = .ok (Stage.compare (keyStages user second) a b)) :
    (∀ a ∈ S, ∀ b ∈ S, ∀ c ∈ S, AtMost (r a b) → AtMost (r b c) → AtMost (r a c)) ↔
      ∀ p ∈ S, ∀ q ∈ S, ∀ w ∈ S, ¬CutBetween user second p q w := by
  have hstaged := @Stage.transitive_iff _ _ (keyStages user second) S
  simp only [circle_keyStages_iff] at hstaged
  rw [← hstaged]
  refine forall₂_congr fun a ha ↦ forall₂_congr fun b hb ↦ forall₂_congr fun c hc ↦ ?_
  rw [hr a ha b hb, hr b hb c hc, hr a ha c hc, atMost_ok_iff, atMost_ok_iff, atMost_ok_iff]

/-- **When the comparators are total orders.** They panic exactly on an empty list key and on a
score key that is not longer than its reserved bytes, and are antisymmetric otherwise. On a set of
keys they are transitive exactly if no key of the set is cut inside its numbers and lies by its
bytes between two keys that are in the other order by their numbers. Encoded keys and seek keys are
never cut, so they are totally ordered. -/
theorem comparators_transitive_iff :
    (∀ a b, listsDataKeyCompare a b = .error .panicked ↔ a = [] ∨ b = []) ∧
    (∀ a b, zsetsScoreKeyCompare fromBits a b = .error .panicked ↔ a.length ≤ 8 ∨ b.length ≤ 8) ∧
    (∀ a b, listsDataKeyCompare b a = (listsDataKeyCompare a b).map Ordering.swap) ∧
    (∀ a b, zsetsScoreKeyCompare fromBits b a =
      (zsetsScoreKeyCompare fromBits a b).map Ordering.swap) ∧
    (∀ S : Set Bytes, (∀ a ∈ S, a ≠ []) →
      ((∀ a ∈ S, ∀ b ∈ S, ∀ c ∈ S, AtMost (listsDataKeyCompare a b) →
          AtMost (listsDataKeyCompare b c) → AtMost (listsDataKeyCompare a c)) ↔
        ∀ p ∈ S, ∀ q ∈ S, ∀ w ∈ S, ¬CutBetween listUser listIndex p q w)) ∧
    (∀ S : Set Bytes, (∀ a ∈ S, 8 < a.length) →
      ((∀ a ∈ S, ∀ b ∈ S, ∀ c ∈ S, AtMost (zsetsScoreKeyCompare fromBits a b) →
          AtMost (zsetsScoreKeyCompare fromBits b c) → AtMost (zsetsScoreKeyCompare fromBits a c)) ↔
        ∀ p ∈ S, ∀ q ∈ S, ∀ w ∈ S, ¬CutBetween scoreUser (scoreAndMember fromBits) p q w)) ∧
    (∀ (k : ListsDataKey) (p q : Bytes), ¬CutBetween listUser listIndex p q k.encode) ∧
    ∀ (k : ZSetsScoreKey) (p q : Bytes),
      ¬CutBetween scoreUser (scoreAndMember fromBits) p q k.encode ∧
        ¬CutBetween scoreUser (scoreAndMember fromBits) p q k.encodeSeekKey := by
  refine ⟨fun a b ↦ ?_, fun a b ↦ ?_, listsDataKeyCompare_swap, zsetsScoreKeyCompare_swap fromBits,
    fun S hS ↦ transitive_iff_of_stages fun a ha b hb ↦ listsDataKeyCompare_eq (hS a ha) (hS b hb),
    fun S hS ↦ transitive_iff_of_stages fun a ha b hb ↦
      zsetsScoreKeyCompare_eq fromBits (hS a ha) (hS b hb), fun k ↦ ?_, fun k p q ↦ ⟨?_, ?_⟩⟩
  · by_cases hempty : a = [] ∨ b = []
    · exact iff_of_true (if_pos hempty) hempty
    · obtain ⟨ha, hb⟩ := not_or.1 hempty
      refine iff_of_false ?_ hempty
      rw [listsDataKeyCompare_eq ha hb]
      rintro ⟨⟩
  · by_cases hshort : a.length ≤ 8 ∨ b.length ≤ 8
    · exact iff_of_true (if_pos hshort) hshort
    · obtain ⟨ha, hb⟩ := not_or.1 hshort
      refine iff_of_false ?_ hshort
      rw [zsetsScoreKeyCompare_eq fromBits (not_le.1 ha) (not_le.1 hb)]
      rintro ⟨⟩
  · rw [ListsDataKey.encode_eq_framed]
    exact (whole_framed ..).not_cutBetween
  · rw [ZSetsScoreKey.encode_eq_framed]
    exact (whole_framed ..).not_cutBetween p q
  · rw [ZSetsScoreKey.encodeSeekKey_eq_framed]
    exact (whole_framed ..).not_cutBetween p q

/-- Versions 1 and 256 of an empty user key, and a key between them that is cut inside its version:
by its bytes the cut key is behind version 256 and before version 1. So both comparators go round in
a circle. -/
theorem comparators_not_transitive :
    let cut : Bytes := List.replicate 10 0 ++ [0, 0x80]
    (listsDataKeyCompare (ListsDataKey.encode ⟨[], 256, 0⟩) cut = .ok .lt ∧
      listsDataKeyCompare cut (ListsDataKey.encode ⟨[], 1, 0⟩) = .ok .lt ∧
      listsDataKeyCompare (ListsDataKey.encode ⟨[], 1, 0⟩) (ListsDataKey.encode ⟨[], 256, 0⟩) =
        .ok .lt) ∧
    (zsetsScoreKeyCompare some (ZSetsScoreKey.encode ⟨[], 256, 0, []⟩) cut = .ok .lt ∧
      zsetsScoreKeyCompare some cut (ZSetsScoreKey.encode ⟨[], 1, 0, []⟩) = .ok .lt ∧
      zsetsScoreKeyCompare some (ZSetsScoreKey.encode ⟨[], 1, 0, []⟩)
        (ZSetsScoreKey.encode ⟨[], 256, 0, []⟩) = .ok .lt) ∧
    listsDataKeyCompare [] cut = .error .panicked ∧
    zsetsScoreKeyCompare (F := ℕ) some [0] cut = .error .panicked := by
  decide +kernel

/-! ### The logical order -/

/-- **The comparators agree with the logical order.** Encoded list keys are compared by user key,
version and index, encoded score keys by user key, version, score and member. Keys that compare
equal have the same components. -/
theorem comparators_eq_logical_order (a b : ListsDataKey) (x y : ZSetsScoreKey) {s t : F}
    (hs : fromBits x.score.toNat = some s) (ht : fromBits y.score.toNat = some t) :
    listsDataKeyCompare a.encode b.encode = .ok ((lexCompare a.key b.key).then
      ((cmp a.version.toNat b.version.toNat).then (cmp a.index.toNat b.index.toNat))) ∧
    zsetsScoreKeyCompare fromBits x.encode y.encode = .ok ((lexCompare x.key y.key).then
      ((cmp x.version.toNat y.version.toNat).then ((cmp s t).then (lexCompare x.member y.member)))) ∧
    (listsDataKeyCompare a.encode b.encode = .ok .eq → a = b) ∧
    (zsetsScoreKeyCompare fromBits x.encode y.encode = .ok .eq →
      x.key = y.key ∧ x.version = y.version ∧ s = t ∧ x.member = y.member) := by
  have hlist := listsDataKeyCompare_framed a.key b.key (List.replicate 16 0) (List.replicate 16 0)
    a.version b.version a.index b.index
  have hscore := zsetsScoreKeyCompare_framed fromBits x.key y.key (x.member ++ List.replicate 16 0)
    (y.member ++ List.replicate 16 0) x.version y.version x.score y.score
  rw [← ListsDataKey.encode_eq_framed, ← ListsDataKey.encode_eq_framed] at hlist
  rw [← ZSetsScoreKey.encode_eq_framed, ← ZSetsScoreKey.encode_eq_framed, hs, ht,
    lexCompare_append_replicate fun _ ↦ UInt8.zero_le] at hscore
  refine ⟨hlist, hscore, fun heq ↦ ?_, fun heq ↦ ?_⟩
  · have horder := Except.ok.inj (hlist.symm.trans heq)
    rw [Ordering.then_eq_eq, Ordering.then_eq_eq, lexCompare_eq_eq_iff, cmp_eq_eq_iff, cmp_eq_eq_iff,
      UInt64.toNat_inj, UInt64.toNat_inj] at horder
    obtain ⟨hkey, hversion, hindex⟩ := horder
    exact (ListsDataKey.mk.injEq ..).mpr ⟨hkey, hversion, hindex⟩
  · have horder := Except.ok.inj (hscore.symm.trans heq)
    rwa [Ordering.then_eq_eq, Ordering.then_eq_eq, Ordering.then_eq_eq, lexCompare_eq_eq_iff,
      lexCompare_eq_eq_iff, cmp_eq_eq_iff, compareScores, cmp_eq_eq_iff, UInt64.toNat_inj] at horder

-- the versions 256 and 1 in the order of the numbers, whatever the bytes
theorem comparators_eq_logical_order_versions :
    listsDataKeyCompare (ListsDataKey.encode ⟨[1], 1, 7⟩) (ListsDataKey.encode ⟨[1], 256, 3⟩) =
      .ok .lt ∧
    zsetsScoreKeyCompare some (ZSetsScoreKey.encode ⟨[1], 1, 7, [2]⟩)
      (ZSetsScoreKey.encode ⟨[1], 256, 3, [2]⟩) = .ok .lt := by
  obtain ⟨hlist, hscore, -⟩ := comparators_eq_logical_order some ⟨[1], 1, 7⟩ ⟨[1], 256, 3⟩
    ⟨[1], 1, 7, [2]⟩ ⟨[1], 256, 3, [2]⟩ rfl rfl
  exact ⟨hlist.trans (by decide), hscore.trans (by decide)⟩

end Kiwi.PhysicalKeys
