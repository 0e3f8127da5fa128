import Mathlib.Tactic.Linarith
import Mathlib.Tactic.Ring
import Kiwi.Lib.Wildcard
import Kiwi.Storage.Glob

/-!
# The glob matcher meets its specification

The meaning of a pattern is the recursive one of `Wildcard.Accepts`, with the tokens that
`firstToken` reads off a pattern: a star, one byte of any value, a class of bytes and ranges, a
byte. `globMatchBytes` walks pattern and text once and returns to the last star when it is stuck.

* `tokenMatches` and `firstToken` agree on what the first token is and where it ends.
* `matchLoop_iff` is the loop invariant: what is left is to match the rest here, or to start again
  after the last star at a later place in the text.
* The measure `work` falls with every iteration, which bounds their number.
-/

namespace Kiwi.Glob

open Wildcard

/-! ### The tokens of a pattern -/

/-- An item of a character class. -/
inductive ClassItem
  | byte (b : UInt8)
  /-- The bytes between two bounds, which may stand in either order. -/
  | range (a b : UInt8)

/-- The bytes an item lists. -/
def ClassItem.lists (c : UInt8) : ClassItem → Bool
  | byte b => b == c
  | range a b => (a ≤ c && c ≤ b) || (b ≤ c && c ≤ a)

/-- The items of a class up to its closing bracket, or to the end of the pattern, and what follows.
-/
def classItems : Bytes → List ClassItem × Bytes
  | [] => ([], [])
  | 0x5C :: c :: rest => (.byte c :: (classItems rest).1, (classItems rest).2)
  | 0x5D :: rest => ([], rest)
  | a :: 0x2D :: b :: rest => (.range a b :: (classItems rest).1, (classItems rest).2)
  | a :: rest => (.byte a :: (classItems rest).1, (classItems rest).2)

/-- The first token of a pattern, and the rest of the pattern. -/
def firstToken : Bytes → Option (Token UInt8 × Bytes)
  | [] => none
  | 0x2A :: rest => some (.star, rest)
  | 0x3F :: rest => some (.one fun _ ↦ true, rest)
  | 0x5B :: 0x5E :: rest =>
    some (.one fun c ↦ !(classItems rest).1.any (ClassItem.lists c), (classItems rest).2)
  | 0x5B :: rest =>
    some (.one fun c ↦ (classItems rest).1.any (ClassItem.lists c), (classItems rest).2)
  | 0x5C :: c :: rest => some (.one fun b ↦ b == c, rest)
  | c :: rest => some (.one fun b ↦ b == c, rest)

variable {c : UInt8} {pattern rest text : Bytes}

theorem lists_range (a b : UInt8) :
    (ClassItem.range a b).lists c = (decide (min a b ≤ c) && decide (c ≤ max a b)) := by
  rw [ClassItem.lists, Bool.eq_iff_iff]
  simp only [Bool.or_eq_true, Bool.and_eq_true, decide_eq_true_eq, min_le_iff, le_max_iff]
  have htotal := le_total a b
  grind

theorem classBody_eq (matched : Bool) :
    classBody c matched pattern =
      (matched || (classItems pattern).1.any (ClassItem.lists c), (classItems pattern).2) := by
  fun_induction classBody c matched pattern with
  | case1 matched => simp [classItems]
  | case2 matched d rest ih =>
    rw [ih, classItems, List.any_cons, ClassItem.lists, Bool.or_assoc]
  | case3 matched rest => simp [classItems]
  | case4 matched a b rest h₁ h₂ ih =>
    rw [ih, classItems, List.any_cons, lists_range, Bool.or_assoc]
    all_goals assumption
  | case5 matched a rest h₁ h₂ h₃ ih =>
    rw [ih, classItems, List.any_cons, ClassItem.lists, Bool.or_assoc]
    all_goals assumption

section

variable (pattern : Bytes)

theorem length_classItems_le : (classItems pattern).2.length ≤ pattern.length := by
  fun_induction classItems pattern <;> grind

theorem firstToken_class :
    ∃ ok rest, firstToken (0x5B :: pattern) = some (.one ok, rest) ∧
      rest.length ≤ pattern.length ∧ ∀ c, matchCharacterClass c pattern = (ok c, rest) := by
  by_cases hnegated : ∃ rest, pattern = 0x5E :: rest
  · obtain ⟨rest, rfl⟩ := hnegated
    refine ⟨_, _, rfl, (length_classItems_le rest).trans (by simp), fun c ↦ ?_⟩
    rw [matchCharacterClass, classBody_eq, Bool.false_or]
  · have hne : ∀ rest, pattern = 0x5E :: rest → False := fun rest h ↦ hnegated ⟨rest, h⟩
    refine ⟨_, _, firstToken.eq_5 pattern hne, length_classItems_le pattern, fun c ↦ ?_⟩
    rw [matchCharacterClass.eq_2 c pattern hne, classBody_eq, Bool.false_or]

theorem firstToken_bracket :
    ∃ ok rest, firstToken (0x5B :: pattern) = some (.one ok, rest) ∧
      (0x5B :: pattern).head? ≠ some 0x2A ∧ rest.length < (0x5B :: pattern).length ∧
      ∀ c, tokenMatches c (0x5B :: pattern) = if ok c then some rest else none := by
  obtain ⟨ok, rest, htoken, hlength, hclass⟩ := firstToken_class pattern
  refine ⟨ok, rest, htoken, by simp, Nat.lt_succ_of_le hlength, fun c ↦ ?_⟩
  rw [tokenMatches, hclass]

/-- **The first token.** A pattern is at its end, or it begins with a star, or it begins with a
single token: the matcher asks that one about its candidate and goes on after it. -/
theorem firstToken_cases :
    pattern = [] ∨ (∃ rest, pattern = 0x2A :: rest ∧ firstToken pattern = some (.star, rest)) ∨
      ∃ ok rest, firstToken pattern = some (.one ok, rest) ∧ pattern.head? ≠ some 0x2A ∧
        rest.length < pattern.length ∧
        ∀ c, tokenMatches c pattern = if ok c then some rest else none := by
  fun_cases firstToken pattern
  case case1 => exact .inl rfl
  case case2 rest => exact .inr (.inl ⟨rest, rfl, rfl⟩)
  case case3 rest =>
    exact .inr (.inr ⟨_, rest, rfl, by simp, by simp, fun c ↦ by simp [tokenMatches]⟩)
  case case4 rest =>
    have hbracket := firstToken_bracket (0x5E :: rest)
    rw [firstToken] at hbracket
    exact .inr (.inr hbracket)
  case case5 rest h =>
    have hbracket := firstToken_bracket rest
    rw [firstToken.eq_5 rest h] at hbracket
    exact .inr (.inr hbracket)
  case case6 d rest =>
    refine .inr (.inr ⟨_, rest, rfl, by simp, by simp only [List.length_cons]; omega, fun c ↦ ?_⟩)
    simp [tokenMatches]
  case case7 d rest h₁ h₂ h₃ h₄ h₅ =>
    refine .inr (.inr ⟨_, rest, rfl, ?_, by simp, fun c ↦ ?_⟩)
    · simpa using h₁
    · simp [tokenMatches]

end

/-! ### Stars -/

@[simp]
theorem skipStars_star : skipStars (0x2A :: rest) = skipStars rest := by
  simp [skipStars]

theorem skipStars_of_head? (h : pattern.head? ≠ some 0x2A) : skipStars pattern = pattern := by
  cases pattern with
  | nil => rfl
  | cons b rest =>
    have hb : b ≠ 0x2A := by simpa using h
    simp [skipStars, hb]

theorem length_skipStars_le (pattern : Bytes) : (skipStars pattern).length ≤ pattern.length :=
  (List.dropWhile_suffix _).length_le

theorem accepts_stars :
    Accepts firstToken (0x2A :: rest) text ↔
      ∃ s, s <:+ text ∧ Accepts firstToken (skipStars rest) s := by
  induction rest generalizing text with
  | nil => exact accepts_of_star rfl
  | cons b rest ih =>
    rw [accepts_of_star (show firstToken (0x2A :: b :: rest) = some (.star, b :: rest) from rfl)]
    by_cases hb : b = 0x2A
    · subst hb
      rw [skipStars_star]
      constructor
      · rintro ⟨s, hs, haccepts⟩
        obtain ⟨s', hs', haccepts'⟩ := ih.1 haccepts
        exact ⟨s', hs'.trans hs, haccepts'⟩
      · rintro ⟨s, hs, haccepts⟩
        exact ⟨s, hs, ih.2 ⟨s, List.suffix_rfl, haccepts⟩⟩
    · rw [skipStars_of_head? (by simpa using hb)]

/-- What is left of a pattern at the end of the text can only be stars. -/
theorem accepts_nil_iff : Accepts firstToken pattern [] ↔ skipStars pattern = [] := by
  induction pattern with
  | nil => exact ⟨fun _ ↦ rfl, fun _ ↦ .nil rfl⟩
  | cons b rest ih =>
    rcases firstToken_cases (b :: rest) with h | ⟨rest', h, htoken⟩ | ⟨ok, rest', htoken, hhead, -⟩
    · exact nomatch h
    · obtain ⟨rfl, rfl⟩ := List.cons.inj h
      rw [accepts_of_star htoken, skipStars_star, ← ih]
      constructor
      · rintro ⟨s, hs, haccepts⟩
        obtain rfl := List.suffix_nil.1 hs
        exact haccepts
      · exact fun haccepts ↦ ⟨[], List.suffix_rfl, haccepts⟩
    · rw [skipStars_of_head? hhead]
      exact iff_of_false (not_accepts_one_nil htoken) (List.cons_ne_nil b rest)

/-! ### The loop -/

/-- Where the loop is: the rest of the pattern, the rest of the text, the star to return to. -/
abbrev Place := Bytes × Bytes × Option (Bytes × Bytes)

/-- One iteration of the main loop, on a text that is not at its end: the answer, or the next
place. -/
def iterate (pattern : Bytes) (c : UInt8) (text : Bytes) (star : Option (Bytes × Bytes)) :
    Bool ⊕ Place :=
  if pattern.head? = some 0x2A then
    if (skipStars pattern).isEmpty then .inl true
    else .inr (skipStars pattern, c :: text, some (skipStars pattern, c :: text))
  else
    match tokenMatches c pattern with
    | some rest => .inr (rest, text, star)
    | none =>
      match star with
      | none => .inl false
      | some (_, []) => .inl false
      | some (resume, _ :: starText) => .inr (resume, starText, some (resume, starText))

/-- The number of iterations of the main loop that are made with some fuel. -/
def iterations : ℕ → Place → ℕ
  | 0, _ => 0
  | _ + 1, (_, [], _) => 0
  | fuel + 1, (pattern, c :: text, star) =>
    Sum.elim (fun _ ↦ 0) (iterations fuel) (iterate pattern c text star) + 1

variable {fuel : ℕ}

theorem matchLoop_cons (star : Option (Bytes × Bytes)) :
    matchLoop (fuel + 1) pattern (c :: text) star =
      Sum.elim id (fun place ↦ matchLoop fuel place.1 place.2.1 place.2.2)
        (iterate pattern c text star) := by
  conv_lhs => rw [matchLoop.eq_def]
  simp only [iterate]
  split_ifs with hstar hempty
  · simp [hempty]
  · simp [hempty]
  · cases tokenMatches c pattern with
    | some rest => rfl
    | none =>
      rcases star with _ | ⟨resume, _ | ⟨d, starText⟩⟩
      all_goals rfl

/-- The loop invariant: single tokens lead from the star to return to up to here, in the pattern as
in the text, and nothing of either pattern is longer than the whole. -/
structure Underway (bound : ℕ) (place : Place) : Prop where
  length_le : place.1.length ≤ bound
  resume : ∀ {resume starText}, place.2.2 = some (resume, starText) → resume.length ≤ bound ∧
    ∃ k ≤ starText.length, Consumes firstToken k resume place.1 ∧ place.2.1 = starText.drop k

/-- The text matches the pattern from here, or from the last star on at a later place. -/
def Matches (place : Place) : Prop :=
  Accepts firstToken place.1 place.2.1 ∨ ∃ resume starText, place.2.2 = some (resume, starText) ∧
    ∃ s, s <:+ starText ∧ s ≠ starText ∧ Accepts firstToken resume s

/-- A bound on the iterations still to come. -/
def work (bound : ℕ) (place : Place) : ℕ :=
  place.1.length + (place.2.2.elim place.2.1 Prod.snd).length * (bound + 1)

variable {star : Option (Bytes × Bytes)}

/-- At the end of the text no later place after the star can match: it has too few bytes for the
tokens since. -/
theorem matches_end {bound : ℕ} (h : Underway bound (pattern, [], star)) :
    Matches (pattern, [], star) ↔ Accepts firstToken pattern [] := by
  refine ⟨?_, Or.inl⟩
  rintro (haccepts | ⟨resume, starText, hstar, s, hs, hne, haccepts⟩)
  · exact haccepts
  · obtain ⟨-, k, hk, hconsumes, hdrop⟩ := h.resume hstar
    have hlength : starText.length ≤ k := List.drop_eq_nil_iff.1 hdrop.symm
    have hshort : k ≤ s.length := (hconsumes.accepts_drop haccepts).1
    have heq : s = starText := hs.eq_of_length_le (by omega)
    exact absurd heq hne

theorem matches_star {bound : ℕ} (h : Underway bound (0x2A :: rest, text, star)) :
    Matches (0x2A :: rest, text, star) ↔ ∃ s, s <:+ text ∧ Accepts firstToken (skipStars rest) s := by
  rw [← accepts_stars]
  refine ⟨?_, Or.inl⟩
  rintro (haccepts | ⟨resume, starText, hstar, s, hs, -, haccepts⟩)
  · exact haccepts
  · obtain ⟨-, k, hk, hconsumes, rfl⟩ := h.resume hstar
    exact hconsumes.star_covers rfl hs haccepts

theorem matches_restart (resume starText : Bytes) :
    Matches (resume, starText, some (resume, starText)) ↔
      ∃ s, s <:+ starText ∧ Accepts firstToken resume s := by
  constructor
  · rintro (haccepts | ⟨_, _, hstar, s, hs, -, haccepts⟩)
    · exact ⟨starText, List.suffix_rfl, haccepts⟩
    · obtain ⟨rfl, rfl⟩ : resume = _ ∧ starText = _ := by simpa using hstar
      exact ⟨s, hs, haccepts⟩
  · rintro ⟨s, hs, haccepts⟩
    by_cases heq : s = starText
    · exact .inl (heq ▸ haccepts)
    · exact .inr ⟨resume, starText, rfl, s, hs, heq, haccepts⟩

/-- What an iteration owes: an answer is right, and the next place keeps the invariant, leaves the
same to be matched and has less work. -/
def Sound (bound : ℕ) (place : Place) : Bool ⊕ Place → Prop
  | .inl answer => answer = true ↔ Matches place
  | .inr next =>
    Underway bound next ∧ (Matches next ↔ Matches place) ∧ work bound next < work bound place

section Iteration

variable {bound : ℕ} {star : Option (Bytes × Bytes)}

variable {place : Place}

theorem Underway.length_text_le (h : Underway bound place) :
    place.2.1.length ≤ (place.2.2.elim place.2.1 Prod.snd).length := by
  obtain ⟨pattern, text, _ | ⟨resume, starText⟩⟩ := place
  · exact le_rfl
  · obtain ⟨-, k, -, -, htext⟩ := h.resume rfl
    simp only [Option.elim_some]
    rw [show text = starText.drop k from htext, List.length_drop]
    exact Nat.sub_le _ _

theorem sound_of_star (h : Underway bound (0x2A :: rest, c :: text, star)) :
    Sound bound (0x2A :: rest, c :: text, star) (iterate (0x2A :: rest) c text star) := by
  by_cases hrest : skipStars rest = []
  · rw [show iterate (0x2A :: rest) c text star = .inl true by simp [iterate, hrest]]
    refine iff_of_true rfl ((matches_star h).2 ⟨[], List.nil_suffix, ?_⟩)
    rw [hrest]
    exact .nil rfl
  · rw [show iterate (0x2A :: rest) c text star =
      .inr (skipStars rest, c :: text, some (skipStars rest, c :: text)) by simp [iterate, hrest]]
    have hlength : (skipStars rest).length < (0x2A :: rest).length :=
      Nat.lt_succ_of_le (length_skipStars_le rest)
    have hbound : (skipStars rest).length ≤ bound := hlength.le.trans h.length_le
    refine ⟨⟨hbound, ?_⟩, ?_, ?_⟩
    · intro resume starText heq
      obtain ⟨rfl, rfl⟩ : skipStars rest = resume ∧ c :: text = starText := by simpa using heq
      exact ⟨hbound, 0, Nat.zero_le _, .refl _, rfl⟩
    · rw [matches_restart, matches_star h]
    · exact Nat.add_lt_add_of_lt_of_le hlength (Nat.mul_le_mul_right _ h.length_text_le)

section

variable (h : Underway bound (pattern, c :: text, star))

include h

theorem sound_of_token {ok : UInt8 → Bool}
    (htoken : firstToken pattern = some (.one ok, rest)) (hlt : rest.length < pattern.length)
    (hok : ok c = true) : Sound bound (pattern, c :: text, star) (.inr (rest, text, star)) := by
  refine ⟨⟨hlt.le.trans h.length_le, ?_⟩, ?_, ?_⟩
  · intro resume starText heq
    obtain ⟨hresume, k, hk, hconsumes, htext⟩ := h.resume heq
    have htext : c :: text = starText.drop k := htext
    have hlength : k + 1 ≤ starText.length := by
      have h := congrArg List.length htext
      simp only [List.length_cons, List.length_drop] at h
      omega
    refine ⟨hresume, k + 1, hlength, hconsumes.one htoken, ?_⟩
    rw [← List.drop_drop, ← htext, List.drop_one, List.tail_cons]
  · exact or_congr_left (by simp only [accepts_one_cons htoken, hok, true_and])
  · refine Nat.add_lt_add_of_lt_of_le hlt (Nat.mul_le_mul_right _ ?_)
    cases star with
    | none => exact Nat.le_succ _
    | some star => exact le_rfl

theorem sound_of_stuck (hhead : pattern.head? ≠ some 0x2A) (hstuck : tokenMatches c pattern = none)
    (hnot : ¬Accepts firstToken pattern (c :: text)) :
    Sound bound (pattern, c :: text, star) (iterate pattern c text star) := by
  have hmatches : Matches (pattern, c :: text, star) ↔ ∃ resume starText,
      star = some (resume, starText) ∧ ∃ s, s <:+ starText ∧ s ≠ starText ∧
        Accepts firstToken resume s := or_iff_right hnot
  rw [iterate.eq_def, if_neg hhead, hstuck]
  rcases star with _ | ⟨resume, _ | ⟨d, starText⟩⟩
  · refine (iff_of_false nofun ?_)
    rw [hmatches]
    rintro ⟨_, _, heq, -⟩
    exact nomatch heq
  · refine (iff_of_false nofun ?_)
    rw [hmatches]
    rintro ⟨_, _, heq, s, hs, hne, -⟩
    obtain ⟨rfl, rfl⟩ : resume = _ ∧ [] = _ := by simpa using heq
    exact hne (List.suffix_nil.1 hs)
  · have hresume : resume.length ≤ bound := (h.resume rfl).1
    refine ⟨⟨hresume, ?_⟩, ?_, ?_⟩
    · intro resume' starText' heq
      obtain ⟨rfl, rfl⟩ : resume = resume' ∧ starText = starText' := by simpa using heq
      exact ⟨hresume, 0, Nat.zero_le _, .refl _, rfl⟩
    · rw [matches_restart, hmatches]
      constructor
      · rintro ⟨s, hs, haccepts⟩
        refine ⟨resume, d :: starText, rfl, s, hs.trans (List.suffix_cons d starText), ?_, haccepts⟩
        rintro rfl
        exact absurd hs.length_le (by simp)
      · rintro ⟨_, _, heq, s, hs, hne, haccepts⟩
        obtain ⟨rfl, rfl⟩ : resume = _ ∧ d :: starText = _ := by simpa using heq
        exact ⟨s, (List.suffix_cons_iff.1 hs).resolve_left hne, haccepts⟩
    · simp only [work, Option.elim_some, List.length_cons, Nat.succ_mul]
      omega

theorem sound_iterate : Sound bound (pattern, c :: text, star) (iterate pattern c text star) := by
  rcases firstToken_cases pattern with rfl | ⟨rest, rfl, -⟩ | ⟨ok, rest, htoken, hhead, hlt, hmatches⟩
  · exact sound_of_stuck h nofun rfl fun haccepts ↦ nomatch (accepts_of_none rfl).1 haccepts
  · exact sound_of_star h
  · by_cases hok : ok c = true
    · rw [iterate.eq_def, if_neg hhead, hmatches, if_pos hok]
      exact sound_of_token h htoken hlt hok
    · refine sound_of_stuck h hhead (by rw [hmatches, if_neg hok]) fun haccepts ↦ hok ?_
      exact ((accepts_one_cons htoken).1 haccepts).1

end

/-- The run lemma: with more fuel than work the loop answers whether there is a match. -/
theorem matchLoop_iff (h : Underway bound place) (hfuel : work bound place < fuel) :
    matchLoop fuel place.1 place.2.1 place.2.2 = true ↔ Matches place := by
  induction fuel generalizing place with
  | zero => exact absurd hfuel (Nat.not_lt_zero _)
  | succ fuel ih =>
    obtain ⟨pattern, _ | ⟨c, text⟩, star⟩ := place
    · rw [matches_end h, accepts_nil_iff, matchLoop, List.isEmpty_iff]
    · rw [matchLoop_cons]
      have hsound := sound_iterate h
      cases hnext : iterate pattern c text star with
      | inl answer =>
        rw [hnext] at hsound
        exact hsound
      | inr next =>
        rw [hnext] at hsound
        obtain ⟨hunderway, hsame, hwork⟩ := hsound
        exact (ih hunderway (by omega)).trans hsame

theorem iterations_le (h : Underway bound place) :
    iterations fuel place ≤ work bound place + 1 := by
  induction fuel generalizing place with
  | zero => exact Nat.zero_le _
  | succ fuel ih =>
    obtain ⟨pattern, _ | ⟨c, text⟩, star⟩ := place
    · exact Nat.zero_le _
    · rw [iterations]
      have hsound := sound_iterate h
      cases hnext : iterate pattern c text star with
      | inl answer => exact Nat.succ_le_succ (Nat.zero_le _)
      | inr next =>
        rw [hnext] at hsound
        obtain ⟨hunderway, -, hwork⟩ := hsound
        exact Nat.succ_le_succ ((ih hunderway).trans hwork)

end Iteration

theorem underway_start (pattern text : Bytes) : Underway pattern.length (pattern, text, none) :=
  ⟨le_rfl, nofun⟩

theorem matches_start : Matches (pattern, text, none) ↔ Accepts firstToken pattern text :=
  or_iff_left (by rintro ⟨_, _, heq, -⟩; exact nomatch heq)

theorem work_start (pattern text : Bytes) :
    work pattern.length (pattern, text, none) + 1 = (pattern.length + 1) * (text.length + 1) := by
  simp only [work, Option.elim_none]
  ring

theorem globMatchBytes_iff (htext : text ≠ []) :
    globMatchBytes pattern text = true ↔ Accepts firstToken pattern text := by
  have hfuel : work pattern.length (pattern, text, none) <
      (text.length + 2) * (text.length + pattern.length + 2) := by
    have hwork := work_start pattern text
    nlinarith
  rw [globMatchBytes, if_neg (by simpa using htext), ← matches_start]
  exact matchLoop_iff (underway_start pattern text) hfuel

/-- **Glob matching equals its specification.** On a text that is not empty, `glob_match_bytes`
answers whether the recursive meaning of the pattern accepts the text. Its main loop makes at most
`(|pattern| + 1) * (|text| + 1)` iterations however long it is allowed to run. -/
theorem globMatchBytes_iff_accepts (pattern text : Bytes) (htext : text ≠ []) :
    (globMatchBytes pattern text = true ↔ Accepts firstToken pattern text) ∧
      ∀ fuel, iterations fuel (pattern, text, none) ≤ (pattern.length + 1) * (text.length + 1) := by
  refine ⟨globMatchBytes_iff htext, fun fuel ↦ ?_⟩
  rw [← work_start]
  exact iterations_le (underway_start pattern text)

-- `a*c` on `abc`
theorem globMatchBytes_iff_accepts_abc :
    Accepts firstToken [0x61, 0x2A, 0x63] [0x61, 0x62, 0x63] ∧
      iterations 100 ([0x61, 0x2A, 0x63], [0x61, 0x62, 0x63], none) ≤ 16 := by
  obtain ⟨hiff, hiterations⟩ :=
    globMatchBytes_iff_accepts [0x61, 0x2A, 0x63] [0x61, 0x62, 0x63] (by decide)
  exact ⟨hiff.1 (by decide), hiterations 100⟩

end Kiwi.Glob
