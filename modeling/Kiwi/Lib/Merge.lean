import Mathlib.Data.List.Basic
import Mathlib.Data.List.Perm.Basic
import Mathlib.Order.Lattice
import Mathlib.Tactic.Common

/-!
# Merging several streams

A k-way merge: every step looks at the heads of all streams and takes the first one that no other
head is better than. The output is kept with the number of the stream that each element comes from.

`next_spec` says what a step takes; that the output has the elements of the streams
(`merge_perm`), that it is in order when every stream is and that among equals the stream with the
lower number comes first (`merge_ordered`) follow from it by induction.
-/

namespace Merging

variable {α : Type*} (better : α → α → Bool)

/-- The loop over the streams that picks the best head. -/
def choose : ℕ → Option (ℕ × α) → List (List α) → Option (ℕ × α)
  | _, chosen, [] => chosen
  | index, chosen, [] :: streams => choose (index + 1) chosen streams
  | index, chosen, (head :: _) :: streams =>
    choose (index + 1)
      (if chosen.all fun best ↦ better head best.2 then some (index, head) else chosen) streams

/-- One step: what is taken, and what is left. -/
def next (streams : List (List α)) : Option ((ℕ × α) × List (List α)) :=
  (choose better 0 none streams).map fun chosen ↦ (chosen, streams.modify chosen.1 List.tail)

/-- The output of at most `fuel` steps. -/
def steps : ℕ → List (List α) → List (ℕ × α)
  | 0, _ => []
  | fuel + 1, streams =>
    match next better streams with
    | none => []
    | some (taken, rest) => taken :: steps fuel rest

/-- The whole output. -/
def merge (streams : List (List α)) : List (ℕ × α) :=
  steps better (streams.flatten.length + 1) streams

/-- What a comparison of heads has to satisfy. -/
structure IsStrict : Prop where
  /-- No two are better than each other. -/
  asymm : ∀ {a b}, better a b = true → better b a = false
  /-- What is between two is worse than the one or better than the other. -/
  cotrans : ∀ {a c} b, better a c = true → better a b = true ∨ better b c = true

variable {better} {streams rest : List (List α)} {chosen : Option (ℕ × α)} {n : ℕ}

theorem isStrict_of_lt_iff [LinearOrder α] (h : ∀ a b, better a b = true ↔ a < b) :
    IsStrict better where
  asymm {a b} hab := by
    rw [Bool.eq_false_iff, Ne, h]
    exact lt_asymm ((h a b).1 hab)
  cotrans {a c} b hac := by
    rw [h, h]
    rcases lt_or_ge a b with hab | hba
    · exact .inl hab
    · exact .inr (hba.trans_lt ((h a c).1 hac))

/-! ### The choice -/

/-- The head of a stream. -/
def headOf (streams : List (List α)) (j : ℕ) : Option α := streams[j]?.bind List.head?

variable (better) in
/-- The best head of the first `n` streams. -/
structure Best (streams : List (List α)) (n : ℕ) (chosen : Option (ℕ × α)) : Prop where
  mem : ∀ {i x}, chosen = some (i, x) → i < n ∧ headOf streams i = some x
  best : ∀ {j y}, j < n → headOf streams j = some y →
    ∃ i x, chosen = some (i, x) ∧ better y x = false ∧ (j < i → better x y = true)

theorem Best.skip (h : Best better streams n chosen) (hn : headOf streams n = none) :
    Best better streams (n + 1) chosen where
  mem hchosen := ⟨Nat.lt_succ_of_lt (h.mem hchosen).1, (h.mem hchosen).2⟩
  best {j y} hj hy := by
    rcases Nat.lt_succ_iff_lt_or_eq.1 hj with hj | rfl
    · exact h.best hj hy
    · exact nomatch hn.symm.trans hy

section

variable (hstrict : IsStrict better)

include hstrict

theorem Best.step (h : Best better streams n chosen) {x : α} (hn : headOf streams n = some x) :
    Best better streams (n + 1)
      (if chosen.all fun best ↦ better x best.2 then some (n, x) else chosen) := by
  have hirrefl : better x x = false := by
    by_contra hx
    have hx : better x x = true := by simpa using hx
    exact absurd (hstrict.asymm hx) (by simp [hx])
  by_cases hall : (chosen.all fun best ↦ better x best.2) = true
  · rw [if_pos hall]
    constructor
    · intro i y heq
      obtain ⟨rfl, rfl⟩ : n = i ∧ x = y := by simpa using heq
      exact ⟨Nat.lt_succ_self n, hn⟩
    · intro j y hj hy
      refine ⟨n, x, rfl, ?_⟩
      rcases Nat.lt_succ_iff_lt_or_eq.1 hj with hj | rfl
      · -- the new head is better than the old choice, which no earlier head is better than
        obtain ⟨i, z, rfl, hyz, -⟩ := h.best hj hy
        have hxz : better x z = true := by simpa using hall
        have hxy : better x y = true := (hstrict.cotrans y hxz).resolve_right (by simp [hyz])
        exact ⟨hstrict.asymm hxy, fun _ ↦ hxy⟩
      · obtain rfl : x = y := Option.some.inj (hn.symm.trans hy)
        exact ⟨hirrefl, fun hlt ↦ absurd hlt (Nat.lt_irrefl _)⟩
  · rw [if_neg hall]
    constructor
    · exact fun hchosen ↦ ⟨Nat.lt_succ_of_lt (h.mem hchosen).1, (h.mem hchosen).2⟩
    · intro j y hj hy
      rcases Nat.lt_succ_iff_lt_or_eq.1 hj with hj | rfl
      · exact h.best hj hy
      · obtain rfl : x = y := Option.some.inj (hn.symm.trans hy)
        obtain ⟨⟨i, z⟩, rfl⟩ : ∃ best, chosen = some best := by
          cases chosen with
          | none => exact absurd rfl hall
          | some best => exact ⟨best, rfl⟩
        have hxz : better x z = false := by simpa using hall
        exact ⟨i, z, rfl, hxz, fun hlt ↦ absurd (h.mem rfl).1 (by omega)⟩

theorem Best.choose (done rest : List (List α))
    (h : Best better (done ++ rest) done.length chosen) :
    Best better (done ++ rest) (done ++ rest).length (choose better done.length chosen rest) := by
  induction rest generalizing done chosen with
  | nil => rwa [List.append_nil] at h ⊢
  | cons stream rest ih =>
    have hhead : headOf (done ++ stream :: rest) done.length = stream.head? := by simp [headOf]
    have hsplit : done ++ stream :: rest = (done ++ [stream]) ++ rest := by simp
    have hlength : done.length + 1 = (done ++ [stream]).length := by simp
    cases stream with
    | nil =>
      have hnext := h.skip hhead
      rw [Merging.choose, hlength]
      rw [hsplit, hlength] at hnext
      rw [hsplit]
      exact ih (done ++ [[]]) hnext
    | cons x stream =>
      have hnext := h.step hstrict hhead
      rw [Merging.choose, hlength]
      rw [hsplit, hlength] at hnext
      rw [hsplit]
      exact ih (done ++ [x :: stream]) hnext

/-- **What a step takes.** Nothing if all streams are at their end; otherwise the first of the heads
that no other head is better than. -/
theorem next_spec (streams : List (List α)) :
    (next better streams = none ∧ ∀ stream ∈ streams, stream = []) ∨
      ∃ i x stream, next better streams = some ((i, x), streams.set i stream) ∧
        streams[i]? = some (x :: stream) ∧
        ∀ {j y}, headOf streams j = some y → better y x = false ∧ (j < i → better x y = true) := by
  have hbest : Best better streams streams.length (choose better 0 none streams) :=
    Best.choose hstrict [] streams ⟨nofun, fun hj ↦ absurd hj (Nat.not_lt_zero _)⟩
  have hlt : ∀ {j y}, headOf streams j = some y → j < streams.length := by
    intro j y hy
    by_contra hge
    rw [headOf, List.getElem?_eq_none (Nat.not_lt.1 hge)] at hy
    exact nomatch hy
  cases hchoose : choose better 0 none streams with
  | none =>
    rw [hchoose] at hbest
    refine .inl ⟨by rw [next, hchoose, Option.map_none], fun stream hmem ↦ ?_⟩
    obtain ⟨j, hj, rfl⟩ := List.getElem_of_mem hmem
    by_contra hne
    obtain ⟨y, tail, heq⟩ := List.exists_cons_of_ne_nil hne
    obtain ⟨_, _, hsome, -⟩ := hbest.best hj (y := y) (by simp [headOf, hj, heq])
    exact nomatch hsome
  | some taken =>
    obtain ⟨i, x⟩ := taken
    rw [hchoose] at hbest
    obtain ⟨hi, hhead⟩ := hbest.mem rfl
    obtain ⟨stream, hstream⟩ : ∃ stream, streams[i]? = some (x :: stream) := by
      rw [headOf, List.getElem?_eq_getElem hi, Option.bind_some] at hhead
      rw [List.getElem?_eq_getElem hi]
      obtain ⟨stream, heq⟩ := List.head?_eq_some_iff.1 hhead
      exact ⟨stream, by rw [heq]⟩
    refine .inr ⟨i, x, stream, ?_, hstream, fun {j y} hy ↦ ?_⟩
    · rw [next, hchoose, Option.map_some, List.modify_eq_set_getElem?, hstream]
      rfl
    · obtain ⟨i', x', heq, hyx⟩ := hbest.best (hlt hy) hy
      obtain ⟨rfl, rfl⟩ : i = i' ∧ x = x' := by simpa using heq
      exact hyx

end

/-! ### The output -/

theorem flatten_perm_set {i : ℕ} {x : α} {stream : List α} (h : streams[i]? = some (x :: stream)) :
    streams.flatten.Perm (x :: (streams.set i stream).flatten) := by
  induction streams generalizing i with
  | nil => exact nomatch h
  | cons first streams ih =>
    cases i with
    | zero =>
      obtain rfl : first = x :: stream := by simpa using h
      exact List.Perm.refl _
    | succ i =>
      rw [List.set_cons_succ, List.flatten_cons, List.flatten_cons]
      exact ((ih (by simpa using h)).append_left first).trans List.perm_middle

theorem steps_perm (hstrict : IsStrict better) {fuel : ℕ} (hfuel : streams.flatten.length < fuel) :
    ((steps better fuel streams).map Prod.snd).Perm streams.flatten := by
  induction fuel generalizing streams with
  | zero => exact absurd hfuel (Nat.not_lt_zero _)
  | succ fuel ih =>
    rw [steps]
    rcases next_spec hstrict streams with ⟨hnext, hempty⟩ | ⟨i, x, stream, hnext, hget, -⟩
    · rw [hnext, List.flatten_eq_nil_iff.2 hempty]
      exact List.Perm.refl _
    · have hperm := flatten_perm_set hget
      have hlength := hperm.length_eq
      rw [List.length_cons] at hlength
      rw [hnext]
      exact ((ih (by omega)).cons x).trans hperm.symm

/-- A stream after a step: the one that was taken from, or one as before. -/
theorem getElem?_set_cases {i j : ℕ} {s stream : List α} (h : (streams.set i stream)[j]? = some s) :
    i = j ∧ s = stream ∨ streams[j]? = some s := by
  rw [List.getElem?_set] at h
  split_ifs at h with hij
  · obtain rfl : stream = s := by simpa using h
    exact .inl ⟨hij, rfl⟩
  · exact .inr h

theorem mem_steps (hstrict : IsStrict better) {fuel j : ℕ} {y : α}
    (h : (j, y) ∈ steps better fuel streams) : ∃ stream, streams[j]? = some stream ∧ y ∈ stream := by
  induction fuel generalizing streams with
  | zero => exact nomatch h
  | succ fuel ih =>
    rw [steps] at h
    rcases next_spec hstrict streams with ⟨hnext, -⟩ | ⟨i, x, stream, hnext, hget, -⟩
    · rw [hnext] at h
      exact nomatch h
    · rw [hnext] at h
      rcases List.mem_cons.1 h with heq | h
      · obtain ⟨rfl, rfl⟩ := Prod.mk.inj heq
        exact ⟨_, hget, List.mem_cons_self⟩
      · obtain ⟨s, hs, hy⟩ := ih h
        rcases getElem?_set_cases hs with ⟨rfl, rfl⟩ | hs
        · exact ⟨_, hget, List.mem_cons_of_mem x hy⟩
        · exact ⟨s, hs, hy⟩

variable (better) in
/-- A stream without an element that is better than one before it. -/
def Ordered (stream : List α) : Prop := stream.Pairwise fun a b ↦ better b a = false

variable (better) in
/-- The order of the output: nothing better comes later, and among equals nothing from a stream with
a lower number. -/
def Precedes (p q : ℕ × α) : Prop :=
  better q.2 p.2 = false ∧ (q.1 < p.1 → better p.2 q.2 = true)

section

variable (hstrict : IsStrict better)

include hstrict

theorem steps_ordered (fuel : ℕ) (h : ∀ stream ∈ streams, Ordered better stream) :
    (steps better fuel streams).Pairwise (Precedes better) := by
  induction fuel generalizing streams with
  | zero => exact .nil
  | succ fuel ih =>
    rw [steps]
    rcases next_spec hstrict streams with ⟨hnext, -⟩ | ⟨i, x, stream, hnext, hget, hbest⟩
    · rw [hnext]
      exact .nil
    · have htaken := List.pairwise_cons.1 (h _ (List.mem_of_getElem? hget))
      rw [hnext]
      refine .cons ?_ (ih ?_)
      · rintro ⟨j, y⟩ hmem
        obtain ⟨s, hs, hy⟩ := mem_steps hstrict hmem
        rcases getElem?_set_cases hs with ⟨rfl, rfl⟩ | hs
        · exact ⟨htaken.1 y hy, fun hlt ↦ absurd hlt (Nat.lt_irrefl _)⟩
        · obtain ⟨z, s, rfl⟩ : ∃ z s', s = z :: s' := List.exists_cons_of_ne_nil fun hnil ↦ by
            rw [hnil] at hy
            exact nomatch hy
          obtain ⟨hzx, hlower⟩ := hbest (j := j) (y := z) (by simp [headOf, hs])
          have hyz : y = z ∨ better y z = false := by
            rcases List.mem_cons.1 hy with rfl | hy
            · exact .inl rfl
            · exact .inr ((List.pairwise_cons.1 (h _ (List.mem_of_getElem? hs))).1 y hy)
          rcases hyz with rfl | hyz
          · exact ⟨hzx, hlower⟩
          · constructor
            · show better y x = false
              by_contra hyx
              have hyx : better y x = true := by simpa using hyx
              rcases hstrict.cotrans z hyx with h | h <;> simp_all
            · intro hlt
              rcases hstrict.cotrans y (hlower hlt) with h | h
              · exact h
              · simp_all
      · intro s hs
        rcases List.mem_or_eq_of_mem_set hs with hs | rfl
        · exact h s hs
        · exact htaken.2

/-- **The output has the elements of the streams.** -/
theorem merge_perm (streams : List (List α)) :
    ((merge better streams).map Prod.snd).Perm streams.flatten :=
  steps_perm hstrict (Nat.lt_succ_self _)

/-- **The output is in order and stable.** -/
theorem merge_ordered (h : ∀ stream ∈ streams, Ordered better stream) :
    (merge better streams).Pairwise (Precedes better) :=
  steps_ordered hstrict _ h

end

end Merging
