import Mathlib.Data.List.Chain

/-!
# Scans that are taken page by page

A client of a scan calls it again and again, each time with the cursor of the last answer, and
anything may happen to the collection between two calls. `Iteration` is such a sequence of calls
from the first to the last.

The one rule for what a whole scan returns is `Iteration.mem_of_ahead`: something that is ahead of
the first page, that no last page leaves ahead, and that is ahead of the next page when a page has
not returned it, is returned.

`Positional` scans are those whose cursor is a number of elements of the listing, which may be
another one when the next page is taken. An element that stays in the listing is passed over in only
one way: it lay at or after the place where a page left off, and lies before that place when the
next page is taken. `Steady` elements, to which this does not happen, are returned.
-/

namespace Paging

variable {P α β ε : Type*}

/-- One call of a scan: what it meets, its cursor, the cursor it returns, and what it returns. -/
structure Visit (P β : Type*) where
  /-- The state at the time of the call, and its other arguments. -/
  page : P
  cursor : ℕ
  next : ℕ
  returned : List β

/-- The answer is that of the scan. -/
def Visit.Answers (scan : P → ℕ → Except ε (ℕ × List β)) (v : Visit P β) : Prop :=
  scan v.page v.cursor = .ok (v.next, v.returned)

/-- The visits are all calls of one scan: from cursor zero, along the cursors it returns, until it
returns zero. -/
structure Iteration (scan : P → ℕ → Except ε (ℕ × List β)) (visits : List (Visit P β)) : Prop where
  /-- The answers are those of the scan. -/
  answers : ∀ v ∈ visits, v.Answers scan
  starts : ∃ v ∈ visits.head?, v.cursor = 0
  /-- The cursor that is returned is the one of the next call. -/
  follows : visits.IsChain fun v w ↦ v.next ≠ 0 ∧ w.cursor = v.next
  ends : ∀ v ∈ visits.getLast?, v.next = 0

section

variable {scan : P → ℕ → Except ε (ℕ × List β)} {visits : List (Visit P β)}
variable {Ahead : Visit P β → Prop} {Between : Visit P β → Visit P β → Prop} {y : β}

theorem mem_of_ahead_head (hanswers : ∀ v ∈ visits, v.Answers scan)
    (hfollows : visits.IsChain fun v w ↦ v.next ≠ 0 ∧ w.cursor = v.next)
    (hends : ∀ v ∈ visits.getLast?, v.next = 0) (hbetween : visits.IsChain Between)
    (hlast : ∀ v ∈ visits, Ahead v → v.next = 0 → y ∈ v.returned)
    (hstep : ∀ v ∈ visits, ∀ w, Between v w → w.cursor = v.next → v.next ≠ 0 → Ahead v →
      y ∉ v.returned → Ahead w) (hahead : ∃ v ∈ visits.head?, Ahead v) :
    y ∈ visits.flatMap Visit.returned := by
  induction visits with
  | nil => simp at hahead
  | cons v rest ih =>
    obtain ⟨_, hv, hahead⟩ := hahead
    obtain rfl := Option.some.inj hv
    rw [List.flatMap_cons, List.mem_append]
    by_cases hin : y ∈ v.returned
    · exact Or.inl hin
    right
    cases rest with
    | nil => exact absurd (hlast v List.mem_cons_self hahead (hends v rfl)) hin
    | cons w rest =>
      rw [List.isChain_cons_cons] at hfollows hbetween
      refine ih (fun u hu ↦ hanswers u (List.mem_cons_of_mem _ hu)) hfollows.2 ?_ hbetween.2
        (fun u hu ↦ hlast u (List.mem_cons_of_mem _ hu))
        (fun u hu ↦ hstep u (List.mem_cons_of_mem _ hu)) ⟨w, rfl, ?_⟩
      · intro u hu
        exact hends u (by rwa [List.getLast?_cons_cons])
      · exact hstep v List.mem_cons_self w hbetween.1 hfollows.1.2 hfollows.1.1 hahead hin

/-- **What is ahead is returned.** `Between` is what is known of what happens between two pages. -/
theorem Iteration.mem_of_ahead (h : Iteration scan visits) (Ahead : Visit P β → Prop)
    (hbetween : visits.IsChain Between) (hfirst : ∀ v ∈ visits, v.cursor = 0 → Ahead v)
    (hlast : ∀ v ∈ visits, Ahead v → v.next = 0 → y ∈ v.returned)
    (hstep : ∀ v ∈ visits, ∀ w, Between v w → w.cursor = v.next → v.next ≠ 0 → Ahead v →
      y ∉ v.returned → Ahead w) : y ∈ visits.flatMap Visit.returned := by
  obtain ⟨v, hv, hzero⟩ := h.starts
  exact mem_of_ahead_head h.answers h.follows h.ends hbetween hlast hstep
    ⟨v, hv, hfirst v (List.mem_of_mem_head? hv) hzero⟩

end

/-! ### Cursors that are positions -/

/-- A page returns a stretch of the listing from its cursor on and leaves off after it, or with zero
if nothing is left. -/
def Positional (scan : P → ℕ → Except ε (ℕ × List β)) (listing : P → List α) (render : α → β) :
    Prop :=
  ∀ v : Visit P β, v.Answers scan →
    ∃ n, v.returned = (((listing v.page).drop v.cursor).take n).map render ∧
      (v.next = 0 → (listing v.page).length ≤ v.cursor + n) ∧ (v.next ≠ 0 → v.next = v.cursor + n)

/-- The element never falls behind the place where a page left off before it. -/
def Steady [BEq α] (listing : P → List α) (x : α) (visits : List (Visit P β)) : Prop :=
  visits.IsChain fun v w ↦
    v.next ≤ (listing v.page).idxOf x → v.next ≤ (listing w.page).idxOf x

section

variable {scan : P → ℕ → Except ε (ℕ × List β)} {listing : P → List α} {render : α → β}
variable {visits : List (Visit P β)}

theorem Iteration.exists_of_mem_returned (h : Iteration scan visits)
    (hscan : Positional scan listing render) {y : β} (hy : y ∈ visits.flatMap Visit.returned) :
    ∃ x, render x = y := by
  obtain ⟨v, hv, hyv⟩ := List.mem_flatMap.1 hy
  obtain ⟨n, hreturned, -⟩ := hscan v (h.answers v hv)
  rw [hreturned] at hyv
  obtain ⟨x, -, rfl⟩ := List.mem_map.1 hyv
  exact ⟨x, rfl⟩

variable [BEq α] [LawfulBEq α] {x : α}

theorem Positional.mem_or_le (hscan : Positional scan listing render) {v : Visit P β}
    (hv : v.Answers scan) (hx : x ∈ listing v.page) (hle : v.cursor ≤ (listing v.page).idxOf x) :
    render x ∈ v.returned ∨ v.next ≠ 0 ∧ v.next ≤ (listing v.page).idxOf x := by
  have hlt := List.idxOf_lt_length_of_mem hx
  obtain ⟨n, hreturned, hzero, hnext⟩ := hscan v hv
  by_cases hin : (listing v.page).idxOf x < v.cursor + n
  · left
    rw [hreturned]
    refine List.mem_map_of_mem (List.mem_iff_getElem?.2 ⟨(listing v.page).idxOf x - v.cursor, ?_⟩)
    rw [List.getElem?_take_of_lt (by omega), List.getElem?_drop, Nat.add_sub_cancel' hle,
      List.getElem?_eq_getElem hlt, List.getElem_idxOf]
  · right
    have hne : v.next ≠ 0 := by
      intro h0
      have hlength := hzero h0
      omega
    exact ⟨hne, by rw [hnext hne]; omega⟩

/-- **A steady element is returned.** -/
theorem Iteration.mem_of_steady (h : Iteration scan visits)
    (hscan : Positional scan listing render) (hstays : ∀ v ∈ visits, x ∈ listing v.page)
    (hsteady : Steady listing x visits) : render x ∈ visits.flatMap Visit.returned := by
  have hpage : ∀ v ∈ visits, v.cursor ≤ (listing v.page).idxOf x →
      render x ∈ v.returned ∨ v.next ≠ 0 ∧ v.next ≤ (listing v.page).idxOf x := fun v hv ↦
    hscan.mem_or_le (h.answers v hv) (hstays v hv)
  refine h.mem_of_ahead (fun v ↦ v.cursor ≤ (listing v.page).idxOf x) hsteady ?_ ?_ ?_
  · intro v _ hzero
    rw [hzero]
    exact Nat.zero_le _
  · intro v hv hahead hzero
    exact (hpage v hv hahead).resolve_right fun hmore ↦ hmore.1 hzero
  · intro v hv w hbetween hcursor _ hahead hnot
    rw [hcursor]
    exact hbetween ((hpage v hv hahead).resolve_left hnot).2

end

end Paging
