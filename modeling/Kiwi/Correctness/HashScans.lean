import Kiwi.Correctness.MemberScans
import Kiwi.Storage.Hashes

/-!
# Scans of hashes by several clients

`hscan` remembers the field at which the next page starts in a table that all clients share. Its key
is the pattern and the cursor, and the cursor is the sum of the counts so far, so two clients that
scan the same hash meet under one key as soon as their counts add up alike. When fields have been
deleted in between, the second one leaves a later field there than the first one has read up to, and
the first one goes on from that field (`hscan_resumes_too_late`).

`hscan_returns_present_fields` is about the pages of one client, between which anything may happen
to the database and to the table: a field that is there all the time and matches is returned,
provided that the client never resumes after the field its own last page left in the table, nor
before the literal prefix of its pattern, and that the sum of the counts is a `u64`.
-/

namespace Kiwi.HashScans

open Hashes Paging
open MemberScans (Page twoPages iteration_twoPages)

variable {S : Type} [LinearOrder S] {key : Bytes} {pattern : Option Bytes}

/-! ### Fields in the order of their keys -/

theorem replicate_lt_append (n : ℕ) {g : Bytes} (hg : g ≠ []) :
    List.replicate n 0 < g ++ List.replicate n 0 := by
  induction n generalizing g with
  | zero =>
    obtain ⟨b, g, rfl⟩ := List.exists_cons_of_ne_nil hg
    exact List.nil_lt_cons _ _
  | succ n ih =>
    obtain ⟨b, g, rfl⟩ := List.exists_cons_of_ne_nil hg
    rw [List.replicate_succ, List.cons_append, List.cons_lt_cons_iff]
    rcases eq_or_ne b 0 with rfl | hb
    · refine Or.inr ⟨rfl, ?_⟩
      have hshift : g ++ 0 :: List.replicate n 0 = (g ++ [0]) ++ List.replicate n 0 := by simp
      rw [hshift]
      exact ih (by simp)
    · exact Or.inl (UInt8.pos_iff_ne_zero.2 hb)

theorem suffixed_lt_suffixed {f g : Bytes} (h : f < g) : suffixed f < suffixed g := by
  unfold suffixed
  induction f generalizing g with
  | nil => exact replicate_lt_append 16 fun hg ↦ lt_irrefl _ (hg ▸ h)
  | cons a f ih =>
    cases g with
    | nil => exact absurd h (List.not_lt_nil _)
    | cons b g =>
      rw [List.cons_append, List.cons_append, List.cons_lt_cons_iff]
      rcases List.cons_lt_cons_iff.1 h with hlt | ⟨rfl, hlt⟩
      · exact Or.inl hlt
      · exact Or.inr ⟨rfl, ih hlt⟩

theorem le_suffixed (f : Bytes) : f ≤ suffixed f := by
  rw [← not_lt]
  exact List.le_append_left

/-- What lies between a text and something that starts with it starts with it too. -/
theorem isPrefix_of_le_of_le {literal x y : Bytes} (hle : literal ≤ x) (hxy : x ≤ y)
    (hy : literal <+: y) : literal <+: x := by
  induction literal generalizing x y with
  | nil => exact List.nil_prefix
  | cons a literal ih =>
    obtain ⟨y, rfl, htail⟩ : ∃ y', y = a :: y' ∧ literal <+: y' := by
      obtain ⟨t, rfl⟩ := hy
      exact ⟨literal ++ t, rfl, List.prefix_append _ _⟩
    cases x with
    | nil => exact absurd hle (not_le.2 (List.nil_lt_cons _ _))
    | cons b x =>
      rw [← not_lt, List.cons_lt_cons_iff, not_or, not_and] at hle hxy
      obtain rfl : b = a := le_antisymm (not_lt.1 hxy.1) (not_lt.1 hle.1)
      exact (List.prefix_cons_inj _).2 (ih (not_lt.1 (hle.2 rfl)) (not_lt.1 (hxy.2 rfl)) htail)

/-! ### Patterns with a literal prefix -/

/-- The fields that a client asks for. -/
def Matches (pattern : Option Bytes) (field : Bytes) : Prop :=
  ∀ p ∈ pattern, Glob.matchesPattern p field = true

variable {literal : Bytes}

theorem isPrefix_of_matchLoop
    (hliteral : ∀ b ∈ literal, b ∉ [(0x2A : UInt8), 0x3F, 0x5B, 0x5D, 0x5C]) {fuel : ℕ}
    {rest text : Bytes} (h : Glob.matchLoop fuel (literal ++ rest) text none = true) :
    literal <+: text := by
  induction literal generalizing fuel text with
  | nil => exact List.nil_prefix
  | cons c literal ih =>
    have hc := hliteral c List.mem_cons_self
    simp only [List.mem_cons, List.not_mem_nil, or_false, not_or] at hc
    obtain ⟨hstar, hquestion, hopen, -, hescape⟩ := hc
    cases fuel with
    | zero => cases h
    | succ fuel =>
      cases text with
      | nil => simp [Glob.matchLoop, Glob.skipStars, hstar] at h
      | cons t text =>
        have htoken : Glob.tokenMatches t (c :: (literal ++ rest)) =
            if t = c then some (literal ++ rest) else none := by
          unfold Glob.tokenMatches
          split <;> simp_all
        rw [List.cons_append, Glob.matchLoop, htoken] at h
        by_cases htc : t = c
        · subst htc
          simp only [List.head?_cons, Option.some.injEq, hstar, if_false, if_true] at h
          exact (List.prefix_cons_inj _).2 (ih (fun b hb ↦ hliteral b (List.mem_cons_of_mem _ hb)) h)
        · simp [hstar, htc] at h

variable {field : Bytes}

theorem isPrefix_of_matches (h : Matches pattern field) :
    literalPrefix pattern <+: suffixed field := by
  rcases pattern with _ | p
  · exact List.nil_prefix
  have hmatch := h p rfl
  rw [literalPrefix, Option.bind_some, tailWildcardPrefix]
  split_ifs with hshape hspecial
  · exact List.nil_prefix
  · exact List.nil_prefix
  · rw [not_or, not_lt, not_not] at hshape
    rw [Option.getD_some]
    have hsplit : p = p.dropLast ++ [0x2A] := (List.dropLast_append_getLast? _ hshape.2).symm
    rw [Glob.matchesPattern, Bool.or_eq_true] at hmatch
    rcases hmatch with hstar | hglob
    · -- the pattern `*` alone has no literal prefix
      rw [beq_iff_eq.1 hstar] at hshape
      exact absurd hshape.1 (by decide)
    · rw [Glob.globMatchBytes] at hglob
      split_ifs at hglob with hempty
      · rw [List.isEmpty_iff.1 hglob] at hshape
        exact absurd hshape.1 (by decide)
      · generalize (field.length + 2) * _ = fuel at hglob
        rw [hsplit] at hglob
        refine (isPrefix_of_matchLoop (fun b hb hin ↦ ?_) hglob).trans (List.prefix_append _ _)
        exact hspecial (List.any_eq_true.2 ⟨b, hb, by simpa using hin⟩)

/-! ### One page -/

variable {r : Bytes × Bytes}

variable {rows : List (Bytes × Bytes)}

/-- The loop takes a row, or leaves a row that is not after it, if every row up to it has the
prefix. -/
theorem mem_scanLoop (hsorted : rows.Pairwise fun a b ↦ a.1 < b.1) (hr : r ∈ rows)
    (hbegins : ∀ a ∈ rows, a.1 ≤ r.1 → literal <+: suffixed a.1) (size : ℕ) :
    r ∈ (scanLoop literal size rows).1 ∨
      ∃ a ∈ (scanLoop literal size rows).2.head?, literal <+: suffixed a.1 ∧ a.1 ≤ r.1 := by
  induction size generalizing rows with
  | zero =>
    cases rows with
    | nil => cases hr
    | cons a rows =>
      have hle : a.1 ≤ r.1 := by
        rcases List.mem_cons.1 hr with rfl | hr
        · exact le_rfl
        · exact ((List.pairwise_cons.1 hsorted).1 r hr).le
      exact Or.inr ⟨a, rfl, hbegins a List.mem_cons_self hle, hle⟩
  | succ size ih =>
    cases rows with
    | nil => cases hr
    | cons a rows =>
      obtain ⟨hfirst, hrest⟩ := List.pairwise_cons.1 hsorted
      have hle : a.1 ≤ r.1 := by
        rcases List.mem_cons.1 hr with rfl | hr
        · exact le_rfl
        · exact (hfirst r hr).le
      rw [scanLoop, if_pos (List.isPrefixOf_iff_prefix.2 (hbegins a List.mem_cons_self hle))]
      rcases List.mem_cons.1 hr with rfl | hr
      · exact Or.inl List.mem_cons_self
      · refine (ih hrest hr fun b hb ↦ hbegins b (List.mem_cons_of_mem _ hb)).imp_left ?_
        exact List.mem_cons_of_mem _

/-- A page of `hscan`, with the fields that it returns. -/
def hscanPage (key : Bytes) (pattern : Option Bytes) (p : Page S) (cursor : ℕ) :
    Except Error (ℕ × List Bytes) :=
  ((hscan key cursor pattern p.count p.now).exec p.db).1.map fun r ↦ (r.1, r.2.map Prod.fst)

/-- The fields of the hash at the time of a page. -/
def hashFields (key : Bytes) (p : Page S) : List Bytes :=
  match p.db.baseMeta .hash key p.now with
  | .ok (some m) => (DataKey.rowsAt p.db.hashesDataCF key m.version).map Prod.fst
  | _ => []

/-- Where a page starts. -/
def startOf (key : Bytes) (pattern : Option Bytes) (v : Visit (Page S) Bytes) : Bytes :=
  startPoint v.page.db key v.cursor pattern

/-- The field that a page leaves in the table under the cursor it returns. -/
def leaves (key : Bytes) (pattern : Option Bytes) (v : Visit (Page S) Bytes) : Option Bytes :=
  ((hscan key v.cursor pattern v.page.count v.page.now).exec v.page.db).2.scanCursorsStore.get
    (scanIndexKey .hash key (pattern.getD []) v.next)

variable {db : Redis S}

open Program in
theorem exec_hscan {now : ℕ} {m : BaseMetaValue}
    (hm : db.baseMeta .hash key now = .ok (some m)) (cursor : ℕ) (count : Option ℕ) :
    (hscan key cursor pattern count now).exec db =
      (scanPage key pattern (pageSize count) (nextCursor cursor count)
        (scanRows db key m.version cursor pattern)).exec db := by
  rw [hscan, exec_get_bind, hm, exec_lift_ok_bind]

theorem mem_scanPage_fields {taken : List (Bytes × Bytes)} (hr : r ∈ taken)
    (hmatch : Matches pattern r.1) :
    r ∈ taken.filter fun r ↦
      match pattern with
      | none => true
      | some pattern => Glob.matchesPattern pattern r.1 := by
  refine List.mem_filter.2 ⟨hr, ?_⟩
  rcases pattern with _ | p
  · rfl
  · exact hmatch p rfl

theorem exec_scanPage_of_more (key : Bytes) {size next : ℕ} {a : Bytes × Bytes}
    (ha : a ∈ (scanLoop (literalPrefix pattern) size rows).2.head?)
    (hbegins : literalPrefix pattern <+: suffixed a.1) (db : Redis S) :
    ∃ found, ((scanPage key pattern size next rows).exec db).1 = .ok (next, found) ∧
      ((scanPage key pattern size next rows).exec db).2.scanCursorsStore.get
        (scanIndexKey .hash key (pattern.getD []) next) = some a.1 := by
  have hfilter : ((scanLoop (literalPrefix pattern) size rows).2.head?.filter fun r ↦
      (literalPrefix pattern).isPrefixOf (suffixed r.1)) = some a :=
    Option.filter_eq_some_iff.2 ⟨ha, List.isPrefixOf_iff_prefix.2 hbegins⟩
  simp only [scanPage, hfilter]
  exact ⟨_, rfl, SortedMap.get_insert_self ..⟩

/-- Whether or not there is a next row, the fields are those of the rows that are taken. -/
theorem exec_scanPage_fields (key : Bytes) (size next : ℕ) (rows : List (Bytes × Bytes))
    (db : Redis S) :
    ∃ cursor, ((scanPage key pattern size next rows).exec db).1 =
      .ok (cursor, (scanLoop (literalPrefix pattern) size rows).1.filter fun r ↦
        match pattern with
        | none => true
        | some pattern => Glob.matchesPattern pattern r.1) := by
  rw [scanPage]
  dsimp only
  split
  · exact ⟨0, rfl⟩
  · exact ⟨next, rfl⟩

theorem mem_scanRows {version cursor : ℕ} :
    r ∈ scanRows db key version cursor pattern ↔
      r ∈ DataKey.rowsAt db.hashesDataCF key version ∧
        startPoint db key cursor pattern ≤ suffixed r.1 := by
  rw [scanRows, SortedMap.dropWhile_eq_filter ?_ (DataKey.sorted_rowsAt _ _ _), List.mem_filter]
  · simp
  · intro a b hab hb
    have hlt := suffixed_lt_suffixed hab
    simp only [decide_eq_true_eq] at hb ⊢
    exact hlt.trans hb

theorem sorted_scanRows (db : Redis S) (version cursor : ℕ) :
    (scanRows db key version cursor pattern).Pairwise fun a b ↦ a.1 < b.1 := by
  exact (DataKey.sorted_rowsAt _ _ _).sublist (List.dropWhile_sublist _)

/-- **One page.** A matching field from the start on is returned, or the page leaves a field that is
not after it. -/
theorem returned_or_leaves {v : Visit (Page S) Bytes} (hv : v.Answers (hscanPage key pattern))
    (hfits : v.cursor + v.page.count.getD 10 < 2 ^ 64)
    (hfield : field ∈ hashFields key v.page) (hmatch : Matches pattern field)
    (hliteral : literalPrefix pattern ≤ startOf key pattern v)
    (hstart : startOf key pattern v ≤ suffixed field) :
    field ∈ v.returned ∨ v.next ≠ 0 ∧ ∃ g, leaves key pattern v = some g ∧ g ≤ field := by
  obtain ⟨p, cursor, next, returned⟩ := v
  rw [hashFields] at hfield
  rcases hm : p.db.baseMeta .hash key p.now with e | (_ | m)
  · rw [hm] at hfield
    cases hfield
  · rw [hm] at hfield
    cases hfield
  rw [hm] at hfield
  obtain ⟨r, hr, rfl⟩ := List.mem_map.1 hfield
  rw [Visit.Answers, hscanPage, exec_hscan hm] at hv
  rw [leaves, exec_hscan hm]
  have hnext : nextCursor cursor p.count ≠ 0 := by
    have hpos := p.one_le_count
    rw [nextCursor, wrapU64_of_lt hfits]
    show cursor + p.count.getD 10 ≠ 0
    omega
  have hrow : r ∈ scanRows p.db key m.version cursor pattern := mem_scanRows.2 ⟨hr, hstart⟩
  -- rows between the start and the field lie between the prefix and something that starts with it
  have hbegins : ∀ a ∈ scanRows p.db key m.version cursor pattern, a.1 ≤ r.1 →
      literalPrefix pattern <+: suffixed a.1 := by
    intro a ha hle
    refine isPrefix_of_le_of_le (hliteral.trans (mem_scanRows.1 ha).2) ?_
      (isPrefix_of_matches hmatch)
    rcases hle.lt_or_eq with hlt | heq
    · exact (suffixed_lt_suffixed hlt).le
    · rw [heq]
  generalize pageSize p.count = size at hv
  generalize nextCursor cursor p.count = next' at hv hnext
  rcases mem_scanLoop (sorted_scanRows ..) hrow hbegins size with htaken | ⟨a, ha, hap, hle⟩
  · -- the row is taken whatever comes after the page
    obtain ⟨cursor', hfields⟩ := exec_scanPage_fields key size next' _ p.db
    rw [hfields] at hv
    obtain ⟨-, hreturned⟩ := Prod.mk.inj (Except.ok.inj hv)
    left
    rw [← hreturned]
    exact List.mem_map_of_mem (mem_scanPage_fields htaken hmatch)
  · obtain ⟨found, hanswer, hleaves⟩ := exec_scanPage_of_more key ha hap p.db
    rw [hanswer] at hv
    obtain ⟨hcursor, -⟩ := Prod.mk.inj (Except.ok.inj hv)
    right
    dsimp only at hcursor ⊢
    rw [← hcursor]
    exact ⟨hnext, a.1, hleaves, hle⟩

/-! ### Whole scans -/

theorem startPoint_zero : startPoint db key 0 pattern = literalPrefix pattern := by
  rw [startPoint]
  simp

/-- The client never resumes after the field that its own last page left in the table, nor before
the literal prefix of its pattern. -/
def Resumes (key : Bytes) (pattern : Option Bytes) (visits : List (Visit (Page S) Bytes)) : Prop :=
  visits.IsChain fun v w ↦ ∀ g, leaves key pattern v = some g →
    literalPrefix pattern ≤ startOf key pattern w ∧ startOf key pattern w ≤ g

/-- **What a whole scan returns**, whatever other clients do to the hash and to the table of cursors
between its pages: a field that is there at the time of every page and matches the pattern is
returned, if the client resumes where it left off or before, and the sum of its counts is a `u64`.
-/
theorem hscan_returns_present_fields (key : Bytes) (pattern : Option Bytes)
    (visits : List (Visit (Page S) Bytes)) (h : Iteration (hscanPage key pattern) visits)
    (hfits : ∀ v ∈ visits, v.cursor + v.page.count.getD 10 < 2 ^ 64)
    (hresumes : Resumes key pattern visits) (field : Bytes)
    (hstays : ∀ v ∈ visits, field ∈ hashFields key v.page) (hmatch : Matches pattern field) :
    field ∈ visits.flatMap Visit.returned := by
  have hpage : ∀ v ∈ visits, literalPrefix pattern ≤ startOf key pattern v ∧
      startOf key pattern v ≤ suffixed field → field ∈ v.returned ∨
        v.next ≠ 0 ∧ ∃ g, leaves key pattern v = some g ∧ g ≤ field := by
    rintro v hv ⟨hliteral, hstart⟩
    exact returned_or_leaves (h.answers v hv) (hfits v hv) (hstays v hv) hmatch hliteral hstart
  refine h.mem_of_ahead (fun v ↦ literalPrefix pattern ≤ startOf key pattern v ∧
    startOf key pattern v ≤ suffixed field) hresumes ?_ ?_ ?_
  · intro v _ hzero
    rw [startOf, hzero, startPoint_zero]
    refine ⟨le_rfl, not_lt.1 ?_⟩
    exact (isPrefix_of_matches hmatch).le
  · intro v hv hahead hzero
    exact (hpage v hv hahead).resolve_right fun hmore ↦ hmore.1 hzero
  · intro v hv w hbetween _ _ hahead hnot
    obtain ⟨-, g, hleaves, hle⟩ := (hpage v hv hahead).resolve_left hnot
    obtain ⟨hliteral, hstart⟩ := hbetween g hleaves
    exact ⟨hliteral, hstart.trans (hle.trans (le_suffixed field))⟩

/-! ### Two clients -/

/-- The hash with the fields `a`, `b` and `c`. -/
def threeFields : Redis ℤ :=
  ((hmset [1] [([97], [1]), ([98], [2]), ([99], [3])] 1).exec .empty).2

/-- After the first page of a client, which has one field. -/
def firstPage (db : Redis ℤ) : Redis ℤ := ((hscan [1] 0 none (some 1) 5).exec db).2

/-- The two pages of the client. The second one meets the given database. -/
def clientPages (db : Redis ℤ) (rest : List Bytes) : List (Visit (Page ℤ) Bytes) :=
  twoPages threeFields db [[97]] rest

/-- Between the pages a field is deleted. -/
def fieldDeleted : Redis ℤ := ((hdel [1] [[97]] 5).exec (firstPage threeFields)).2

/-- The client goes on from where it left off. -/
theorem hscan_returns_second_field :
    Iteration (hscanPage [1] none) (clientPages fieldDeleted [[98], [99]]) ∧
      [98] ∈ (clientPages fieldDeleted [[98], [99]]).flatMap Visit.returned := by
  have h : Iteration (hscanPage [1] none) (clientPages fieldDeleted [[98], [99]]) :=
    iteration_twoPages (by decide +kernel)
  refine ⟨h, hscan_returns_present_fields [1] none _ h (by decide +kernel) ?_ [98]
    (by decide +kernel) nofun⟩
  refine List.isChain_cons_cons.2 ⟨fun g hg ↦ ?_, List.isChain_singleton _⟩
  have hleaves : leaves [1] none (⟨⟨threeFields, some 1, 5, by simp⟩, 0, 1, [[97]]⟩ :
      Visit (Page ℤ) Bytes) = some [98] := by decide +kernel
  obtain rfl := Option.some.inj (hleaves.symm.trans hg)
  decide +kernel

/-- **The client resumes too late**: after its first page a field is deleted and another client
takes its own first page. That leaves `c` in the table where the client expects `b`, which it never
returns although it was there all the time. -/
theorem hscan_resumes_too_late :
    Iteration (hscanPage [1] none) (clientPages (firstPage fieldDeleted) [[99]]) ∧
      (∀ v ∈ clientPages (firstPage fieldDeleted) [[99]], [98] ∈ hashFields [1] v.page) ∧
      [98] ∉ (clientPages (firstPage fieldDeleted) [[99]]).flatMap Visit.returned :=
  ⟨iteration_twoPages (by decide +kernel), by decide +kernel, by decide +kernel⟩

end Kiwi.HashScans
