import Kiwi.Lib.Paging
import Kiwi.Storage.Sets
import Kiwi.Storage.Zsets

/-!
# Scans of sets and zsets

The cursors of `sscan` and `zscan` are positions: in the members in byte order, and in the rows by
score. When a member that was returned is removed between two pages, every later member moves one
position to the front, and the one that moves across the cursor is passed over
(`scans_pass_over_members`). A member to which this does not happen is returned by `sscan`, and by
`zscan` as text, so byte for byte if and only if it is text.
-/

namespace Kiwi.MemberScans

open Paging

variable {S : Type} [Score S] {key : Bytes} {pattern : Option Bytes}

/-- What a page meets: the database at its time, its count and the clock. -/
structure Page (S : Type) [LinearOrder S] where
  db : Redis S
  /-- `COUNT`, which is positive if it is given. -/
  count : Option ℕ
  now : ℕ
  /-- A count of zero is refused before the call. -/
  pos : ∀ n ∈ count, 0 < n

/-- A pattern that matches everything. -/
def MatchAll (pattern : Option Bytes) : Prop := pattern = none ∨ pattern = some [0x2A]

/-! ### `sscan` -/

/-- A page of `sscan`. -/
def sscanPage (key : Bytes) (pattern : Option Bytes) (p : Page S) (cursor : ℕ) :
    Except Error (ℕ × List Bytes) :=
  Sets.sscan p.db key cursor pattern p.count p.now

/-- The members of the set at the time of a page, in byte order. -/
def setMembers (key : Bytes) (p : Page S) : List Bytes :=
  match p.db.baseMeta .set key p.now with
  | .ok (some m) => Sets.membersAt p.db key m.version
  | _ => []

theorem Page.one_le_count {T : Type} [LinearOrder T] (p : Page T) : 1 ≤ p.count.getD 10 := by
  have hpos := p.pos
  rcases hcount : p.count with _ | n
  · decide
  · exact hpos n hcount

theorem positional_sscan (hpattern : MatchAll pattern) :
    Positional (sscanPage (S := S) key pattern) (setMembers key) id := by
  rintro ⟨p, cursor, next, returned⟩ h
  rw [Visit.Answers, sscanPage, Sets.sscan, Redis.validMeta_eq_baseMeta] at h
  rw [setMembers]
  rcases hm : p.db.baseMeta .set key p.now with e | (_ | m)
  · rw [hm] at h
    cases h
  · rw [hm] at h
    obtain ⟨rfl, rfl⟩ := Prod.mk.inj (Except.ok.inj h)
    exact ⟨0, rfl, fun _ ↦ Nat.zero_le _, fun hne ↦ absurd rfl hne⟩
  rw [hm, Program.except_ok_bind] at h
  dsimp only at h ⊢
  have hcount := p.one_le_count
  generalize Sets.membersAt p.db key m.version = all at h
  by_cases hlt : cursor < all.length
  · rw [if_pos hlt] at h
    by_cases hwrap : 2 ^ 64 ≤ cursor + p.count.getD 10
    · -- the page panics, so it does not answer
      rw [if_pos hwrap] at h
      cases h
    rw [if_neg hwrap] at h
    obtain ⟨rfl, rfl⟩ := Prod.mk.inj (Except.ok.inj h)
    refine ⟨min (cursor + p.count.getD 10) all.length - cursor, ?_, fun h0 ↦ ?_, fun hne ↦ ?_⟩
    · refine Eq.trans ?_ (List.map_id _).symm
      rcases hpattern with rfl | rfl <;> exact List.filter_eq_self.2 fun _ _ ↦ rfl
    · by_contra hmore
      rw [if_pos (by omega)] at h0
      omega
    · by_cases hmore : min (cursor + p.count.getD 10) all.length < all.length
      · rw [if_pos hmore]
        omega
      · exact absurd (if_neg hmore) hne
  · rw [if_neg hlt] at h
    obtain ⟨rfl, rfl⟩ := Prod.mk.inj (Except.ok.inj h)
    exact ⟨0, rfl, fun _ ↦ by omega, fun hne ↦ absurd rfl hne⟩

/-! ### `zscan` -/

/-- A page of `zscan`, with the members that it returns. -/
def zscanPage (key : Bytes) (pattern : Option Bytes) (p : Page S) (cursor : ℕ) :
    Except Error (ℕ × List Bytes) :=
  (Zsets.zscan p.db key cursor pattern p.count p.now).map fun r ↦ (r.1, r.2.map Prod.fst)

/-- The members of the zset at the time of a page, in the order of their scores. -/
def zsetMembers (key : Bytes) (p : Page S) : List Bytes :=
  match p.db.baseMeta .zset key p.now with
  | .ok (some m) => (Zsets.scoreRows p.db key m.version).map Zsets.ScoreMember.member
  | _ => []

theorem getLast?_take_drop_zipIdx {α : Type} {xs : List α} {cursor size : ℕ} (hsize : 0 < size)
    (hfull : cursor + size ≤ xs.length) :
    (((xs.zipIdx.drop cursor).take size).getLast?.map fun p ↦ p.2 + 1) = some (cursor + size) := by
  have hlast : cursor + (size - 1) < xs.length := by omega
  have hlength : ((xs.zipIdx.drop cursor).take size).length = size := by
    rw [List.length_take, List.length_drop, List.length_zipIdx]
    omega
  rw [List.getLast?_eq_getElem?, hlength, List.getElem?_take_of_lt (by omega), List.getElem?_drop,
    List.getElem?_zipIdx, List.getElem?_eq_getElem hlast]
  simp only [Option.map_some, Option.some.injEq]
  omega

/-- Without a pattern the members are not filtered, and with `*` the filter keeps them all. -/
theorem matchesText_of_matchAll (hpattern : MatchAll pattern) (member : Bytes) :
    Zsets.matchesText pattern member = .ok true := by
  rcases hpattern with rfl | rfl
  · rfl
  · simp [Zsets.matchesText, Zsets.utf8Chars, utf8Step, utf8CharWidth, Zsets.globMatch]

omit [Score S] in
theorem fillPage_of_matchAll (hpattern : MatchAll pattern) {size : ℕ} (hsize : 1 ≤ size)
    (rows : List (Zsets.ScoreMember S × ℕ)) :
    Zsets.fillPage pattern size rows = .ok (rows.take size) := by
  induction rows generalizing size with
  | nil => rw [Zsets.fillPage, List.take_nil]
  | cons row rows ih =>
    rw [Zsets.fillPage, matchesText_of_matchAll hpattern, Program.except_ok_bind, if_pos rfl]
    by_cases hone : size ≤ 1
    · obtain rfl : size = 1 := le_antisymm hone hsize
      rfl
    · rw [if_neg hone, ih (by omega)]
      obtain ⟨n, rfl⟩ : ∃ n, size = n + 1 := ⟨size - 1, by omega⟩
      rfl

theorem positional_zscan (hpattern : MatchAll pattern) :
    Positional (zscanPage (S := S) key pattern) (zsetMembers key) fromUtf8Lossy := by
  rintro ⟨p, cursor, next, returned⟩ h
  rw [Visit.Answers, zscanPage, Zsets.zscan, Redis.validMeta_eq_baseMeta] at h
  rw [zsetMembers]
  rcases hm : p.db.baseMeta .zset key p.now with e | (_ | m)
  · rw [hm] at h
    cases h
  · rw [hm] at h
    obtain ⟨rfl, rfl⟩ := Prod.mk.inj (Except.ok.inj h)
    exact ⟨0, rfl, fun _ ↦ Nat.zero_le _, fun hne ↦ absurd rfl hne⟩
  rw [hm, Program.except_ok_bind] at h
  dsimp only at h ⊢
  have hcount := p.one_le_count
  generalize Zsets.scoreRows p.db key m.version = rows at h
  rw [max_eq_left hcount, fillPage_of_matchAll hpattern hcount, Program.except_ok_bind] at h
  generalize p.count.getD 10 = size at h hcount
  obtain ⟨rfl, rfl⟩ := Prod.mk.inj (Except.ok.inj h)
  have hlength : ((rows.zipIdx.drop cursor).take size).length = min size (rows.length - cursor) := by
    rw [List.length_take, List.length_drop, List.length_zipIdx]
  refine ⟨size, ?_, ?_⟩
  · -- the positions that `zscan` carries along are not returned
    rw [List.map_map, ← List.map_drop, ← List.map_take, List.map_map, ← List.zipIdx_map_fst 0 rows]
    simp only [← List.map_drop, ← List.map_take, List.map_map]
    simp only [List.zipIdx_map_fst]
    rfl
  · rw [List.length_map]
    dsimp only
    split_ifs with hshort
    · exact ⟨fun _ ↦ by omega, fun hne ↦ absurd rfl hne⟩
    · rw [getLast?_take_drop_zipIdx hcount (by omega), Option.getD_some]
      exact ⟨fun h0 ↦ by omega, fun _ ↦ rfl⟩

/-! ### Whole scans -/

/-- **What a whole scan returns.** Whatever happens to the set or zset between the pages, with any
positive counts and no pattern or `*`: a member that is there at the time of every page and never
falls behind the place where a page left off before it is returned by `sscan`; by `zscan` it is
returned byte for byte if and only if it is well-formed text. -/
theorem scans_return_steady_members (key : Bytes) (pattern : Option Bytes)
    (hpattern : MatchAll pattern) (x : Bytes) :
    (∀ visits, Iteration (sscanPage (S := S) key pattern) visits →
      (∀ v ∈ visits, x ∈ setMembers key v.page) → Steady (setMembers key) x visits →
        x ∈ visits.flatMap Visit.returned) ∧
      ∀ visits, Iteration (zscanPage (S := S) key pattern) visits →
        (∀ v ∈ visits, x ∈ zsetMembers key v.page) → Steady (zsetMembers key) x visits →
          (x ∈ visits.flatMap Visit.returned ↔ isUtf8 x = true) := by
  constructor
  · intro visits h hstays hsteady
    exact h.mem_of_steady (positional_sscan hpattern) hstays hsteady
  · intro visits h hstays hsteady
    constructor
    · intro hx
      obtain ⟨y, rfl⟩ := h.exists_of_mem_returned (positional_zscan hpattern) hx
      exact isUtf8_fromUtf8Lossy y
    · intro htext
      have hreturned := h.mem_of_steady (positional_zscan hpattern) hstays hsteady
      rwa [fromUtf8Lossy_of_isUtf8 htext] at hreturned

/-- A page of one element, and one of the rest. -/
def twoPages (db db' : Redis ℤ) (returned returned' : List Bytes) : List (Visit (Page ℤ) Bytes) :=
  [⟨⟨db, some 1, 5, by simp⟩, 0, 1, returned⟩, ⟨⟨db', none, 6, by simp⟩, 1, 0, returned'⟩]

/-- Two pages are a whole scan if they answer so. -/
theorem iteration_twoPages {scan : Page ℤ → ℕ → Except Error (ℕ × List Bytes)} {db db' : Redis ℤ}
    {returned returned' : List Bytes} (h : ∀ v ∈ twoPages db db' returned returned',
      (scan v.page v.cursor).toOption = some (v.next, v.returned)) :
    Iteration scan (twoPages db db' returned returned') where
  answers v hv := by
    have hv := h v hv
    rcases hs : scan v.page v.cursor with e | r
    · rw [hs] at hv
      cases hv
    · rw [hs] at hv
      exact hs.trans (congrArg Except.ok (Option.some.inj hv))
  starts := ⟨_, rfl, rfl⟩
  follows := List.isChain_cons_cons.2 ⟨⟨Nat.one_ne_zero, rfl⟩, List.isChain_singleton _⟩
  ends v hv := by
    obtain rfl := Option.some.inj hv
    rfl

/-- The set `{a, b}`. -/
def pairSet : Redis ℤ := ((Sets.sadd [1] [[97], [98]] 1).exec .empty).2

/-- The zset with `a` before `b`. -/
def pairZset : Redis ℤ := ((Zsets.zadd [1] [⟨1, [97]⟩, ⟨2, [98]⟩] 1).exec .empty).2

/-- A scan during which a member is added before the others. -/
def addedBefore : List (Visit (Page ℤ) Bytes) :=
  twoPages pairSet ((Sets.sadd [1] [[48]] 2).exec pairSet).2 [[97]] [[97], [98]]

/-- A scan during which a member is added at the end. -/
def addedAfter : List (Visit (Page ℤ) Bytes) :=
  twoPages pairZset ((Zsets.zadd [1] [⟨3, [99]⟩] 2).exec pairZset).2 [[97]] [[98], [99]]

/-- The second of two members is returned, whether others are added before or after it. -/
theorem scans_return_second :
    Iteration (sscanPage [1] none) addedBefore ∧ [98] ∈ addedBefore.flatMap Visit.returned ∧
      Iteration (zscanPage [1] none) addedAfter ∧ [98] ∈ addedAfter.flatMap Visit.returned := by
  have hset : Iteration (sscanPage [1] none) addedBefore := iteration_twoPages (by decide +kernel)
  have hzset : Iteration (zscanPage [1] none) addedAfter := iteration_twoPages (by decide +kernel)
  obtain ⟨hsscan, hzscan⟩ := scans_return_steady_members (S := ℤ) [1] none (Or.inl rfl) [98]
  refine ⟨hset, hsscan _ hset (by decide +kernel) ?_, hzset,
    (hzscan _ hzset (by decide +kernel) ?_).2 (by decide)⟩
  · exact List.isChain_cons_cons.2 ⟨by decide +kernel, List.isChain_singleton _⟩
  · exact List.isChain_cons_cons.2 ⟨by decide +kernel, List.isChain_singleton _⟩

/-- A scan during which the member that was returned is removed. -/
def removedBefore : List (Visit (Page ℤ) Bytes) :=
  twoPages ((Sets.sadd [1] [[99]] 2).exec pairSet).2
    ((Sets.srem [1] [[97]] 4).exec ((Sets.sadd [1] [[99]] 2).exec pairSet).2).2 [[97]] [[99]]

/-- A zset with a member that is not text. -/
def notTextZset : Redis ℤ := ((Zsets.zadd [1] [⟨1, [97]⟩, ⟨2, [0xFF]⟩] 1).exec .empty).2

/-- **Members are passed over**: after `a` was returned and removed, the scan of `{a, b, c}` goes on
with `c`. **Members are replaced**: the scan of a zset returns a member that is not text as the
replacement character. -/
theorem scans_pass_over_members :
    Iteration (sscanPage [1] none) removedBefore ∧
      (∀ v ∈ removedBefore, [98] ∈ setMembers [1] v.page) ∧
      [98] ∉ removedBefore.flatMap Visit.returned ∧
      zsetMembers [1] ⟨notTextZset, none, 2, by simp⟩ = [[97], [0xFF]] ∧
      (zscanPage [1] none ⟨notTextZset, none, 2, by simp⟩ 0).toOption =
        some (0, [[97], [0xEF, 0xBF, 0xBD]]) :=
  ⟨iteration_twoPages (by decide +kernel), by decide +kernel, by decide +kernel,
    by decide +kernel, by decide +kernel⟩

end Kiwi.MemberScans
