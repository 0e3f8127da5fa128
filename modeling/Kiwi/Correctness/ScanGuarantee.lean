import Kiwi.Storage.Scan

/-!
# What a whole scan returns

A place in a scan is an instance and a key of it, and a `ScanCursorState` cuts the places in two:
those `Before` it have been passed. A page returns the wanted entries between the cut it starts from
and the cut it leaves (`Segment`), whatever the databases hold at the time of the page; and cuts
only move forward. So along a scan, from the cut before every place to one after every place, each
place is passed by exactly one page, and a key has only one place: the instance that its slot gives.

Nothing is assumed about what happens to the databases between two pages, nor about other scans that
take cursors meanwhile; only that the cursor of this scan is still in the table.
-/

namespace Kiwi.Scan

variable {typeFilter : Option DataType} {pattern : Bytes} {now : ℕ}

/-! ### Cuts -/

/-- The place has been passed. -/
def Before (s : ScanCursorState) (i : ℕ) (key : Bytes) : Prop :=
  i < s.instanceIndex ∨ i = s.instanceIndex ∧ ∃ k ∈ s.nextKey, key < k

theorem not_before_start (i : ℕ) (key : Bytes) : ¬Before ⟨0, none⟩ i key := by
  rintro (h | ⟨-, k, hk, -⟩)
  · exact absurd h (Nat.not_lt_zero i)
  · cases hk

/-! ### One instance -/

theorem mem_take_iff {rows : List (Bytes × MetaValue)} (h : rows.Pairwise fun a b ↦ a.1 < b.1)
    (limit : ℕ) (r : Bytes × MetaValue) :
    r ∈ rows.take limit ↔ r ∈ rows ∧ ∀ x ∈ (rows.drop limit).head?, r.1 < x.1 := by
  have hsplit : ((rows.take limit) ++ rows.drop limit).Pairwise fun a b ↦ a.1 < b.1 := by
    rwa [List.take_append_drop]
  obtain ⟨-, hrest, hlt⟩ := List.pairwise_append.1 hsplit
  constructor
  · intro hr
    exact ⟨List.mem_of_mem_take hr, fun x hx ↦ hlt r hr x (List.mem_of_mem_head? hx)⟩
  · rintro ⟨hr, hbefore⟩
    rw [← List.take_append_drop limit rows] at hr
    refine (List.mem_append.1 hr).resolve_right fun hdrop ↦ ?_
    rcases hd : rows.drop limit with _ | ⟨x, rest⟩
    · rw [hd] at hdrop
      cases hdrop
    · rw [hd] at hdrop hrest
      have hx := hbefore x (by rw [hd]; rfl)
      rcases List.mem_cons.1 hdrop with rfl | hmem
      · exact lt_irrefl _ hx
      · exact lt_asymm hx ((List.pairwise_cons.1 hrest).1 r hmem)

theorem entriesFrom_eq_filter (cf : MetaCF) (start : Option Bytes) :
    entriesFrom cf start = cf.rows.filter fun r ↦ start.all fun k ↦ !decide (r.1 < k) := by
  rcases start with _ | key
  · simp [entriesFrom]
  · rw [entriesFrom]
    simp only [Option.all_some]
    have hsorted := cf.sorted
    generalize cf.rows = rows at hsorted
    induction rows with
    | nil => rfl
    | cons r rest ih =>
      obtain ⟨hr, hrest⟩ := List.pairwise_cons.1 hsorted
      by_cases hlt : r.1 < key
      · rw [List.dropWhile_cons_of_pos (by simpa using hlt),
          List.filter_cons_of_neg (by simpa using hlt), ih hrest]
      · rw [List.dropWhile_cons_of_neg (by simpa using hlt)]
        refine (List.filter_eq_self.2 fun x hx ↦ ?_).symm
        simp only [Bool.not_eq_true', decide_eq_false_iff_not]
        rcases List.mem_cons.1 hx with rfl | hx
        · exact hlt
        · exact fun hxk ↦ hlt ((hr x hx).trans hxk)

variable {start : Option Bytes} {cf : MetaCF}

theorem mem_entriesFrom {r : Bytes × MetaValue} :
    r ∈ entriesFrom cf start ↔ cf.get r.1 = some r.2 ∧ ∀ k ∈ start, ¬r.1 < k := by
  rw [entriesFrom_eq_filter, List.mem_filter, SortedMap.get_eq_some_iff]
  refine and_congr_right fun _ ↦ ?_
  rcases start with _ | key <;> simp

theorem sorted_entriesFrom (cf : MetaCF) (start : Option Bytes) :
    (entriesFrom cf start).Pairwise fun a b ↦ a.1 < b.1 := by
  rw [entriesFrom_eq_filter]
  exact cf.sorted.filter _

variable {key : Bytes}

/-- **One page of an instance** returns what is wanted between its start and the key it stops at. -/
theorem mem_scanMeta {limit : ℕ} :
    key ∈ (scanMeta cf start limit typeFilter pattern now).keys ↔
      ∃ m, cf.get key = some m ∧ wanted typeFilter pattern now (key, m) = true ∧
        (∀ k ∈ start, ¬key < k) ∧
        ∀ k ∈ (scanMeta cf start limit typeFilter pattern now).nextKey, key < k := by
  have hnext : ∀ {P : Bytes → Prop},
      (∀ k ∈ (scanMeta cf start limit typeFilter pattern now).nextKey, P k) ↔
        ∀ x ∈ ((entriesFrom cf start).drop limit).head?, P x.1 := by
    intro P
    rw [scanMeta, scanLoop_nextKey]
    rcases ((entriesFrom cf start).drop limit).head? with _ | x <;> simp
  rw [hnext, scanMeta, scanLoop_keys, List.mem_map]
  constructor
  · rintro ⟨⟨_, m⟩, hr, rfl⟩
    obtain ⟨htake, hwanted⟩ := List.mem_filter.1 hr
    obtain ⟨hmem, hbefore⟩ := (mem_take_iff (sorted_entriesFrom cf start) limit _).1 htake
    obtain ⟨hget, hstart⟩ := mem_entriesFrom.1 hmem
    exact ⟨m, hget, hwanted, hstart, hbefore⟩
  · rintro ⟨m, hget, hwanted, hstart, hbefore⟩
    refine ⟨(key, m), List.mem_filter.2 ⟨?_, hwanted⟩, rfl⟩
    exact (mem_take_iff (sorted_entriesFrom cf start) limit _).2
      ⟨mem_entriesFrom.2 ⟨hget, hstart⟩, hbefore⟩

theorem nodup_scanMeta (cf : MetaCF) (start : Option Bytes) (limit : ℕ) :
    (scanMeta cf start limit typeFilter pattern now).keys.Nodup := by
  rw [scanMeta, scanLoop_keys]
  have hsorted : ((entriesFrom cf start).map Prod.fst).Pairwise (· < ·) :=
    List.pairwise_map.2 (sorted_entriesFrom cf start)
  refine (hsorted.imp fun h ↦ ne_of_lt h).sublist ?_
  exact (List.filter_sublist.trans (List.take_sublist _ _)).map _

/-- The key a page stops at is not before its start. -/
theorem not_nextKey_lt_start {limit : ℕ} {k k' : Bytes}
    (hk : k ∈ start) (hk' : k' ∈ (scanMeta cf start limit typeFilter pattern now).nextKey) :
    ¬k' < k := by
  rw [scanMeta, scanLoop_nextKey] at hk'
  obtain ⟨r, hr, rfl⟩ := Option.map_eq_some_iff.1 hk'
  exact (mem_entriesFrom.1 (List.mem_of_mem_drop (List.mem_of_mem_head? hr))).2 k hk

/-! ### One page -/

/-- An entry of an instance that a page returns if it passes it. -/
def WantedAt (typeFilter : Option DataType) (pattern : Bytes) (now : ℕ) (insts : List MetaCF)
    (i : ℕ) (key : Bytes) : Prop :=
  ∃ cf m, insts[i]? = some cf ∧ cf.get key = some m ∧
    wanted typeFilter pattern now (key, m) = true

/-- Every key is in the instance that its slot gives. -/
structure Routed (instanceNum : ℕ) (insts : List MetaCF) : Prop where
  length : insts.length = instanceNum
  home : ∀ {i cf key m}, insts[i]? = some cf → cf.get key = some m →
    instanceOf instanceNum key = i

/-- What a page returns between two cuts. -/
structure Segment (typeFilter : Option DataType) (pattern : Bytes) (now : ℕ) (insts : List MetaCF)
    (s s' : ScanCursorState) (keys : List Bytes) : Prop where
  /-- The wanted entries that are passed. -/
  mem_iff : ∀ key, key ∈ keys ↔ ∃ i, WantedAt typeFilter pattern now insts i key ∧
    ¬Before s i key ∧ Before s' i key
  nodup : keys.Nodup
  /-- Cuts move forward. -/
  mono : ∀ {i key}, Before s i key → Before s' i key

section Segment

variable {insts : List MetaCF} {instanceNum : ℕ} {s s' s'' : ScanCursorState}
variable {keys keys' : List Bytes}

theorem WantedAt.home {i : ℕ} (h : WantedAt typeFilter pattern now insts i key)
    (hrouted : Routed instanceNum insts) : instanceOf instanceNum key = i := by
  obtain ⟨cf, m, hcf, hget, -⟩ := h
  exact hrouted.home hcf hget

theorem Segment.refl (insts : List MetaCF) (s : ScanCursorState) :
    Segment typeFilter pattern now insts s s [] := by
  refine ⟨fun key ↦ iff_of_false List.not_mem_nil ?_, List.nodup_nil, id⟩
  rintro ⟨i, -, hnot, hbefore⟩
  exact hnot hbefore

theorem Segment.trans (h : Segment typeFilter pattern now insts s s' keys)
    (h' : Segment typeFilter pattern now insts s' s'' keys') (hrouted : Routed instanceNum insts) :
    Segment typeFilter pattern now insts s s'' (keys ++ keys') where
  mem_iff key := by
    rw [List.mem_append, h.mem_iff, h'.mem_iff]
    constructor
    · rintro (⟨i, hwanted, hnot, hbefore⟩ | ⟨i, hwanted, hnot, hbefore⟩)
      · exact ⟨i, hwanted, hnot, h'.mono hbefore⟩
      · exact ⟨i, hwanted, fun hs ↦ hnot (h.mono hs), hbefore⟩
    · rintro ⟨i, hwanted, hnot, hbefore⟩
      by_cases hmiddle : Before s' i key
      · exact Or.inl ⟨i, hwanted, hnot, hmiddle⟩
      · exact Or.inr ⟨i, hwanted, hmiddle, hbefore⟩
  nodup := by
    refine List.nodup_append.2 ⟨h.nodup, h'.nodup, ?_⟩
    rintro key hkey _ hkey' rfl
    -- the key has one place, and it is on both sides of the cut in the middle
    obtain ⟨i, hwanted, -, hbefore⟩ := (h.mem_iff key).1 hkey
    obtain ⟨j, hwanted', hnot, -⟩ := (h'.mem_iff key).1 hkey'
    obtain rfl := (hwanted.home hrouted).symm.trans (hwanted'.home hrouted)
    exact hnot hbefore
  mono hs := h'.mono (h.mono hs)

/-- Where the scan goes on after a page of one instance. -/
def stopAt (index : ℕ) : Option Bytes → ScanCursorState
  | some key => ⟨index, some key⟩
  | none => ⟨index + 1, none⟩

theorem passed_iff {index i : ℕ} {start next : Option Bytes} :
    (¬Before ⟨index, start⟩ i key ∧ Before (stopAt index next) i key) ↔
      i = index ∧ (∀ k ∈ start, ¬key < k) ∧ ∀ k ∈ next, key < k := by
  rcases next with _ | next
  · simp only [Before, stopAt, Option.mem_def, reduceCtorEq, false_and, exists_false, and_false,
      or_false, false_implies, implies_true, and_true, not_or, not_and, not_exists]
    constructor
    · rintro ⟨⟨hge, hstart⟩, hlt⟩
      obtain rfl : i = index := by omega
      exact ⟨rfl, hstart rfl⟩
    · rintro ⟨rfl, hstart⟩
      exact ⟨⟨lt_irrefl i, fun _ ↦ hstart⟩, Nat.lt_succ_self i⟩
  · simp only [Before, stopAt, Option.mem_def, Option.some.injEq, not_or, not_and, not_exists,
      forall_eq', exists_eq_left']
    constructor
    · rintro ⟨⟨hge, hstart⟩, hlt | ⟨rfl, hlt⟩⟩
      · exact absurd hlt hge
      · exact ⟨rfl, hstart rfl, hlt⟩
    · rintro ⟨rfl, hstart, hlt⟩
      exact ⟨⟨lt_irrefl i, fun _ ↦ hstart⟩, Or.inr ⟨rfl, hlt⟩⟩

theorem segment_scanMeta {index : ℕ} (hcf : insts[index]? = some cf)
    (start : Option Bytes) (limit : ℕ) :
    Segment typeFilter pattern now insts ⟨index, start⟩
      (stopAt index (scanMeta cf start limit typeFilter pattern now).nextKey)
      (scanMeta cf start limit typeFilter pattern now).keys where
  mem_iff key := by
    rw [mem_scanMeta]
    simp only [passed_iff]
    constructor
    · rintro ⟨m, hget, hwanted, hplace⟩
      exact ⟨index, ⟨cf, m, hcf, hget, hwanted⟩, rfl, hplace⟩
    · rintro ⟨i, ⟨cf', m, hcf', hget, hwanted⟩, rfl, hplace⟩
      obtain rfl := Option.some.inj (hcf.symm.trans hcf')
      exact ⟨m, hget, hwanted, hplace⟩
  nodup := nodup_scanMeta cf start limit
  mono {i key} hbefore := by
    rcases hnext : (scanMeta cf start limit typeFilter pattern now).nextKey with _ | next
    · rcases hbefore with hlt | ⟨rfl, -⟩
      · exact Or.inl (hlt.trans (Nat.lt_succ_self _))
      · exact Or.inl (Nat.lt_succ_self _)
    · rcases hbefore with hlt | ⟨rfl, k, hk, hlt⟩
      · exact Or.inl hlt
      · refine Or.inr ⟨rfl, next, rfl, hlt.trans_le (not_lt.1 ?_)⟩
        exact not_nextKey_lt_start hk hnext

/-- **The loop over the instances**, which are those of a storage from `index` on. -/
theorem segment_scanInstances (hrouted : Routed instanceNum insts) {rest : List MetaCF} {index : ℕ}
    (hrest : insts.drop index = rest) (nextKey : Option Bytes) (remaining : ℕ) :
    Segment typeFilter pattern now insts ⟨index, nextKey⟩
      (scanInstances typeFilter pattern now rest index nextKey remaining).2
      (scanInstances typeFilter pattern now rest index nextKey remaining).1 := by
  induction rest generalizing index nextKey remaining with
  | nil => exact .refl insts _
  | cons cf rest ih =>
    have hcf : insts[index]? = some cf := by
      rw [← Nat.add_zero index, ← List.getElem?_drop, hrest]
      rfl
    have hnext : insts.drop (index + 1) = rest := by
      rw [← List.drop_drop, hrest]
      rfl
    have hpage : Segment typeFilter pattern now insts ⟨index, nextKey⟩
        (stopAt index (scanMeta cf nextKey remaining typeFilter pattern now).nextKey)
        (scanMeta cf nextKey remaining typeFilter pattern now).keys :=
      segment_scanMeta hcf nextKey remaining
    rw [scanInstances]
    rcases hkey : (scanMeta cf nextKey remaining typeFilter pattern now).nextKey with _ | key
    · rw [hkey] at hpage
      dsimp only
      split_ifs
      · exact hpage
      · exact hpage.trans (ih hnext none _) hrouted
    · rw [hkey] at hpage
      exact hpage

end Segment

/-! ### Whole scans -/

/-- What a page meets: the instances and the table of cursors at its time, its count and the
clock. -/
structure Page where
  /-- The meta values of the instances. -/
  insts : List MetaCF
  table : CursorTable
  count : ℕ
  now : ℕ

/-- The call of a page. -/
def Page.scan (p : Page) (typeFilter : Option Bytes) (pattern : Bytes) (cursor : ℕ) :
    Except Error (ℕ × List Bytes × CursorTable) :=
  Scan.scan p.insts p.table cursor p.count typeFilter pattern p.now

variable {p : Page} {s : ScanCursorState} {keys : List Bytes}

/-- **One page** goes from the cut of its cursor to that of the cursor it returns. -/
theorem segment_scan {typeFilter : Option Bytes} {cursor cursor' instanceNum : ℕ}
    {table : CursorTable} (hrouted : Routed instanceNum p.insts)
    (h : p.scan typeFilter pattern cursor = .ok (cursor', keys, table))
    (hs : startOf p.table cursor = .ok s) :
    ∃ s', Segment (typeFilter.map parseScanType) pattern p.now p.insts s s' keys ∧
      (cursor' = 0 ∧ instanceNum ≤ s'.instanceIndex ∨
        cursor' ≠ 0 ∧ table.states.get cursor' = some s') := by
  have hsegment : Segment (typeFilter.map parseScanType) pattern p.now p.insts s _ _ :=
    segment_scanInstances hrouted rfl s.nextKey (max p.count 1)
  rw [Page.scan, scan, hs, Program.except_ok_bind] at h
  dsimp only at h
  split_ifs at h with hdone
  · obtain ⟨hcursor, hrest⟩ := Prod.ext_iff.1 (Except.ok.inj h)
    obtain rfl : _ = keys := congrArg Prod.fst hrest
    exact ⟨_, hsegment, Or.inl ⟨hcursor.symm, hrouted.length ▸ hdone⟩⟩
  · rw [remember] at h
    split_ifs at h
    · have h := Except.ok.inj h
      obtain ⟨hcursor, hrest⟩ := Prod.ext_iff.1 h
      obtain ⟨hkeys, htable⟩ := Prod.ext_iff.1 hrest
      dsimp only at hcursor hkeys htable
      obtain rfl := hkeys
      refine ⟨_, hsegment, Or.inr ⟨?_, ?_⟩⟩
      · rw [← hcursor]
        exact p.table.pos.ne'
      · rw [← htable, ← hcursor]
        exact SortedMap.get_insert_self ..
    · cases h

/-- The pages of a scan from a cursor to its end, with what they returned. The cursor that a page
returned is in the table when the next page asks for it. -/
inductive Follows (typeFilter : Option Bytes) (pattern : Bytes) :
    ℕ → List (Page × List Bytes) → Prop
  | last {cursor : ℕ} {page : Page} {keys : List Bytes} {table : CursorTable}
      (scan : page.scan typeFilter pattern cursor = .ok (0, keys, table)) :
      Follows typeFilter pattern cursor [(page, keys)]
  | more {cursor cursor' : ℕ} {page page' : Page} {keys keys' : List Bytes} {table : CursorTable}
      {rest : List (Page × List Bytes)}
      (scan : page.scan typeFilter pattern cursor = .ok (cursor', keys, table))
      (continues : cursor' ≠ 0)
      (kept : page'.table.states.get cursor' = table.states.get cursor')
      (tail : Follows typeFilter pattern cursor' ((page', keys') :: rest)) :
      Follows typeFilter pattern cursor ((page, keys) :: (page', keys') :: rest)

/-- The key is live at the time of the page, of the wanted type, and matches. -/
def Matches (instanceNum : ℕ) (typeFilter : Option Bytes) (pattern : Bytes) (p : Page)
    (key : Bytes) : Prop :=
  ∃ cf m, p.insts[instanceOf instanceNum key]? = some cf ∧ cf.get key = some m ∧
    m.isStale p.now = false ∧ passesType (typeFilter.map parseScanType) m.dataType = true ∧
    Glob.matchesPattern pattern key = true

section Guarantee

variable {instanceNum : ℕ} {typeFilter : Option Bytes}

theorem wantedAt_iff_matches (hrouted : Routed instanceNum p.insts) {i : ℕ} :
    WantedAt (typeFilter.map parseScanType) pattern p.now p.insts i key ↔
      i = instanceOf instanceNum key ∧ Matches instanceNum typeFilter pattern p key := by
  simp only [Matches, WantedAt, wanted, Strings.isLive_eq_not_isStale, Bool.and_eq_true,
    Bool.not_eq_true', and_assoc]
  constructor
  · rintro ⟨cf, m, hcf, hget, hmatch⟩
    obtain rfl := hrouted.home hcf hget
    exact ⟨rfl, cf, m, hcf, hget, hmatch⟩
  · rintro ⟨rfl, cf, m, hcf, hget, hmatch⟩
    exact ⟨cf, m, hcf, hget, hmatch⟩

theorem Segment.mem_iff_matches {s s' : ScanCursorState}
    (h : Segment (typeFilter.map parseScanType) pattern p.now p.insts s s' keys)
    (hrouted : Routed instanceNum p.insts) (key : Bytes) :
    key ∈ keys ↔ Matches instanceNum typeFilter pattern p key ∧
      ¬Before s (instanceOf instanceNum key) key ∧ Before s' (instanceOf instanceNum key) key := by
  rw [h.mem_iff]
  simp only [wantedAt_iff_matches hrouted]
  constructor
  · rintro ⟨i, ⟨rfl, hmatch⟩, hplace⟩
    exact ⟨hmatch, hplace⟩
  · rintro ⟨hmatch, hplace⟩
    exact ⟨_, ⟨rfl, hmatch⟩, hplace⟩

/-- What the pages from a cut on return. -/
structure Returns (instanceNum : ℕ) (typeFilter : Option Bytes) (pattern : Bytes)
    (s : ScanCursorState) (trace : List (Page × List Bytes)) : Prop where
  /-- What is returned matched at the time of its page. -/
  matched : ∀ p ∈ trace, ∀ key ∈ p.2, Matches instanceNum typeFilter pattern p.1 key
  /-- What is returned has its place after the cut. -/
  after : ∀ key ∈ trace.flatMap Prod.snd, ¬Before s (instanceOf instanceNum key) key
  nodup : (trace.flatMap Prod.snd).Nodup
  /-- What matches all the time and has its place after the cut is returned. -/
  complete : ∀ key, (∀ p ∈ trace, Matches instanceNum typeFilter pattern p.1 key) →
    ¬Before s (instanceOf instanceNum key) key → key ∈ trace.flatMap Prod.snd

variable {trace : List (Page × List Bytes)}

theorem Returns.cons {s s' : ScanCursorState} (hrouted : Routed instanceNum p.insts)
    (hpage : Segment (typeFilter.map parseScanType) pattern p.now p.insts s s' keys)
    (hrest : Returns instanceNum typeFilter pattern s' trace) :
    Returns instanceNum typeFilter pattern s ((p, keys) :: trace) where
  matched q hq key hkey := by
    rcases List.mem_cons.1 hq with rfl | hq
    · exact ((hpage.mem_iff_matches hrouted key).1 hkey).1
    · exact hrest.matched q hq key hkey
  after key hkey := by
    rcases List.mem_append.1 (List.flatMap_cons ▸ hkey) with hkey | hkey
    · exact ((hpage.mem_iff_matches hrouted key).1 hkey).2.1
    · exact fun hbefore ↦ hrest.after key hkey (hpage.mono hbefore)
  nodup := by
    rw [List.flatMap_cons]
    refine List.nodup_append.2 ⟨hpage.nodup, hrest.nodup, ?_⟩
    rintro key hkey _ hkey' rfl
    exact hrest.after key hkey' ((hpage.mem_iff_matches hrouted key).1 hkey).2.2
  complete key hmatch hplace := by
    rw [List.flatMap_cons, List.mem_append]
    by_cases hbefore : Before s' (instanceOf instanceNum key) key
    · exact Or.inl ((hpage.mem_iff_matches hrouted key).2
        ⟨hmatch _ List.mem_cons_self, hplace, hbefore⟩)
    · exact Or.inr (hrest.complete key (fun q hq ↦ hmatch q (List.mem_cons_of_mem _ hq)) hbefore)

theorem returns_nil (hpos : 0 < instanceNum)
    (hdone : instanceNum ≤ s.instanceIndex) : Returns instanceNum typeFilter pattern s [] where
  matched p hp := by cases hp
  after key hkey := by cases hkey
  nodup := List.nodup_nil
  complete key _ hplace :=
    absurd (Or.inl ((instanceOf_lt hpos key).trans_le hdone)) hplace

/-- **All pages**, by induction along the scan. -/
theorem returns_of_follows {cursor : ℕ}
    (hpos : 0 < instanceNum) (h : Follows typeFilter pattern cursor trace)
    (hrouted : ∀ p ∈ trace, Routed instanceNum p.1.insts)
    (hs : ∀ p ∈ trace.head?, startOf p.1.table cursor = .ok s) :
    Returns instanceNum typeFilter pattern s trace := by
  induction h generalizing s with
  | last scan =>
    have hpage := hrouted _ List.mem_cons_self
    obtain ⟨s', hsegment, ⟨-, hdone⟩ | ⟨hne, -⟩⟩ := segment_scan hpage scan (hs _ rfl)
    · exact .cons hpage hsegment (returns_nil hpos hdone)
    · exact absurd rfl hne
  | more scan continues kept tail ih =>
    have hpage := hrouted _ List.mem_cons_self
    obtain ⟨s', hsegment, ⟨hzero, -⟩ | ⟨-, hget⟩⟩ := segment_scan hpage scan (hs _ rfl)
    · exact absurd hzero continues
    · refine .cons hpage hsegment (ih (fun p hp ↦ hrouted p (List.mem_cons_of_mem _ hp)) ?_)
      intro p hp
      obtain rfl := Option.some.inj hp
      rw [startOf, if_neg continues, kept, hget]

/-- **The guarantee of `SCAN`.** For every number of instances and any changes of the databases
between the pages: a key that matches at the time of every page is returned exactly once, no key is
returned twice, and every key that is returned matched at the time of its page. -/
theorem scan_guarantee (instanceNum : ℕ) (hpos : 0 < instanceNum) (typeFilter : Option Bytes)
    (pattern : Bytes) (trace : List (Page × List Bytes)) (h : Follows typeFilter pattern 0 trace)
    (hrouted : ∀ p ∈ trace, Routed instanceNum p.1.insts) :
    (∀ key, (∀ p ∈ trace, Matches instanceNum typeFilter pattern p.1 key) →
        (trace.flatMap Prod.snd).count key = 1) ∧
      (∀ key, (trace.flatMap Prod.snd).count key ≤ 1) ∧
      ∀ p ∈ trace, ∀ key ∈ p.2, Matches instanceNum typeFilter pattern p.1 key := by
  have hreturns : Returns instanceNum typeFilter pattern ⟨0, none⟩ trace :=
    returns_of_follows hpos h hrouted fun _ _ ↦ rfl
  refine ⟨fun key hmatch ↦ ?_, List.nodup_iff_count_le_one.1 hreturns.nodup, hreturns.matched⟩
  exact List.count_eq_one_of_mem hreturns.nodup
    (hreturns.complete key hmatch (not_before_start _ key))

end Guarantee

theorem routed_of_rows {instanceNum : ℕ} {insts : List MetaCF}
    (hlength : insts.length = instanceNum)
    (h : ∀ p ∈ insts.zipIdx, ∀ r ∈ p.1.rows, instanceOf instanceNum r.1 = p.2) :
    Routed instanceNum insts where
  length := hlength
  home {i cf key m} hcf hget := by
    have hmem : (cf, i) ∈ insts.zipIdx := List.mem_zipIdx_iff_getElem?.2 hcf
    exact h (cf, i) hmem (key, m) (SortedMap.get_eq_some_iff.1 hget)

/-- Strings with the given keys. -/
def stringsAt (keys : List Bytes) : MetaCF :=
  keys.foldl (fun cf key ↦ cf.insert key (.string ⟨[120], 1, 0⟩)) .empty

/-- A page of one entry, and one of the rest. In between a key that was not read yet is deleted, and
another one is added. -/
def deleteAndAdd : List (Page × List Bytes) :=
  [(⟨[stringsAt [[0], [3]], stringsAt [[1]]], ⟨1, Nat.one_pos, .empty⟩, 1, 5⟩, [[0]]),
    (⟨[stringsAt [[0]], stringsAt [[1], [2]]],
      ⟨2, Nat.two_pos, SortedMap.empty.insert 1 ⟨0, some [3]⟩⟩, 10, 6⟩, [[1], [2]])]

/-- The key that stays is returned once. -/
theorem scan_guarantee_deleteAndAdd :
    Follows none [0x2A] 0 deleteAndAdd ∧ (∀ p ∈ deleteAndAdd, Routed 2 p.1.insts) ∧
      (deleteAndAdd.flatMap Prod.snd).count [1] = 1 := by
  have hfollows : Follows none [0x2A] 0 deleteAndAdd := .more rfl Nat.one_ne_zero rfl (.last rfl)
  have hrouted : ∀ p ∈ deleteAndAdd, Routed 2 p.1.insts := by
    intro p hp
    have hrows : ∀ p ∈ deleteAndAdd, p.1.insts.length = 2 ∧
        ∀ q ∈ p.1.insts.zipIdx, ∀ r ∈ q.1.rows, instanceOf 2 r.1 = q.2 := by decide +kernel
    exact routed_of_rows (hrows p hp).1 (hrows p hp).2
  refine ⟨hfollows, hrouted, ?_⟩
  refine (scan_guarantee 2 Nat.two_pos none [0x2A] deleteAndAdd hfollows hrouted).1 [1] ?_
  intro p hp
  simp only [deleteAndAdd, List.mem_cons, List.not_mem_nil, or_false] at hp
  have hinstance : instanceOf 2 [1] = 1 := by decide +kernel
  rcases hp with rfl | rfl
  · exact ⟨_, .string ⟨[120], 1, 0⟩, by rw [hinstance]; rfl, rfl, rfl, rfl, rfl⟩
  · exact ⟨_, .string ⟨[120], 1, 0⟩, by rw [hinstance]; rfl, rfl, rfl, rfl, rfl⟩

end Kiwi.Scan
