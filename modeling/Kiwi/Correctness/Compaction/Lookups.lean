import Kiwi.Storage.Compaction
import Mathlib.Tactic.Common

/-!
# What a data filter removes when lookups fail

A data filter looks the meta value of a key up once, and answers for the other rows of the key from
what it remembers. A lookup that fails leaves the key remembered with version and expiry time `0`,
like a meta value that was found. For the rows of hashes, sets, lists and zsets that does no harm,
since no version is below `0`; but the members of a vector set are compared for equality, and every
one after the first is removed (`members_removed_after_failure`).

`removed_only_if_stale` is what holds for every filter and each of its calls: a row that is removed
was proved stale by a lookup that this filter made, unless it is a vector member and a lookup
failed.
-/

namespace Kiwi

/-- It is a member of a vector set. -/
def FilterKey.isMember : FilterKey → Bool
  | .member .. => true
  | .malformed | .row .. => false

namespace DataCompactionFilter

/-- The result of a lookup shows that a row is stale: there is no collection of the right type, it
is expired, or the row is outdated. -/
def ShowsStale (f : DataCompactionFilter) (call : FilterCall) (value : Option MetaValue) : Prop :=
  match value.bind f.parseMetaValue with
  | none => True
  | some (version, etime) => (etime ≠ 0 ∧ etime < call.now) ∨ call.isOutdated version = true

/-- A filter with the lookups that it has made with success. -/
structure Logged where
  filter : DataCompactionFilter
  lookups : List (Bytes × Option MetaValue)

/-- The lookup of a key that a filter makes, if it makes one and succeeds. -/
def lookupOf (f : DataCompactionFilter) (read : Option (Option MetaValue)) (key : Bytes) :
    Option (Bytes × Option MetaValue) :=
  if f.curKey = some key then none else read.map (key, ·)

/-- A call of the filter, with the lookup that it makes, if any, logged. -/
def Logged.step (s : Logged) (call : FilterCall) : Logged :=
  ⟨(s.filter.filterCall call).2,
    s.lookups ++ (call.key.metaKey.bind (s.filter.lookupOf call.read)).toList⟩

/-- The filter remembers the result of a lookup. -/
def Reflects (f : DataCompactionFilter) (value : Option MetaValue) : Prop :=
  match value.bind f.parseMetaValue with
  | none => f.metaNotFound = true
  | some (version, etime) =>
    f.metaNotFound = false ∧ f.curMetaVersion = version ∧ f.curMetaEtime = etime

/-- What the filter remembers of the current key is the result of a lookup that it made; or, where
lookups may fail, nothing. -/
def Remembered (mayFail : Prop) (s : Logged) : Prop :=
  ∀ key, s.filter.curKey = some key →
    (∃ value, (key, value) ∈ s.lookups ∧ s.filter.Reflects value) ∨
    mayFail ∧ s.filter.metaNotFound = false ∧ s.filter.curMetaVersion = 0 ∧
      s.filter.curMetaEtime = 0

variable {mayFail : Prop} {f : DataCompactionFilter} {lookups : List (Bytes × Option MetaValue)}
  {read : Option (Option MetaValue)} {key : Bytes}

/-- What `ensure_meta_state` answers, and what is remembered then. -/
structure Ensured (mayFail : Prop) (s : Logged) (key : Bytes) (lookup : MetaLookup) : Prop where
  remembered : Remembered mayFail s
  curKey : s.filter.curKey = some key
  metaNotFound : lookup = .notFound → s.filter.metaNotFound = true

theorem ensured_ensureMeta (h : Remembered mayFail ⟨f, lookups⟩) (hfail : read = none → mayFail) :
    Ensured mayFail ⟨(f.ensureMeta read key).2, lookups ++ (f.lookupOf read key).toList⟩ key
      (f.ensureMeta read key).1 := by
  unfold ensureMeta lookupOf
  split_ifs with hkey hnotFound
  · rw [Option.toList_none, List.append_nil]
    exact ⟨h, hkey, fun _ ↦ hnotFound⟩
  · rw [Option.toList_none, List.append_nil]
    exact ⟨h, hkey, fun hlookup ↦ by cases hlookup⟩
  · rcases read with _ | value
    · exact ⟨fun _ _ ↦ Or.inr ⟨hfail rfl, rfl, rfl, rfl⟩, rfl, fun hlookup ↦ by cases hlookup⟩
    · have hmem : (key, value) ∈ lookups ++ (Option.map (key, ·) (some value)).toList :=
        List.mem_append_right _ (List.mem_singleton.2 rfl)
      generalize hreset : { f with
        curKey := some key, metaNotFound := false, curMetaVersion := 0, curMetaEtime := 0 } = f'
      have hkey' : f'.curKey = some key := by rw [← hreset]
      have hfound' : f'.metaNotFound = false := by rw [← hreset]
      dsimp only
      rcases hparse : value.bind f'.parseMetaValue with _ | ⟨version, etime⟩
      · refine ⟨fun key' hcur ↦ Or.inl ⟨value, ?_, ?_⟩, hkey', fun _ ↦ rfl⟩
        · exact Option.some.inj (hkey'.symm.trans hcur) ▸ hmem
        · have hreflects : value.bind (parseMetaValue { f' with metaNotFound := true }) = none :=
            hparse
          rw [Reflects, hreflects]
      · refine ⟨fun key' hcur ↦ Or.inl ⟨value, ?_, ?_⟩, hkey', fun hlookup ↦ ?_⟩
        · exact Option.some.inj (hkey'.symm.trans hcur) ▸ hmem
        · have hreflects : value.bind (parseMetaValue { f' with
              curMetaVersion := version, curMetaEtime := etime }) = some (version, etime) := hparse
          rw [Reflects, hreflects]
          exact ⟨hfound', rfl, rfl⟩
        · cases hlookup

variable {s : Logged} {call : FilterCall}

/-- **One call** keeps it so that the filter remembers a lookup that it made. -/
theorem remembered_step (h : Remembered mayFail s) (hfail : call.read = none → mayFail) :
    Remembered mayFail (s.step call) := by
  unfold Logged.step filterCall
  rcases call.key.metaKey with _ | key
  · exact fun key' hcur ↦ (h key' hcur).imp_left fun ⟨value, hmem, hreflects⟩ ↦
      ⟨value, List.mem_append_left _ hmem, hreflects⟩
  · exact (ensured_ensureMeta h hfail).remembered

/-- No row is older than the version `0`. -/
theorem isOutdated_zero (h : call.key.isMember = false) : call.isOutdated 0 = false := by
  obtain ⟨_ | ⟨_, _ | version⟩ | _, read, now, storageIncarnation⟩ := call
  · rfl
  · rfl
  · exact decide_eq_false (Nat.not_lt_zero version)
  · cases h

/-- **A removal** is justified by a lookup, unless lookups of vector sets may fail. -/
theorem exists_lookup_of_remove (h : Remembered mayFail s) (hfail : call.read = none → mayFail)
    (hmember : mayFail → call.key.isMember = false)
    (hremove : (s.filter.filterCall call).1 = .remove) :
    ∃ key value, call.key.metaKey = some key ∧ (key, value) ∈ (s.step call).lookups ∧
      (s.step call).filter.ShowsStale call value := by
  unfold Logged.step
  unfold filterCall at hremove ⊢
  rcases hkey : call.key.metaKey with _ | key
  · rw [hkey] at hremove
    cases hremove
  rw [hkey] at hremove
  have hensured : Ensured mayFail ⟨(s.filter.ensureMeta call.read key).2, _⟩ key _ :=
    ensured_ensureMeta h hfail
  dsimp only [Option.bind_some] at hremove hensured ⊢
  generalize s.lookups ++ _ = lookups at hensured ⊢
  generalize s.filter.ensureMeta call.read key = result at hremove hensured ⊢
  obtain ⟨lookup, f⟩ := result
  have hcases : lookup = .notFound ∨ lookup = .valid ∧
      ((f.curMetaEtime ≠ 0 ∧ f.curMetaEtime < call.now) ∨ call.isOutdated f.curMetaVersion) := by
    cases lookup with
    | unavailable => cases hremove
    | notFound => exact Or.inl rfl
    | valid =>
      dsimp only [answer] at hremove
      split_ifs at hremove with hexpired houtdated
      · exact Or.inr ⟨rfl, Or.inl hexpired⟩
      · exact Or.inr ⟨rfl, Or.inr houtdated⟩
  rcases hensured.remembered key hensured.curKey with ⟨value, hmem, hreflects⟩ | ⟨hmay, hfound, hzero⟩
  · refine ⟨key, value, rfl, hmem, ?_⟩
    unfold ShowsStale
    unfold Reflects at hreflects
    dsimp only at hreflects ⊢
    generalize value.bind f.parseMetaValue = parsed at hreflects ⊢
    rcases parsed with _ | ⟨version, etime⟩
    · trivial
    · obtain ⟨hfound, rfl, rfl⟩ := hreflects
      rcases hcases with hnotFound | ⟨-, hstale⟩
      · rw [hensured.metaNotFound hnotFound] at hfound
        cases hfound
      · exact hstale
  · -- nothing is remembered, and nothing follows from that
    rcases hcases with hnotFound | ⟨-, hexpired | houtdated⟩
    · rw [hensured.metaNotFound hnotFound] at hfound
      cases hfound
    · exact absurd hzero.2 hexpired.1
    · rw [hzero.1, isOutdated_zero (hmember hmay)] at houtdated
      cases houtdated

/-- **Rows that are removed are stale.** Let a new filter be asked about any keys. A row that is
removed was shown stale by a lookup of its key that this filter made, unless it is a vector member
and some lookup has failed. -/
theorem removed_only_if_stale (dataType : DataType) (before : List FilterCall) (call : FilterCall)
    (h : call.key.isMember = false ∨ ∀ c ∈ call :: before, c.read ≠ none) :
    let s := before.foldl Logged.step ⟨new dataType, []⟩
    (s.filter.filterCall call).1 = .remove →
      ∃ key value, call.key.metaKey = some key ∧ (key, value) ∈ (s.step call).lookups ∧
        (s.step call).filter.ShowsStale call value := by
  intro s hremove
  have hrun {mayFail : Prop} (hfail : ∀ c ∈ call :: before, c.read = none → mayFail)
      (hmember : mayFail → call.key.isMember = false) :
      ∃ key value, call.key.metaKey = some key ∧ (key, value) ∈ (s.step call).lookups ∧
        (s.step call).filter.ShowsStale call value := by
    have hs : Remembered mayFail s := by
      have hnew : Remembered mayFail ⟨new dataType, []⟩ := fun key hkey ↦ by cases hkey
      exact List.foldlRecOn before Logged.step hnew fun s hs c hc ↦
        remembered_step hs (hfail c (List.mem_cons_of_mem _ hc))
    exact exists_lookup_of_remove hs (hfail call List.mem_cons_self) hmember hremove
  rcases h with hrow | hread
  · exact hrun (fun _ _ _ ↦ trivial) fun _ ↦ hrow
  · exact hrun (fun c hc hnone ↦ hread c hc hnone) False.elim

/-- The lookup for one hash fails; the row of another one, which was deleted, is removed. -/
theorem removed_only_if_stale_deleted :
    let s := Logged.step ⟨new .hash, []⟩ ⟨.row [0x61] (some 3), none, 10, none⟩
    ∃ key value, (FilterKey.row [0x62] (some 3)).metaKey = some key ∧
      (key, value) ∈ (s.step ⟨.row [0x62] (some 3), some none, 10, none⟩).lookups ∧
      (s.step ⟨.row [0x62] (some 3), some none, 10, none⟩).filter.ShowsStale
        ⟨.row [0x62] (some 3), some none, 10, none⟩ value :=
  removed_only_if_stale .hash [⟨.row [0x61] (some 3), none, 10, none⟩]
    ⟨.row [0x62] (some 3), some none, 10, none⟩ (Or.inl (by decide +kernel)) (by decide +kernel)

/-- The first lookup for a vector set fails, and its member is kept. Nothing fails after that, and
storage has the set with generation `7`; but the next member, of this generation, is removed without
a lookup. -/
theorem members_removed_after_failure :
    let stored := MetaValue.base ⟨.vectorSet, 2, 7, 0, 0⟩
    let s := Logged.step ⟨new .vectorSet, []⟩ ⟨.member [0x6B] 1 7, none, 10, some 1⟩
    ((new .vectorSet).filterCall ⟨.member [0x6B] 1 7, none, 10, some 1⟩).1 = .keep ∧
    (s.filter.filterCall ⟨.member [0x6B] 1 7, some (some stored), 10, some 1⟩).1 = .remove ∧
    (s.step ⟨.member [0x6B] 1 7, some (some stored), 10, some 1⟩).lookups.length = 0 := by
  decide +kernel

end DataCompactionFilter

end Kiwi
