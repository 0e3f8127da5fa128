import Kiwi.Correctness.Edits.Operations

/-!
# Databases that no operation can tell apart

Two databases are `Alike` when every key has the same live meta value in both, and they differ only
in rows that are out of sight: rows that do not belong to the collection clients see at their key,
and whose version is at most `d`. An operation that starts from such a pair at a time `now` later
than `d` gives the same answer on both sides and leaves such a pair behind.

For most operations the reason is the same. Such databases look the same to an operation
(`Pre.sameView`), so both sides commit the same batch; and the meta values in it are of three kinds
(`SafeMeta`): strings, collections under the version `now`, and collections that keep the version,
type and expiry time of the live one. So no row that was out of sight comes back into sight.
-/

namespace Kiwi.Compaction

open Program Edits

variable {S α β : Type} [LinearOrder S]

/-! ### Relations -/

/-- The row belongs to the collection that clients see at its key. -/
def Current (c : ℕ) (db : Redis S) (r : Row S) : Prop :=
  ∃ m, db.liveMeta r.key c = some m ∧ m.dataType = r.dataType ∧ m.version = r.version

/-- The databases differ only in what is out of sight at time `c`, and only in rows under versions
up to `d`. -/
structure Alike (d c : ℕ) (a b : Redis S) : Prop where
  /-- The live meta values are the same. -/
  live : ∀ key, a.liveMeta key c = b.liveMeta key c
  /-- Rows that differ are old and out of sight. -/
  rows : ∀ r, a.lookup r = b.lookup r ∨ r.version ≤ d ∧ ¬Current c a r
  cursors : a.scanCursorsStore = b.scanCursorsStore

/-- Every version in use is at most `c`. -/
structure VersionsLe (c : ℕ) (db : Redis S) : Prop where
  metaRows : ∀ {key m}, db.metaCF.get key = some m → m.version ≤ c
  dataRows : ∀ {r x}, db.lookup r = some x → r.version ≤ c

/-- What became of the collections: a live one was live before, under the same version and type,
with `P` between the meta values; or it has the version `now`. -/
def Moves (P : Bytes → MetaValue → MetaValue → Prop) (now : ℕ) (a a' : Redis S) : Prop :=
  ∀ key m', a'.liveMeta key now = some m' → m'.dataType ≠ .string →
    (∃ m, a.liveMeta key now = some m ∧ m'.version = m.version ∧ m'.dataType = m.dataType ∧
      P key m m') ∨ m'.version = now

/-- The expiry time stays. -/
def SameEtime (_ : Bytes) (m m' : MetaValue) : Prop := m'.etime = m.etime

/-- The expiry time stays, unless it is set for that key. -/
def EtimeAfter (set : Option (Bytes × ℕ)) (key : Bytes) (m m' : MetaValue) : Prop :=
  m'.etime = m.etime ∨ set = some (key, m'.etime)

theorem Moves.refl {now : ℕ} (a : Redis S) : Moves SameEtime now a a :=
  fun _ m' hm' _ ↦ Or.inl ⟨m', hm', rfl, rfl, rfl⟩

theorem Moves.trans {now : ℕ} {a a' a'' : Redis S} (h : Moves SameEtime now a a')
    (h' : Moves SameEtime now a' a'') : Moves SameEtime now a a'' := by
  intro key m'' hm'' hstring
  rcases h' key m'' hm'' hstring with ⟨m', hm', hv', ht', he'⟩ | hnow
  · rcases h key m' hm' (ht' ▸ hstring) with ⟨m, hm, hv, ht, he⟩ | hnow
    · exact Or.inl ⟨m, hm, hv'.trans hv, ht'.trans ht, he'.trans he⟩
    · exact Or.inr (hv'.trans hnow)
  · exact Or.inr hnow

variable {d c c' now : ℕ} {a b a' b' : Redis S}

theorem Current.of_le {r : Row S} (h : c ≤ c') (hr : Current c' a r) : Current c a r := by
  obtain ⟨m, hm, ht, hv⟩ := hr
  exact ⟨m, Redis.liveMeta_mono h hm, ht, hv⟩

/-- What is live later is what is live now and does not become stale. -/
theorem liveMeta_of_le (h : c ≤ c') (a : Redis S) (key : Bytes) :
    a.liveMeta key c' = (a.liveMeta key c).filter fun m ↦ !m.isStale c' := by
  rw [Redis.liveMeta, Redis.liveMeta, Option.filter_filter]
  congr 1
  funext m
  cases hstale : m.isStale c' with
  | true => simp
  | false =>
    have hbefore : m.isStale c = false :=
      Bool.eq_false_iff.2 fun hs ↦ Bool.eq_false_iff.1 hstale (MetaValue.isStale_mono h hs)
    simp [hbefore]

theorem Alike.of_le (h : Alike d c a b) (hc : c ≤ c') : Alike d c' a b where
  live key := by rw [liveMeta_of_le hc, liveMeta_of_le hc, h.live key]
  rows r := (h.rows r).imp_right fun hr ↦ ⟨hr.1, fun hcur ↦ hr.2 (hcur.of_le hc)⟩
  cursors := h.cursors

theorem Alike.raise {d' : ℕ} (h : Alike d c a b) (hd : d ≤ d') : Alike d' c a b :=
  ⟨h.live, fun r ↦ (h.rows r).imp_right fun hr ↦ ⟨hr.1.trans hd, hr.2⟩, h.cursors⟩

theorem VersionsLe.of_le (h : VersionsLe c a) (hc : c ≤ c') : VersionsLe c' a :=
  ⟨fun hm ↦ (h.metaRows hm).trans hc, fun hr ↦ (h.dataRows hr).trans hc⟩

variable {P : Bytes → MetaValue → MetaValue → Prop}

/-- A row that was out of sight stays so, unless its version is `now`. -/
theorem Moves.not_current {r : Row S}
    (h : Moves P now a a') (hr : ¬Current now a r) (hv : r.version < now) : ¬Current now a' r := by
  rintro ⟨m', hm', ht', hv'⟩
  rcases h r.key m' hm' (ht' ▸ r.dataType_ne_string) with ⟨m, hm, hmv, hmt, -⟩ | hnow
  · exact hr ⟨m, hm, hmt.symm.trans ht', hmv.symm.trans hv'⟩
  · omega

/-! ### Batches -/

/-- What operations write as the meta value of a key. -/
inductive SafeMeta (now : ℕ) (a : Redis S) (key : Bytes) (m : MetaValue) : Prop
  | string (h : m.dataType = .string)
  /-- A collection that is created or moves to a new version. -/
  | fresh (h : m.version = now)
  /-- A collection that is updated in place. -/
  | inPlace {m₀ : MetaValue} (live : a.liveMeta key now = some m₀)
      (version : m.version = m₀.version) (type : m.dataType = m₀.dataType) (etime : m.etime = m₀.etime)

/-- What operations write: such meta values, and rows under versions up to `now`. -/
abbrev Safe (names : List Bytes) (now : ℕ) (a : Redis S) (w : Batch S) : Prop :=
  Meets names (SafeMeta now a) (fun _ v ↦ v ≤ now) w

/-- What is put has a version of at most `c`. -/
abbrev UpTo (names : List Bytes) (c : ℕ) (w : Batch S) : Prop :=
  Meets names (fun _ m ↦ m.version ≤ c) (fun _ v ↦ v ≤ c) w

variable {names : List Bytes} {w : Batch S}

theorem moves_write (h : Safe names now a w) : Moves SameEtime now a (a.write w) := by
  intro key m' hm' hstring
  obtain ⟨hget, hlive⟩ := Redis.liveMeta_eq_some_iff.1 hm'
  rcases SortedMap.get_apply_eq_some hget with hput | hold
  · cases (h _ (Entry.mem_metaWrites.1 hput)).2 with
    | string ht => exact absurd ht hstring
    | fresh hv => exact Or.inr hv
    | inPlace live version type etime => exact Or.inl ⟨_, live, version, type, etime⟩
  · exact Or.inl ⟨m', Redis.liveMeta_eq_some_iff.2 ⟨hold, hlive⟩, rfl, rfl, rfl⟩

theorem VersionsLe.write (h : VersionsLe c a) (hw : UpTo names c w) : VersionsLe c (a.write w) := by
  constructor
  · intro key m hm
    rcases SortedMap.get_apply_eq_some hm with hput | hold
    · exact (hw _ (Entry.mem_metaWrites.1 hput)).2
    · exact h.metaRows hold
  · intro r x hx
    rcases Redis.lookup_write_eq_some hx with hput | hold
    · have hentry := (hw _ hput).2
      cases r <;> exact hentry
    · exact h.dataRows hold

variable {m : MetaValue}

omit [LinearOrder S] in
theorem version_eq_zero_of_string (h : m.dataType = .string) : m.version = 0 := by
  cases m with
  | string => rfl
  | base m => cases hm : m.dataType <;> simp [MetaValue.dataType, hm, BaseType.toDataType] at h
  | list => cases h

theorem VersionsLe.upTo (ha : VersionsLe now a) (h : Safe names now a w) : UpTo names now w := by
  refine h.mono (fun key m hm ↦ ?_) fun _ _ hv ↦ hv
  cases hm with
  | string ht => exact (version_eq_zero_of_string ht).le.trans (Nat.zero_le _)
  | fresh hv => exact hv.le
  | inPlace live version =>
    exact version.le.trans (ha.metaRows (Redis.liveMeta_eq_some_iff.1 live).1)

variable {key : Bytes}

theorem liveMeta_congr (h : a.metaCF.get key = b.metaCF.get key) (c : ℕ) :
    a.liveMeta key c = b.liveMeta key c := by
  rw [Redis.liveMeta, Redis.liveMeta, h]

/-- **The same batch on both sides**, if it brings no row into sight that differs after it. -/
theorem Alike.write_of_rows (h : Alike d now a b)
    (hrows : ∀ r, (a.write w).lookup r = (b.write w).lookup r ∨
      (r.version ≤ d → ¬Current now a r → ¬Current now (a.write w) r)) :
    Alike d now (a.write w) (b.write w) where
  live key := by
    rcases Redis.metaCF_write_cases w key with hdecided | hsame
    · exact liveMeta_congr (hdecided a b) now
    · rw [liveMeta_congr (hsame a), liveMeta_congr (hsame b)]
      exact h.live key
  rows r := by
    rcases Redis.lookup_write_cases w r with hdecided | hsame
    · exact Or.inl (hdecided a b)
    · rcases hrows r with heq | hr
      · exact Or.inl heq
      · rw [hsame a, hsame b]
        exact (h.rows r).imp_right fun hdiffers ↦ ⟨hdiffers.1, hr hdiffers.1 hdiffers.2⟩
  cursors := h.cursors

theorem Alike.write (h : Alike d now a b) (hd : d < now) (hmoves : Moves P now a (a.write w)) :
    Alike d now (a.write w) (b.write w) :=
  h.write_of_rows fun _ ↦ Or.inr fun hle hold ↦ hmoves.not_current hold (hle.trans_lt hd)

/-! ### One operation on both sides -/

/-- What holds before an operation: the databases are alike, and `now` is later than everything that
is stored. -/
structure Pre (d now : ℕ) (a b : Redis S) : Prop where
  alike : Alike d now a b
  lt : d < now
  left : VersionsLe d a
  right : VersionsLe d b

/-- What holds after an operation that started from `a`. -/
structure Post (P : Bytes → MetaValue → MetaValue → Prop) (d now : ℕ) (a a' b' : Redis S) :
    Prop where
  alike : Alike d now a' b'
  /-- What became of the collections. -/
  moves : Moves P now a a'
  left : VersionsLe now a'
  right : VersionsLe now b'

theorem Post.etimeAfter (h : Post SameEtime d now a a' b') (set : Option (Bytes × ℕ)) :
    Post (EtimeAfter set) d now a a' b' := by
  refine ⟨h.alike, fun key m' hm' hstring ↦ ?_, h.left, h.right⟩
  exact (h.moves key m' hm' hstring).imp_left fun ⟨m, hm, hv, ht, he⟩ ↦ ⟨m, hm, hv, ht, Or.inl he⟩

theorem Pre.post (h : Pre d now a b) : Post SameEtime d now a a b :=
  ⟨h.alike, .refl a, h.left.of_le h.lt.le, h.right.of_le h.lt.le⟩

theorem Pre.write (h : Pre d now a b) (hw : Safe names now a w) :
    Post SameEtime d now a (a.write w) (b.write w) := by
  have hle := (h.left.of_le h.lt.le).upTo hw
  exact ⟨h.alike.write h.lt (moves_write hw), moves_write hw, (h.left.of_le h.lt.le).write hle,
    (h.right.of_le h.lt.le).write hle⟩

/-! ### Operations that commit once -/

theorem Pre.liveMeta (h : Pre d now a b) (key : Bytes) :
    a.liveMeta key now = b.liveMeta key now := h.alike.live key

/-- The version of a live collection is before `now`. -/
theorem Pre.version_lt (h : Pre d now a b) (hm : a.liveMeta key now = some m) : m.version < now :=
  (h.left.metaRows (Redis.liveMeta_eq_some_iff.1 hm).1).trans_lt h.lt

theorem VersionsLe.pre (h : VersionsLe d a) (hd : d < now) : Pre d now a a :=
  ⟨⟨fun _ ↦ rfl, fun _ ↦ Or.inl rfl, rfl⟩, hd, h, h⟩

section

variable (h : Pre d now a b)

include h

/-- A new collection takes the version `now`. -/
theorem Pre.updateVersion_zero : updateVersion 0 now = now :=
  updateVersion_of_lt (Nat.zero_lt_of_lt h.lt)

/-- The databases look the same: rows that differ are neither current nor under the version
`now`. -/
theorem Pre.sameView : SameView now a b where
  liveMeta := h.alike.live
  current r _ hm ht hv := (h.alike.rows r).resolve_right fun hr ↦ hr.2 ⟨_, hm, ht, hv⟩
  fresh r hr := (h.alike.rows r).resolve_right fun hold ↦ by
    have := h.lt
    rw [h.updateVersion_zero] at hr
    omega

theorem Pre.freshVersion {v : ℕ} (hv : FreshVersion now a key v) : v = now := by
  rcases hv with rfl | ⟨m, hm, rfl⟩
  · exact h.updateVersion_zero
  · exact updateVersion_of_lt (h.version_lt hm)

theorem Pre.rowVersion {v : ℕ} (hv : RowVersion now a key v) : v ≤ now := by
  rcases hv with hv | ⟨m, hm, rfl⟩
  · exact (h.freshVersion hv).le
  · exact (h.version_lt hm).le

variable {E : Bytes → MetaValue → Prop}

theorem Pre.safe (hw : EditBatch E names now a w) : Safe names now a w := by
  refine hw.mono (fun key m hm ↦ ?_) fun _ v hv ↦ h.rowVersion hv
  cases hm with
  | string type => exact .string type
  | fresh version | emptied version => exact .fresh (h.freshVersion version)
  | inPlace live version type etime => exact .inPlace live version type etime

/-- **The same edits on both sides.** -/
theorem Pre.agree {p : Op S α} (hp : CommitsEdits E names now a b p) :
    Agree (Post SameEtime d now a) a b p p :=
  hp.agree h.post fun _ _ hw ↦ h.write (h.safe hw)

theorem Pre.agree_of_writes {r : Expiry.Rule} {p : Op S α}
    (hp : CommitsOne (Writes r now a) a b p p) : Agree (Post SameEtime d now a) a b p p := by
  cases r with
  | keeps | resets | sets => exact h.agree hp

end

end Kiwi.Compaction
