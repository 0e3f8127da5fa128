import Kiwi.Lib.Simulation
import Kiwi.Correctness.Compaction.Operations

/-!
# Compaction is out of sight

A run interleaves operations with the calls that compactions make: filters for data rows are
created, asked about rows that were stored when they were created, and dropped; the filter for meta
values is asked about any of them. `step` is the instance that loses what the filters remove, and
`plainStep` the one without compaction. Along a run that meets `Guard` both give the same answers.

A data filter remembers the version and the expiry time of the key whose rows it is asked about.
A newer version does not hurt: the rows it is asked about are older than the filter. An expiry time
that is set while the filter remembers another one does, if it comes later or there is none any
more: the filter then removes rows of a collection that still lives. `Guard` excludes exactly this,
and `persist_under_filter_loses_field` shows that it must.
-/

namespace Kiwi.Compaction

open Program

variable {S : Type} [Score S]

/-! ### The machines -/

/-- A data filter at work, with the database as it was when the filter was created. -/
structure OpenFilter (S : Type) [LinearOrder S] where
  filter : DataCompactionFilter
  snapshot : Redis S

/-- An instance, and the data filters at work in it. -/
structure Machine (S : Type) [LinearOrder S] where
  db : Redis S
  filters : SortedMap ℕ (OpenFilter S)

/-- What happens next: an operation, or a call of a compaction. A row that a data filter is asked
about is `visible` unless it has been overwritten since: dropping it then changes nothing. -/
inductive Action (S : Type) : Type 1
  | operation {α : Type} (o : Operation S α)
  | openFilter (id : ℕ) (dataType : DataType)
  | filterData (id : ℕ) (r : Row S) (visible : Bool)
  | closeFilter (id : ℕ)
  | filterMeta (key : Bytes)

/-- What a client sees of an action. -/
inductive Answer : Type 1
  | reply {α : Type} (x : Except Error α)
  | nothing

/-- The meta value of a key after its filter was asked. -/
def compactMeta (db : Redis S) (now : ℕ) (key : Bytes) : Redis S :=
  match db.metaCF.get key with
  | none => db
  | some m =>
    match MetaCompactionFilter.filter now m with
    | .remove => db.dropMeta key
    | .keep => db

/-- The database after a data filter was asked about a row. -/
def compactData (f : DataCompactionFilter) (db : Redis S) (now : ℕ) (r : Row S) (visible : Bool) :
    Redis S :=
  match (f.filter db now r).1 with
  | .remove => if visible then db.drop r else db
  | .keep => db

/-- One action with compaction. -/
def step (s : Machine S) (now : ℕ) : Action S → Answer × Machine S
  | .operation o =>
    (.reply ((o.run now).exec s.db).1, { s with db := ((o.run now).exec s.db).2 })
  | .openFilter id dataType =>
    (.nothing, { s with filters := s.filters.insert id ⟨.new dataType, s.db⟩ })
  | .filterData id r visible =>
    match s.filters.get id with
    | none => (.nothing, s)
    | some f =>
      (.nothing, { db := compactData f.filter s.db now r visible
                   filters := s.filters.insert id { f with filter := (f.filter.filter s.db now r).2 } })
  | .closeFilter id => (.nothing, { s with filters := s.filters.erase id })
  | .filterMeta key => (.nothing, { s with db := compactMeta s.db now key })

/-- One action without compaction. -/
def plainStep (db : Redis S) (now : ℕ) : Action S → Answer × Redis S
  | .operation o => (.reply ((o.run now).exec db).1, ((o.run now).exec db).2)
  | _ => (.nothing, db)

/-- The key and expiry time that an action sets. -/
def Action.setsEtime : Action S → Option (Bytes × ℕ)
  | .operation (.string o) => Compaction.setsEtime o
  | _ => none

/-- The filter remembers an expiry time for this key. -/
def Remembers (f : DataCompactionFilter) (key : Bytes) : Prop :=
  f.curKey = some key ∧ f.metaNotFound = false ∧ f.curMetaEtime ≠ 0

instance (f : DataCompactionFilter) (key : Bytes) : Decidable (Remembers f key) :=
  inferInstanceAs (Decidable (_ ∧ _))

/-- An expiry time that is set is not later than one that a filter remembers. -/
def EtimeGuard (filters : SortedMap ℕ (OpenFilter S)) (set : Option (Bytes × ℕ)) : Prop :=
  ∀ w ∈ set, ∀ p ∈ filters.rows, Remembers p.2.filter w.1 →
    w.2 ≠ 0 ∧ w.2 ≤ p.2.filter.curMetaEtime

/-- A filter is asked about rows of its type, and of those that can be seen only about rows that
were stored when it was created. -/
def RowGuard (filters : SortedMap ℕ (OpenFilter S)) : Action S → Prop
  | .filterData id r visible => ∀ f ∈ filters.get id,
      r.dataType = f.filter.dataType ∧ (visible = true → (f.snapshot.lookup r).isSome)
  | _ => True

instance (filters : SortedMap ℕ (OpenFilter S)) (set : Option (Bytes × ℕ)) :
    Decidable (EtimeGuard filters set) :=
  inferInstanceAs (Decidable (∀ w ∈ set, ∀ p ∈ filters.rows, Remembers p.2.filter w.1 →
    w.2 ≠ 0 ∧ w.2 ≤ p.2.filter.curMetaEtime))

instance (filters : SortedMap ℕ (OpenFilter S)) : (a : Action S) → Decidable (RowGuard filters a)
  | .filterData id r visible => inferInstanceAs (Decidable (∀ f ∈ filters.get id,
      r.dataType = f.filter.dataType ∧ (visible = true → (f.snapshot.lookup r).isSome)))
  | .operation _ | .openFilter _ _ | .closeFilter _ | .filterMeta _ =>
    inferInstanceAs (Decidable True)

/-- What a run has to meet: the clock advances, filters are asked about what they may be asked
about, and no expiry time is put off while a filter remembers it. -/
def Guard (t : ℕ × Machine S) (a : ℕ × Action S) : Prop :=
  t.1 < a.1 ∧ RowGuard t.2.filters a.2 ∧ EtimeGuard t.2.filters a.2.setsEtime

instance (t : ℕ × Machine S) (a : ℕ × Action S) : Decidable (Guard t a) :=
  inferInstanceAs (Decidable (_ ∧ _ ∧ _))

/-! ### Operations -/

section Relation

variable {d c c' now : ℕ} {a b a' : Redis S}

/-- **Any operation** answers alike on both sides, and keeps them related. -/
theorem agree_operation {α : Type} (h : Pre d now a b) (o : Operation S α) :
    Agree (Post (EtimeAfter (Action.operation o).setsEtime) d now a) a b (o.run now)
      (o.run now) := by
  have hkeep : ∀ {p : Op S α}, Agree (Post SameEtime d now a) a b p p →
      Agree (Post (EtimeAfter (Action.operation o).setsEtime) d now a) a b p p := fun hp ↦
    ⟨hp.1, hp.2.etimeAfter _⟩
  cases o with
  | string o => exact agree_string h o
  | list o => exact hkeep (agree_list h o)
  | hash o => exact hkeep (agree_hash h o)
  | set o => exact hkeep (h.agree_of_writes (Edits.commits_set h.sameView o))
  | zset o => exact hkeep (agree_zset h o)

/-! ### What a filter knows -/

/-- What the filter remembers does not condemn the collection. -/
structure Knows (f : DataCompactionFilter) (m : MetaValue) : Prop where
  /-- The filter has found a meta value. -/
  found : f.metaNotFound = false
  version : f.curMetaVersion ≤ m.version
  /-- The collection expires no later than the filter remembers. -/
  etime : f.curMetaEtime ≠ 0 → m.etime ≠ 0 ∧ m.etime ≤ f.curMetaEtime

/-- The filter knows every collection of its current key that is live at time `c` and as old as its
rows, which have versions up to `d`. -/
structure FilterOk (d c : ℕ) (a : Redis S) (f : OpenFilter S) : Prop where
  /-- The clock when the filter was created, and what was stored then. -/
  known : ∃ opened ≤ d, VersionsLe opened f.snapshot ∧ ∀ {key m}, f.filter.curKey = some key →
    a.liveMeta key c = some m → m.dataType = f.filter.dataType → m.dataType ≠ .string →
    m.version ≤ opened → Knows f.filter m

variable {f : OpenFilter S}

theorem FilterOk.of_le {d' : ℕ} (h : FilterOk d c a f) (hd : d ≤ d') (hc : c ≤ c') :
    FilterOk d' c' a f := by
  obtain ⟨opened, hopened, hversions, hknown⟩ := h.known
  exact ⟨opened, hopened.trans hd, hversions, fun hkey hm ↦ hknown hkey (Redis.liveMeta_mono hc hm)⟩

theorem filterOk_new (hb : VersionsLe d b) (t : DataType) : FilterOk d c a ⟨.new t, b⟩ :=
  ⟨d, le_rfl, hb, fun hkey ↦ by cases hkey⟩

/-- A write at time `now` leaves the filter in the know if what is live then was live before, with
an expiry time that is not later than the one the filter remembers, or is new. -/
theorem FilterOk.moves (h : FilterOk d c a f) (hd : d < now) (hc : c ≤ c')
    (hmoves : ∀ key m', a'.liveMeta key c' = some m' → m'.dataType ≠ .string →
      (∃ m, a.liveMeta key c' = some m ∧ m'.version = m.version ∧ m'.dataType = m.dataType ∧
        (Remembers f.filter key →
          m'.etime = m.etime ∨ m'.etime ≠ 0 ∧ m'.etime ≤ f.filter.curMetaEtime)) ∨
      m'.version = now) : FilterOk now c' a' f := by
  obtain ⟨opened, hopened, hversions, hknown⟩ := h.known
  refine ⟨opened, hopened.trans hd.le, hversions, ?_⟩
  intro key m' hkey hm' htype hstring hversion
  rcases hmoves key m' hm' hstring with ⟨m, hm, hv, ht, hetime⟩ | hnew
  · -- the collection was there before, so the filter knew it
    have hknows : Knows f.filter m := hknown hkey (Redis.liveMeta_mono hc hm) (ht ▸ htype)
      (ht ▸ hstring) (hv ▸ hversion)
    refine ⟨hknows.found, hv ▸ hknows.version, fun hne ↦ ?_⟩
    rcases hetime ⟨hkey, hknows.found, hne⟩ with hsame | hset
    · rw [hsame]
      exact hknows.etime hne
    · exact hset
  · omega

variable {m : MetaValue}

theorem knows_ensureMetaState {f : DataCompactionFilter} {key : Bytes}
    (hkey : f.curKey ≠ some key) (hm : b.metaCF.get key = some m) (ht : m.dataType = f.dataType)
    (hstring : m.dataType ≠ .string) : Knows (f.ensureMetaState b key) m := by
  have hparse : f.parseMetaValue m = some (m.version, m.etime) := by
    cases m with
    | string v => exact absurd rfl hstring
    | base m | list m => exact if_neg (not_not.2 ht)
  rw [DataCompactionFilter.ensureMetaState, if_neg hkey, hm, Option.bind_some, hparse]
  exact ⟨rfl, le_rfl, fun hne ↦ ⟨hne, le_rfl⟩⟩

section

variable (f : DataCompactionFilter) (b : Redis S) (key : Bytes)

theorem ensureMetaState_curKey : (f.ensureMetaState b key).curKey = some key := by
  rw [DataCompactionFilter.ensureMetaState]
  split_ifs with hkey
  · exact hkey
  · rcases (b.metaCF.get key).bind f.parseMetaValue with _ | ⟨version, etime⟩ <;> rfl

theorem ensureMetaState_dataType : (f.ensureMetaState b key).dataType = f.dataType := by
  rw [DataCompactionFilter.ensureMetaState]
  split_ifs with hkey
  · rfl
  · rcases (b.metaCF.get key).bind f.parseMetaValue with _ | ⟨version, etime⟩ <;> rfl

end

theorem FilterOk.ensure (h : FilterOk d c a f)
    (hlive : ∀ key, a.liveMeta key c = b.liveMeta key c) (key : Bytes) :
    FilterOk d c a { f with filter := f.filter.ensureMetaState b key } := by
  obtain ⟨opened, hopened, hversions, hknown⟩ := h.known
  refine ⟨opened, hopened, hversions, ?_⟩
  intro key' m hkey' hm htype hstring hversion
  obtain rfl : key = key' :=
    Option.some.inj ((ensureMetaState_curKey f.filter b key).symm.trans hkey')
  replace htype : m.dataType = f.filter.dataType :=
    htype.trans (ensureMetaState_dataType f.filter b key)
  by_cases hkey : f.filter.curKey = some key
  · have hsame : f.filter.ensureMetaState b key = f.filter := by
      rw [DataCompactionFilter.ensureMetaState, if_pos hkey]
    show Knows (f.filter.ensureMetaState b key) m
    rw [hsame]
    exact hknown hkey hm htype hstring hversion
  · rw [hlive] at hm
    exact knows_ensureMetaState hkey (Redis.liveMeta_eq_some_iff.1 hm).1 htype hstring

/-- A filter does not condemn a row of a live collection that it knows. -/
theorem not_remove_of_knows {f : DataCompactionFilter} (h : Knows f m)
    (hlive : m.isStale now = false) (hstring : m.dataType ≠ .string) :
    f.decide now m.version ≠ .remove := by
  have hexpired : isExpired m.etime now = false := by
    cases m with
    | string v => exact absurd rfl hstring
    | base m | list m => exact (Bool.or_eq_false_iff.1 hlive).2
  have hetime : ¬(f.curMetaEtime ≠ 0 ∧ f.curMetaEtime < now) := by
    rintro ⟨hne, hlt⟩
    obtain ⟨hne', hle⟩ := h.etime hne
    simp [isExpired, hne', hle.trans_lt hlt] at hexpired
  have hversion : ¬f.curMetaVersion > m.version := not_lt.2 h.version
  rw [DataCompactionFilter.decide, h.found, if_neg Bool.false_ne_true, if_neg hetime,
    if_neg hversion]
  simp

/-! ### What a filter removes -/

theorem liveMeta_drop (b : Redis S) (r : Row S) (key : Bytes) :
    (b.drop r).liveMeta key c = b.liveMeta key c :=
  liveMeta_congr (congrArg (fun m : SortedMap Bytes MetaValue ↦ m.get key) (b.metaCF_drop r)) c

theorem VersionsLe.drop (h : VersionsLe c b) (r : Row S) : VersionsLe c (b.drop r) := by
  refine h.write (meets_singleton (List.mem_singleton_self _) ?_)
  cases r <;> trivial

theorem Alike.drop (h : Alike d c a b) {r : Row S} (hold : r.version ≤ d)
    (hcurrent : ¬Current c a r) : Alike d c a (b.drop r) where
  live key := (h.live key).trans (liveMeta_drop b r key).symm
  rows r' := by
    by_cases hr : r' = r
    · exact Or.inr (hr ▸ ⟨hold, hcurrent⟩)
    · rw [Redis.lookup_drop_of_ne b hr]
      exact h.rows r'
  cursors := h.cursors

theorem Alike.compactMeta (h : Alike d c a b) {now : ℕ} (hnow : now ≤ c) (key : Bytes) :
    Alike d c a (Compaction.compactMeta b now key) := by
  rw [Compaction.compactMeta]
  rcases hget : b.metaCF.get key with _ | m
  · exact h
  dsimp only
  rcases hdecision : MetaCompactionFilter.filter now m with _ | _
  · exact h
  have hstale := MetaValue.isStale_mono hnow (MetaCompactionFilter.isStale_of_remove hdecision)
  refine ⟨fun key' ↦ ?_, fun r ↦ ?_, h.cursors⟩
  · rw [h.live key']
    by_cases hkey : key' = key
    · obtain rfl := hkey
      rw [Redis.liveMeta, hget, Redis.liveMeta, Redis.dropMeta, Redis.write_metaCF]
      simp [hstale]
    · exact liveMeta_congr (SortedMap.get_erase_of_ne _ hkey).symm c
  · have hlookup : (b.dropMeta key).lookup r = b.lookup r := by cases r <;> rfl
    dsimp only
    rw [hlookup]
    exact h.rows r

theorem VersionsLe.compactMeta (h : VersionsLe c b) (now : ℕ) (key : Bytes) :
    VersionsLe c (Compaction.compactMeta b now key) := by
  rw [Compaction.compactMeta]
  rcases b.metaCF.get key with _ | m
  · exact h
  dsimp only
  rcases MetaCompactionFilter.filter now m with _ | _
  · exact h
  · exact h.write (meets_deleteMeta key)

/-- **A data filter removes only what is out of sight**, by a clock that is not later. -/
theorem Alike.compactData (h : Alike d c a b) (hf : FilterOk d c a f) (hnow : now ≤ c) {r : Row S}
    {visible : Bool} (htype : r.dataType = f.filter.dataType)
    (hvisible : visible = true → (f.snapshot.lookup r).isSome) :
    Alike d c a (Compaction.compactData f.filter b now r visible) := by
  rw [Compaction.compactData]
  rcases hdecision : (f.filter.filter b now r).1 with _ | _
  · exact h
  cases visible with
  | false => exact h
  | true =>
    obtain ⟨x, hx⟩ := Option.isSome_iff_exists.1 (hvisible rfl)
    obtain ⟨opened, hopened, hversions, hknown⟩ := (hf.ensure h.live r.key).known
    have hold : r.version ≤ opened := hversions.dataRows hx
    refine h.drop (hold.trans hopened) ?_
    rintro ⟨m, hm, hmt, hmv⟩
    have hstring : m.dataType ≠ .string := hmt ▸ r.dataType_ne_string
    have hknows := hknown (ensureMetaState_curKey ..) hm
      ((hmt.trans htype).trans (ensureMetaState_dataType ..).symm) hstring (hmv ▸ hold)
    have hlive := (Redis.liveMeta_eq_some_iff.1 (Redis.liveMeta_mono hnow hm)).2
    have hkept := not_remove_of_knows hknows hlive hstring
    rw [hmv] at hkept
    exact hkept hdecision

theorem VersionsLe.compactData (h : VersionsLe c b) (f : DataCompactionFilter) (now : ℕ) (r : Row S)
    (visible : Bool) : VersionsLe c (Compaction.compactData f b now r visible) := by
  rw [Compaction.compactData]
  rcases (f.filter b now r).1 with _ | _
  · exact h
  · cases visible with
    | false => exact h
    | true => exact h.drop r

end Relation

/-! ### Runs -/

/-- The instance without compaction and the one with it. -/
structure Rel (s : ℕ × Redis S) (t : ℕ × Machine S) : Prop where
  clock : s.1 = t.1
  alike : Alike t.1 t.1 s.2 t.2.db
  left : VersionsLe t.1 s.2
  right : VersionsLe t.1 t.2.db
  filters : ∀ id f, t.2.filters.get id = some f → FilterOk t.1 t.1 s.2 f

theorem versionsLe_empty (c : ℕ) : VersionsLe c (.empty : Redis S) := by
  refine ⟨fun hm ↦ ?_, fun {r x} hx ↦ ?_⟩
  · cases hm
  · cases r <;> cases hx

theorem rel_init : Rel (S := S) (0, .empty) (0, ⟨.empty, .empty⟩) where
  clock := rfl
  alike := ⟨fun _ ↦ rfl, fun _ ↦ Or.inl rfl, rfl⟩
  left := versionsLe_empty 0
  right := versionsLe_empty 0
  filters _ _ hf := by cases hf

theorem Rel.wait {s : ℕ × Redis S} {t : ℕ × Machine S} (h : Rel s t) {now : ℕ} (hnow : t.1 < now) :
    Rel (now, s.2) (now, t.2) where
  clock := rfl
  alike := (h.alike.raise hnow.le).of_le hnow.le
  left := h.left.of_le hnow.le
  right := h.right.of_le hnow.le
  filters id f hf := (h.filters id f hf).of_le hnow.le hnow.le

/-- **One action** answers alike with and without compaction, and keeps the two related. -/
theorem rel_step (s : ℕ × Redis S) (t : ℕ × Machine S) (x : ℕ × Action S) (h : Rel s t)
    (hguard : Guard t x) :
    (Run.timed plainStep s x).1 = (Run.timed step t x).1 ∧
      Rel (Run.next (Run.timed plainStep) s x) (Run.next (Run.timed step) t x) := by
  obtain ⟨hnow, hrows, hetime⟩ := hguard
  have hwait := h.wait hnow
  rcases x with ⟨now, action⟩
  cases action with
  | operation o =>
    have hpre : Pre t.1 now s.2 t.2.db := ⟨h.alike.of_le hnow.le, hnow, h.left, h.right⟩
    obtain ⟨hanswer, hpost⟩ := agree_operation hpre o
    refine ⟨congrArg Answer.reply hanswer, rfl, hpost.alike.raise hnow.le, hpost.left, hpost.right,
      fun id f hf ↦ (h.filters id f hf).moves hnow hnow.le fun key m' hm' hstring ↦ ?_⟩
    exact (hpost.moves key m' hm' hstring).imp_left fun ⟨m, hm, hv, ht, he⟩ ↦ ⟨m, hm, hv, ht,
      fun hremembers ↦ he.imp_right fun hset ↦
        hetime _ hset (id, f) (SortedMap.get_eq_some_iff.1 hf) hremembers⟩
  | openFilter id dataType =>
    refine ⟨rfl, rfl, hwait.alike, hwait.left, hwait.right, fun id' f hf ↦ ?_⟩
    replace hf : (t.2.filters.insert id ⟨.new dataType, t.2.db⟩).get id' = some f := hf
    rw [SortedMap.get_insert] at hf
    split_ifs at hf
    · obtain rfl := Option.some.inj hf
      exact filterOk_new hwait.right dataType
    · exact hwait.filters id' f hf
  | filterData id r visible =>
    rcases hget : t.2.filters.get id with _ | f
    · simp only [Run.next, Run.timed, step, plainStep, hget]
      exact ⟨trivial, hwait⟩
    obtain ⟨htype, hvisible⟩ := hrows f hget
    have hf := hwait.filters id f hget
    simp only [Run.next, Run.timed, step, plainStep, hget]
    refine ⟨trivial, rfl, hwait.alike.compactData hf le_rfl htype hvisible, hwait.left,
      hwait.right.compactData f.filter now r visible, fun id' f' hf' ↦ ?_⟩
    rw [SortedMap.get_insert] at hf'
    split_ifs at hf'
    · obtain rfl := Option.some.inj hf'
      exact hf.ensure hwait.alike.live r.key
    · exact hwait.filters id' f' hf'
  | closeFilter id =>
    refine ⟨rfl, rfl, hwait.alike, hwait.left, hwait.right, fun id' f hf ↦ ?_⟩
    replace hf : (t.2.filters.erase id).get id' = some f := hf
    rw [SortedMap.get_erase] at hf
    split_ifs at hf
    exact hwait.filters id' f hf
  | filterMeta key =>
    exact ⟨rfl, rfl, hwait.alike.compactMeta le_rfl key, hwait.left,
      hwait.right.compactMeta now key, hwait.filters⟩

/-- **Compaction is invisible** along every run in which no expiry time is put off or taken away
while a data filter remembers it: the instance that loses what its filters remove answers every
operation as the instance without compaction. -/
theorem compaction_invisible (actions : List (ℕ × Action S))
    (h : Run.Allowed (Run.next (Run.timed step)) Guard (0, ⟨.empty, .empty⟩) actions) :
    Run.answers (Run.timed plainStep) (0, .empty) actions =
      Run.answers (Run.timed step) (0, ⟨.empty, .empty⟩) actions :=
  (Run.simulation rel_step rel_init h).1

/-- The row of a field of the hash that was created at time 1. -/
def fieldRow (field : Bytes) : Row ℤ := .hash ⟨[1], 1, field⟩

/-- A hash expires, a filter removes its rows and another its meta value, and it is created
again. -/
def expireAndRecreate : List (ℕ × Action ℤ) :=
  [(1, .operation (.hash (.hset [1] [97] [120]))),
    (2, .operation (.string (.setKeyEtime [1] 10))),
    (3, .openFilter 0 .hash),
    (11, .filterData 0 (fieldRow [97]) true),
    (12, .filterMeta [1]),
    (13, .operation (.hash (.hset [1] [98] [121]))),
    (14, .operation (.hash (.hget [1] [97])))]

/-- The run is allowed, so the read at its end finds what it finds without compaction. -/
theorem compaction_invisible_expireAndRecreate :
    Run.Allowed (Run.next (Run.timed step)) Guard (0, ⟨.empty, .empty⟩) expireAndRecreate ∧
      (Run.answers (Run.timed step) (0, ⟨.empty, .empty⟩) expireAndRecreate).getLast? =
        some (.reply (.ok (none : Option Bytes))) := by
  have hallowed :
      Run.Allowed (Run.next (Run.timed step)) Guard (0, ⟨.empty, .empty⟩) expireAndRecreate := by
    decide +kernel
  refine ⟨hallowed, ?_⟩
  rw [← compaction_invisible expireAndRecreate hallowed]
  rfl

/-- Two fields and an expiry time, which is taken away after a filter has seen the first field. -/
def persistUnderFilter : List (ℕ × Action ℤ) :=
  [(1, .operation (.hash (.hmset [1] [([97], [120]), ([98], [121])]))),
    (2, .operation (.string (.setKeyEtime [1] 10))),
    (3, .openFilter 0 .hash),
    (4, .filterData 0 (fieldRow [97]) true),
    (5, .operation (.string (.setKeyEtime [1] 0))),
    (11, .filterData 0 (fieldRow [98]) true),
    (12, .operation (.hash (.hget [1] [98])))]

/-- The filter removes the second field of a hash that has no expiry time any more. -/
theorem persist_under_filter_loses_field :
    (Run.answers (Run.timed plainStep) (0, .empty) persistUnderFilter).getLast? =
        some (.reply (.ok (some ([121] : Bytes)))) ∧
      (Run.answers (Run.timed step) (0, ⟨.empty, .empty⟩) persistUnderFilter).getLast? =
        some (.reply (.ok (none : Option Bytes))) :=
  ⟨rfl, rfl⟩

/-! ### What is stored after a run -/

variable (actions : List (ℕ × Action S))

/-- **Live data survive.** Under the same conditions, the live meta values and the rows of live
collections are after the run those of the instance without compaction. -/
theorem live_data_survive
    (h : Run.Allowed (Run.next (Run.timed step)) Guard (0, ⟨.empty, .empty⟩) actions) :
    let s := Run.final (Run.next (Run.timed plainStep)) (0, .empty) actions
    let t := Run.final (Run.next (Run.timed step)) (0, ⟨.empty, .empty⟩) actions
    (∀ key, t.2.db.liveMeta key t.1 = s.2.liveMeta key t.1) ∧
      ∀ r, Current t.1 s.2 r → t.2.db.lookup r = s.2.lookup r := by
  intro s t
  have hrel : Rel s t := (Run.simulation rel_step rel_init h).2
  refine ⟨fun key ↦ (hrel.alike.live key).symm, fun r hr ↦ Eq.symm ?_⟩
  exact (hrel.alike.rows r).resolve_right fun hold ↦ hold.2 hr

theorem live_data_survive_expireAndRecreate :
    (Run.final (Run.next (Run.timed step)) (0, ⟨.empty, .empty⟩) expireAndRecreate).2.db.lookup
        (.hash ⟨[1], 13, [98]⟩) =
      (Run.final (Run.next (Run.timed plainStep)) (0, .empty) expireAndRecreate).2.lookup
        (.hash ⟨[1], 13, [98]⟩) :=
  (live_data_survive expireAndRecreate (by decide +kernel)).2 _
    ⟨.base ⟨.hash, 1, 13, 13, 0⟩, rfl, rfl, rfl⟩

/-- **Versions stay behind the clock** if it advances, whatever the filters do. -/
theorem versions_behind_clock
    (h : Run.Allowed (Run.next (Run.timed step)) (fun t a ↦ t.1 < a.1) (0, ⟨.empty, .empty⟩)
      actions) :
    let t := Run.final (Run.next (Run.timed step)) (0, (⟨.empty, .empty⟩ : Machine S)) actions
    VersionsLe t.1 t.2.db := by
  refine Run.invariant (I := fun t ↦ VersionsLe t.1 t.2.db) (fun t a ht hlt ↦ ?_)
    (versionsLe_empty 0) h
  obtain ⟨now, action⟩ := a
  have hwait : VersionsLe now t.2.db := ht.of_le hlt.le
  cases action with
  | operation o => exact (agree_operation (ht.pre hlt) o).2.left
  | openFilter | closeFilter => exact hwait
  | filterMeta key => exact hwait.compactMeta now key
  | filterData id r visible =>
    simp only [Run.next, Run.timed, step]
    split
    · exact hwait
    · exact hwait.compactData _ now r visible

theorem versions_behind_clock_persistUnderFilter : VersionsLe 12
    (Run.final (Run.next (Run.timed step)) (0, ⟨.empty, .empty⟩) persistUnderFilter).2.db :=
  versions_behind_clock persistUnderFilter (by decide)

end Kiwi.Compaction
