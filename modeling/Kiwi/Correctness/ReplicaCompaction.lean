import Kiwi.Raft.Replicas

/-!
# Compaction on replicas

A follower decides by its own clock which entries are garbage, while later binlogs of the leader
assume that they are still there: the leader takes the expiry time of a hash away before its own
clock reaches it, and a follower whose clock was ahead has dropped the fields
(`persist_after_drop_diverges`).

`replicas_read_alike` is what holds. Every node differs from the contents of the binlogs that it has
applied only in what is out of sight, at the later of the clock of its latest drop and the clock of
the last of those binlogs (`NodeOk`). Binlogs keep this so, if the leader's clock advances between
operations, if no node applies a binlog that is older than its latest drop, unless the binlog brings
nothing back into sight, and if no binlog puts off an expiry time that a filter at work on the node
remembers (`Steady`). Reads that are later than the last binlog and not earlier than a drop then
agree.
-/

namespace Kiwi

variable {S : Type} [Score S]

namespace Compaction

/-! ### Databases that differ out of sight -/

variable {d c c' now : ℕ} {a b : Redis S}

theorem Alike.refl (d c : ℕ) (a : Redis S) : Alike d c a a :=
  ⟨fun _ ↦ rfl, fun _ ↦ Or.inl rfl, rfl⟩

theorem current_iff (h : Alike d c a b) (r : Row S) : Current c a r ↔ Current c b r := by
  rw [Current, Current, h.live]

theorem Alike.symm (h : Alike d c a b) : Alike d c b a :=
  ⟨fun key ↦ (h.live key).symm,
    fun r ↦ (h.rows r).imp Eq.symm fun hr ↦ ⟨hr.1, fun hc ↦ hr.2 ((current_iff h r).2 hc)⟩,
    h.cursors.symm⟩

variable {w : Batch S}

theorem moves_of_alike {P : Bytes → MetaValue → MetaValue → Prop}
    (h : Alike d now a b) (hmoves : Moves P now a (a.write w)) : Moves P now b (b.write w) := by
  intro key m' hm' hstring
  rcases Redis.metaCF_write_cases w key with hdecided | hsame
  · rw [liveMeta_congr (hdecided b a)] at hm'
    refine (hmoves key m' hm' hstring).imp_left fun ⟨m, hm, hrest⟩ ↦ ⟨m, ?_, hrest⟩
    rwa [← h.live key]
  · rw [liveMeta_congr (hsame b)] at hm'
    refine (hmoves key m' ?_ hstring).imp_left fun ⟨m, hm, hrest⟩ ↦ ⟨m, ?_, hrest⟩
    · rwa [liveMeta_congr (hsame a), h.live key]
    · rwa [← h.live key]

theorem versionsLe_write (ha : VersionsLe now (a.write w)) (hb : VersionsLe now b) :
    VersionsLe now (b.write w) := by
  refine ⟨fun {key m} hm ↦ ?_, fun {r x} hx ↦ ?_⟩
  · rcases Redis.metaCF_write_cases w key with hdecided | hsame
    · exact ha.metaRows ((hdecided a b).trans hm)
    · exact hb.metaRows ((hsame b).symm.trans hm)
  · rcases Redis.lookup_write_cases w r with hdecided | hsame
    · exact ha.dataRows ((hdecided a b).trans hx)
    · exact hb.dataRows ((hsame b).symm.trans hx)

/-- At the clock `c`, a batch of the clock `now` brings nothing back into sight: a collection that
is live after it was live before, under the same version and type, or is new. -/
def NoRevival (now c : ℕ) (db : Redis S) (b : Batch S) : Prop :=
  ∀ key m', (db.write b).liveMeta key c = some m' → m'.dataType ≠ .string →
    (∃ m, db.liveMeta key c = some m ∧ m'.version = m.version ∧ m'.dataType = m.dataType) ∨
      m'.version = now

/-- The batch does not put off an expiry time that the filter remembers. -/
def KeepsEtime (f : DataCompactionFilter) (db : Redis S) (b : Batch S) : Prop :=
  ∀ key m m', Remembers f key → db.metaCF.get key = some m →
    (db.write b).metaCF.get key = some m' → m'.version = m.version →
    m'.etime = m.etime ∨ m'.etime ≠ 0 ∧ m'.etime ≤ f.curMetaEtime

theorem noRevival_of_moves (h : Moves (fun _ _ _ ↦ True) now a (a.write w)) : NoRevival now now a w :=
  fun key m' hm' hstring ↦ (h key m' hm' hstring).imp_left fun ⟨m, hm, hv, ht, _⟩ ↦ ⟨m, hm, hv, ht⟩

theorem Alike.write_of_noRevival (h : Alike d c a b) (hd : d < now) (hw : NoRevival now c a w) :
    Alike d c (a.write w) (b.write w) := by
  refine h.write_of_rows fun r ↦ Or.inr fun hle hold hcurrent ↦ ?_
  obtain ⟨m', hm', ht, hv⟩ := hcurrent
  rcases hw r.key m' hm' (ht ▸ r.dataType_ne_string) with ⟨m, hm, hv', ht'⟩ | hnew
  · exact hold ⟨m, hm, ht'.symm.trans ht, hv'.symm.trans hv⟩
  · omega

theorem FilterOk.write {f : OpenFilter S} (h : FilterOk d c a f) (hd : d < now) (hc : c ≤ c')
    (hw : NoRevival now c' a w) (hf : KeepsEtime f.filter a w) : FilterOk now c' (a.write w) f := by
  refine h.moves hd hc fun key m' hm' hstring ↦ ?_
  refine (hw key m' hm' hstring).imp_left fun ⟨m, hm, hv, ht⟩ ↦ ⟨m, hm, hv, ht, fun hremembers ↦ ?_⟩
  exact hf key m m' hremembers (Redis.liveMeta_eq_some_iff.1 hm).1
    (Redis.liveMeta_eq_some_iff.1 hm').1 hv

end Compaction

namespace Raft

open Compaction

/-! ### The condition -/

/-- What the nodes would have to make sure: the leader's clock advances, a node that has dropped
entries at a clock later than that of the operation applies its binlog only if it revives nothing,
and no binlog puts off an expiry time that a filter at work on the node remembers. -/
def Steady (s : Replicas S) : ReplicaAction S → Prop
  | .operate _ now binlog => (s.nodes 0).clock < now ∧
    ∀ p ∈ (s.nodes 0).filters.rows, KeepsEtime p.2.filter (contentsOf s.log) binlog
  | .apply node => ∀ entry ∈ s.log[(s.nodes node).applied]?,
    ((s.nodes node).dropped ≤ entry.1 ∨ NoRevival entry.1 (s.nodes node).dropped
      (contentsOf (s.log.take (s.nodes node).applied)) entry.2) ∧
    ∀ p ∈ (s.nodes node).filters.rows,
      KeepsEtime p.2.filter (contentsOf (s.log.take (s.nodes node).applied)) entry.2
  | _ => True

/-! ### The invariant -/

variable (log : List (ℕ × Batch S))

theorem contentsOf_concat (now : ℕ) (b : Batch S) :
    contentsOf (log ++ [(now, b)]) = (contentsOf log).write b :=
  List.foldl_append

omit [Score S] in
theorem clockOf_concat (now : ℕ) (b : Batch S) : clockOf (log ++ [(now, b)]) = now := by
  rw [clockOf, List.getLast?_concat]
  rfl

/-- The binlogs of a run: what each does to the contents, at the clock of its operation. -/
inductive Recorded : List (ℕ × Batch S) → Prop
  | nil : Recorded []
  | concat {log : List (ℕ × Batch S)} {now : ℕ} {b : Batch S} (before : Recorded log)
      (clock : clockOf log < now)
      (moves : Moves (fun _ _ _ ↦ True) now (contentsOf log) ((contentsOf log).write b))
      (versions : VersionsLe now ((contentsOf log).write b)) : Recorded (log ++ [(now, b)])

variable {log : List (ℕ × Batch S)}

theorem Recorded.versionsLe (h : Recorded log) : VersionsLe (clockOf log) (contentsOf log) := by
  cases h with
  | nil => exact versionsLe_empty 0
  | concat before clock moves versions =>
    rw [clockOf_concat, contentsOf_concat]
    exact versions

theorem Recorded.take (h : Recorded log) (k : ℕ) : Recorded (log.take k) := by
  induction h with
  | nil =>
    rw [List.take_nil]
    exact .nil
  | @concat log now b before clock moves versions ih =>
    rcases Nat.lt_or_ge log.length k with hlt | hge
    · rw [List.take_of_length_le (by rw [List.length_append]; exact hlt)]
      exact .concat before clock moves versions
    · rw [List.take_append_of_le_length hge]
      exact ih

variable {now : ℕ} {b : Batch S}

theorem Recorded.entry (h : Recorded (log ++ [(now, b)])) :
    clockOf log < now ∧ Moves (fun _ _ _ ↦ True) now (contentsOf log) ((contentsOf log).write b) ∧
      VersionsLe now ((contentsOf log).write b) := by
  generalize hlog : log ++ [(now, b)] = full at h
  cases h with
  | nil => exact absurd hlog (by simp)
  | concat before clock moves versions =>
    obtain ⟨rfl, hentry⟩ := List.append_inj' hlog rfl
    obtain ⟨rfl, rfl⟩ := Prod.mk.inj (List.cons.inj hentry).1
    exact ⟨clock, moves, versions⟩

/-- A node holds what its binlogs left, up to what is out of sight. -/
structure NodeOk (log : List (ℕ × Batch S)) (node : Replica S) : Prop where
  /-- It has applied binlogs of the log. -/
  applied : node.applied ≤ log.length
  /-- Its clock has not gone back. -/
  dropped : node.dropped ≤ node.clock
  /-- Versions are as old as the binlogs. -/
  versions : VersionsLe (clockOf (log.take node.applied)) node.db
  alike : Alike (clockOf (log.take node.applied))
    (max node.dropped (clockOf (log.take node.applied)))
    (contentsOf (log.take node.applied)) node.db
  /-- Its filters know what is live. -/
  filters : ∀ id f, node.filters.get id = some f → FilterOk (clockOf (log.take node.applied))
    (max node.dropped (clockOf (log.take node.applied))) (contentsOf (log.take node.applied)) f

/-- What holds between any two steps. -/
structure Faithful (s : Replicas S) : Prop where
  /-- The binlogs are those of operations. -/
  recorded : Recorded s.log
  /-- The leader has applied all of them. -/
  leader : (s.nodes 0).applied = s.log.length
  /-- The leader's clock is not before the last one. -/
  clock : clockOf s.log ≤ (s.nodes 0).clock
  /-- Every node is faithful to the log. -/
  nodes : ∀ n, NodeOk s.log (s.nodes n)

section Step

variable {s : Replicas S}

variable {node : Replica S}

/-- A longer log does not matter to a node. -/
theorem NodeOk.append (h : NodeOk log node)
    (entries : List (ℕ × Batch S)) : NodeOk (log ++ entries) node := by
  have htake : (log ++ entries).take node.applied = log.take node.applied :=
    List.take_append_of_le_length h.applied
  refine ⟨h.applied.trans ?_, h.dropped, ?_, ?_, ?_⟩
  · rw [List.length_append]
    exact Nat.le_add_right ..
  · rw [htake]
    exact h.versions
  · rw [htake]
    exact h.alike
  · rw [htake]
    exact h.filters

/-- **A node applies a binlog**, and holds the contents of one binlog more up to dead data. -/
theorem NodeOk.apply (hlog : Recorded log)
    (h : NodeOk log node) (hentry : log[node.applied]? = some (now, b))
    (hsteady : node.dropped ≤ now ∨
      NoRevival now node.dropped (contentsOf (log.take node.applied)) b)
    (hetimes : ∀ p ∈ node.filters.rows,
      KeepsEtime p.2.filter (contentsOf (log.take node.applied)) b) :
    NodeOk log { node with db := node.db.write b, applied := node.applied + 1 } := by
  obtain ⟨hlt, hget⟩ := List.getElem?_eq_some_iff.1 hentry
  have htake : log.take (node.applied + 1) = log.take node.applied ++ [(now, b)] := by
    rw [List.take_succ_eq_append_getElem hlt, hget]
  obtain ⟨hclock, hmoves, hversions⟩ := (htake ▸ hlog.take (node.applied + 1)).entry
  have hclock' : clockOf (log.take (node.applied + 1)) = now := by rw [htake, clockOf_concat]
  have hcontents : contentsOf (log.take (node.applied + 1)) =
      (contentsOf (log.take node.applied)).write b := by rw [htake, contentsOf_concat]
  have hsight : NoRevival now (max node.dropped now) (contentsOf (log.take node.applied)) b := by
    rcases le_or_gt node.dropped now with hle | hgt
    · -- the operation is later than everything that was dropped
      rw [max_eq_right hle]
      exact noRevival_of_moves hmoves
    · rw [max_eq_left hgt.le]
      exact hsteady.resolve_left (not_le.2 hgt)
  have hle : max node.dropped (clockOf (log.take node.applied)) ≤ max node.dropped now :=
    max_le_max_left _ hclock.le
  refine ⟨hlt, h.dropped, ?_, ?_, fun id f hf ↦ ?_⟩
  · rw [hclock']
    exact versionsLe_write hversions (h.versions.of_le hclock.le)
  · rw [hclock', hcontents]
    exact ((h.alike.of_le hle).write_of_noRevival hclock hsight).raise hclock.le
  · rw [hclock', hcontents]
    exact (h.filters id f hf).write hclock hle hsight
      (hetimes (id, f) (SortedMap.get_eq_some_iff.1 hf))

theorem NodeOk.drop (h : NodeOk log node) (hnow : node.clock ≤ now) {db : Redis S}
    (hversions : VersionsLe (clockOf (log.take node.applied)) db)
    (halike : ∀ c, now ≤ c → Alike (clockOf (log.take node.applied)) c
      (contentsOf (log.take node.applied)) node.db →
      (∀ id f, node.filters.get id = some f →
        FilterOk (clockOf (log.take node.applied)) c (contentsOf (log.take node.applied)) f) →
      Alike (clockOf (log.take node.applied)) c (contentsOf (log.take node.applied)) db) :
    NodeOk log { node with db, clock := now, dropped := now } := by
  have hle : max node.dropped (clockOf (log.take node.applied)) ≤
      max now (clockOf (log.take node.applied)) := max_le_max_right _ (h.dropped.trans hnow)
  have hfilters := fun id f hf ↦ (h.filters id f hf).of_le le_rfl hle
  exact ⟨h.applied, le_rfl, hversions, halike _ (le_max_left ..) (h.alike.of_le hle) hfilters,
    hfilters⟩

/-- **The leader executes an operation.** -/
theorem Faithful.operate (h : Faithful s) {α : Type} (o : Operation S α)
    (hnow : (s.nodes 0).clock < now)
    (hetimes : ∀ p ∈ (s.nodes 0).filters.rows, KeepsEtime p.2.filter (contentsOf s.log) b)
    (hbinlog : ((o.run now).exec (s.nodes 0).db).2 = (s.nodes 0).db.write b) :
    Faithful (s.step (.operate o now b)) := by
  have hleader := h.nodes 0
  have htake : s.log.take (s.nodes 0).applied = s.log := by rw [h.leader, List.take_length]
  have hversions := hleader.versions
  have halike := hleader.alike
  have hfilters := hleader.filters
  rw [htake] at hversions halike hfilters
  have hclock : clockOf s.log < now := h.clock.trans_lt hnow
  have hdropped : (s.nodes 0).dropped ≤ now := hleader.dropped.trans hnow.le
  replace halike := halike.of_le (max_le hdropped hclock.le)
  -- the operation on the leader's own contents
  have hpost := (agree_operation ⟨Alike.refl _ _ _, hclock, hversions, hversions⟩ o).2
  rw [hbinlog] at hpost
  have hmoves : Moves (fun _ _ _ ↦ True) now (s.nodes 0).db ((s.nodes 0).db.write b) :=
    fun key m' hm' hstring ↦ (hpost.moves key m' hm' hstring).imp_left
      fun ⟨m, hm, hv, ht, _⟩ ↦ ⟨m, hm, hv, ht, trivial⟩
  replace hmoves := moves_of_alike halike.symm hmoves
  have hrecorded : Recorded (s.log ++ [(now, b)]) :=
    .concat h.recorded hclock hmoves
      (versionsLe_write hpost.left (h.recorded.versionsLe.of_le hclock.le))
  have happlied : (s.log ++ [(now, b)]).take ((s.nodes 0).applied + 1) = s.log ++ [(now, b)] := by
    rw [h.leader]
    exact List.take_of_length_le (by rw [List.length_append]; rfl)
  refine ⟨hrecorded, ?_, ?_, fun n ↦ ?_⟩
  · simp [Replicas.step, Replicas.setNode, h.leader]
  · simp [Replicas.step, Replicas.setNode, clockOf_concat]
  · rcases eq_or_ne n 0 with rfl | hne
    · have hnode : NodeOk (s.log ++ [(now, b)]) { s.nodes 0 with
          db := (s.nodes 0).db.write b, applied := (s.nodes 0).applied + 1, clock := now } := by
        refine ⟨?_, hdropped, ?_, ?_, fun id f hf ↦ ?_⟩
        · rw [List.length_append, h.leader]
          rfl
        · rw [happlied, clockOf_concat]
          exact hpost.left
        · rw [happlied, clockOf_concat, contentsOf_concat, max_eq_right hdropped]
          exact (halike.write hclock hmoves).raise hclock.le
        · rw [happlied, clockOf_concat, contentsOf_concat, max_eq_right hdropped]
          exact (hfilters id f hf).write hclock (max_le hdropped hclock.le)
            (noRevival_of_moves hmoves) (hetimes (id, f) (SortedMap.get_eq_some_iff.1 hf))
      simpa [Replicas.step, Replicas.setNode, hbinlog] using hnode
    · simpa [Replicas.step, Replicas.setNode, hne] using (h.nodes n).append [(now, b)]

theorem Faithful.setNode (h : Faithful s) {n : ℕ} (hnode : NodeOk s.log node)
    (happlied : node.applied = (s.nodes n).applied ∨ n ≠ 0)
    (hclock : (s.nodes n).clock ≤ node.clock) : Faithful (s.setNode n node) := by
  refine ⟨h.recorded, ?_, ?_, fun n' ↦ ?_⟩
  · rcases eq_or_ne n 0 with rfl | hne
    · rw [Replicas.nodes_setNode_self, happlied.resolve_right (not_not.2 rfl)]
      exact h.leader
    · rw [Replicas.nodes_setNode_of_ne s hne.symm]
      exact h.leader
  · rcases eq_or_ne n 0 with rfl | hne
    · rw [Replicas.nodes_setNode_self]
      exact h.clock.trans hclock
    · rw [Replicas.nodes_setNode_of_ne s hne.symm]
      exact h.clock
  · rcases eq_or_ne n' n with rfl | hne
    · rw [Replicas.nodes_setNode_self]
      exact hnode
    · rw [Replicas.nodes_setNode_of_ne s hne]
      exact h.nodes n'

/-- **One steady step** keeps every node at the contents of the binlogs that it has applied. -/
theorem faithful_step (h : Faithful s) {action : ReplicaAction S} (hpossible : s.Possible action)
    (hsteady : Steady s action) : Faithful (s.step action) := by
  cases action with
  | operate o now b => exact h.operate o hsteady.1 hsteady.2 hpossible.2
  | apply node =>
    rw [Replicas.step]
    split
    · exact h
    · rename_i now b hentry
      obtain ⟨hdropped, hetimes⟩ := hsteady _ hentry
      refine h.setNode ((h.nodes node).apply h.recorded hentry hdropped hetimes) ?_ le_rfl
      -- the leader has nothing left to apply
      refine Or.inr fun hzero ↦ ?_
      subst hzero
      rw [h.leader, List.getElem?_eq_none le_rfl] at hentry
      cases hentry
  | dropMeta node now key =>
    have hnode := h.nodes node
    exact h.setNode (hnode.drop hpossible (hnode.versions.compactMeta now key)
      fun c hc halike _ ↦ halike.compactMeta hc key) (Or.inl rfl) hpossible
  | openFilter node id dataType =>
    have hnode := h.nodes node
    refine h.setNode ⟨hnode.applied, hnode.dropped, hnode.versions, hnode.alike, fun id' f hf ↦ ?_⟩
      (Or.inl rfl) le_rfl
    dsimp only at hf
    rw [SortedMap.get_insert] at hf
    split_ifs at hf
    · obtain rfl := Option.some.inj hf
      exact filterOk_new hnode.versions dataType
    · exact hnode.filters id' f hf
  | filterData node now id r visible =>
    have hnode := h.nodes node
    rw [Replicas.step]
    rcases hget : (s.nodes node).filters.get id with _ | f
    · exact h
    obtain ⟨hnow, hrow⟩ := hpossible
    obtain ⟨htype, hvisible⟩ := hrow f hget
    have hdrop := hnode.drop hnow (hnode.versions.compactData f.filter now r visible)
      fun c hc halike hfilters ↦ halike.compactData (hfilters id f hget) hc htype hvisible
    refine h.setNode ⟨hdrop.applied, hdrop.dropped, hdrop.versions, hdrop.alike, fun id' f' hf' ↦ ?_⟩
      (Or.inl rfl) hnow
    dsimp only at hf'
    rw [SortedMap.get_insert] at hf'
    split_ifs at hf'
    · obtain rfl := Option.some.inj hf'
      refine (hdrop.filters id f hget).ensure (fun key ↦ ?_) r.key
      exact (hnode.alike.of_le (max_le_max_right _ (hnode.dropped.trans hnow))).live key
    · exact hdrop.filters id' f' hf'
  | closeFilter node id =>
    have hnode := h.nodes node
    refine h.setNode ⟨hnode.applied, hnode.dropped, hnode.versions, hnode.alike, fun id' f hf ↦ ?_⟩
      (Or.inl rfl) le_rfl
    dsimp only at hf
    rw [SortedMap.get_erase] at hf
    split_ifs at hf
    exact hnode.filters id' f hf

end Step

/-! ### Runs -/

theorem faithful_init : Faithful ({} : Replicas S) where
  recorded := .nil
  leader := rfl
  clock := le_rfl
  nodes _ := ⟨le_rfl, le_rfl, versionsLe_empty 0, Alike.refl .., fun _ _ hf ↦ by cases hf⟩

/-- **Replicas read alike.** In every run whose steps are steady, a follower that has applied all
binlogs gives the same answer to every operation as the leader, when both are asked at a clock that
is later than the last operation and not earlier than a drop on one of them. -/
theorem replicas_read_alike (actions : List (ReplicaAction S))
    (h : Run.Allowed Replicas.step (fun s action ↦ s.Possible action ∧ Steady s action) {} actions)
    (node t : ℕ)
    (happlied : ((Run.final Replicas.step {} actions).nodes node).applied =
      (Run.final Replicas.step {} actions).log.length)
    (hoperations : clockOf (Run.final Replicas.step {} actions).log < t)
    (hleader : ((Run.final Replicas.step {} actions).nodes 0).dropped ≤ t)
    (hfollower : ((Run.final Replicas.step {} actions).nodes node).dropped ≤ t) {α : Type}
    (o : Operation S α) :
    ((o.run t).exec ((Run.final Replicas.step {} actions).nodes 0).db).1 =
      ((o.run t).exec ((Run.final Replicas.step {} actions).nodes node).db).1 := by
  have hfaithful := Run.invariant (I := Faithful)
    (fun _ _ hs hok ↦ faithful_step hs hok.1 hok.2) faithful_init h
  generalize Run.final Replicas.step {} actions = s at *
  have hlog := hfaithful.recorded.versionsLe
  -- both answer as the contents of the log would
  have hanswer {n : ℕ} (hn : (s.nodes n).applied = s.log.length)
      (hdropped : (s.nodes n).dropped ≤ t) :
      ((o.run t).exec (contentsOf s.log)).1 = ((o.run t).exec (s.nodes n).db).1 := by
    have hnode := hfaithful.nodes n
    have htake : s.log.take (s.nodes n).applied = s.log := by rw [hn, List.take_length]
    have hversions := hnode.versions
    have halike := hnode.alike
    rw [htake] at hversions halike
    have hpre : Pre (clockOf s.log) t (contentsOf s.log) (s.nodes n).db :=
      ⟨halike.of_le (max_le hdropped hoperations.le), hoperations, hlog, hversions⟩
    exact (agree_operation hpre o).1
  exact (hanswer hfaithful.leader hleader).symm.trans (hanswer happlied hfollower)

/-- A hash with an expiry time, which a follower has as well. -/
def expiringHash : List (ReplicaAction ℤ) :=
  [.operate (.hash (.hset [1] [97] [120])) 1 (Hashes.createNewHash [1] [([97], [120])] 1),
    .operate (.string (.setKeyEtime [1] 10)) 2
      [.metaCF [1] (some (.base ⟨.hash, 1, 1, 1, 10⟩))],
    .apply 1,
    .apply 1]

/-- The follower drops the field that has expired, and the leader creates the hash again. -/
def dropAndRecreate : List (ReplicaAction ℤ) :=
  expiringHash ++
    [.openFilter 1 0 .hash, .filterData 1 20 0 (fieldRow [97]) true,
      .operate (.hash (.hset [1] [98] [121])) 25 (Hashes.createNewHash [1] [([98], [121])] 25),
      .apply 1]

/-- The run is steady. -/
theorem allowed_dropAndRecreate :
    Run.Allowed Replicas.step (fun s action ↦ s.Possible action ∧ Steady s action) {}
      dropAndRecreate := by
  refine ⟨⟨⟨by decide, rfl⟩, (by decide : 0 < 1), nofun⟩,
    ⟨⟨by decide, rfl⟩, (by decide : 1 < 2), nofun⟩, ⟨trivial, ?_⟩, ⟨trivial, ?_⟩,
    ⟨trivial, trivial⟩, ⟨⟨(by decide : 0 ≤ 20), fun f hf ↦ ?_⟩, trivial⟩,
    ⟨⟨by decide, rfl⟩, (by decide : 2 < 25), nofun⟩, ⟨trivial, ?_⟩, trivial⟩
  · rintro entry hentry
    obtain rfl := Option.some.inj hentry
    exact ⟨Or.inl (by decide), nofun⟩
  · rintro entry hentry
    obtain rfl := Option.some.inj hentry
    exact ⟨Or.inl (by decide), nofun⟩
  · obtain rfl := Option.some.inj hf
    exact ⟨rfl, fun _ ↦ rfl⟩
  · -- the filter is still at work, but the hash has a new version
    rintro entry hentry
    obtain rfl := Option.some.inj hentry
    refine ⟨Or.inl (by decide), fun p hp key m m' hremembers hm hm' hversion ↦ ?_⟩
    obtain rfl := List.mem_singleton.1 hp
    obtain rfl : [1] = key := Option.some.inj hremembers.1
    obtain rfl : .base ⟨.hash, 1, 1, 1, 10⟩ = m := Option.some.inj hm
    obtain rfl : .base ⟨.hash, 1, 25, 25, 0⟩ = m' := Option.some.inj hm'
    exact absurd hversion (by decide)

/-- The follower, which holds less, answers as the leader. -/
theorem replicas_read_alike_recreated :
    ((Run.final Replicas.step {} dropAndRecreate).nodes 1).db.lookup (fieldRow [97]) = none ∧
      (((Operation.hash (.hget [1] [97])).run 30).exec
          ((Run.final Replicas.step {} dropAndRecreate).nodes 0).db).1 =
        (((Operation.hash (.hget [1] [97])).run 30).exec
          ((Run.final Replicas.step {} dropAndRecreate).nodes 1).db).1 :=
  ⟨rfl, replicas_read_alike dropAndRecreate allowed_dropAndRecreate 1 30 rfl (by decide) (by decide)
    (by decide) _⟩

/-- The follower drops the field by a clock that is ahead, and the leader takes the expiry time
away. -/
def dropAndPersist : List (ReplicaAction ℤ) :=
  expiringHash ++
    [.openFilter 1 0 .hash, .filterData 1 20 0 (fieldRow [97]) true,
      .operate (.string (.setKeyEtime [1] 0)) 5
        [.metaCF [1] (some (.base ⟨.hash, 1, 1, 1, 0⟩))],
      .apply 1]

/-- **The replicas diverge**: the binlog of `PERSIST` holds the meta value alone, so the field that
the follower has dropped is missing there for good. -/
theorem persist_after_drop_diverges :
    Run.Allowed Replicas.step Replicas.Possible {} dropAndPersist ∧
      (∀ node < 2, ((Run.final Replicas.step {} dropAndPersist).nodes node).applied = 3 ∧
        ((Run.final Replicas.step {} dropAndPersist).nodes node).clock ≤ 30) ∧
      (((Operation.hash (.hget [1] [97])).run 30).exec
          ((Run.final Replicas.step {} dropAndPersist).nodes 0).db).1 = .ok (some [120]) ∧
      (((Operation.hash (.hget [1] [97])).run 30).exec
          ((Run.final Replicas.step {} dropAndPersist).nodes 1).db).1 = .ok none :=
  ⟨⟨⟨by decide, rfl⟩, ⟨by decide, rfl⟩, trivial, trivial, trivial, ⟨(by decide : 0 ≤ 20), fun f hf ↦ by
    obtain rfl := Option.some.inj hf
    exact ⟨rfl, fun _ ↦ rfl⟩⟩, ⟨by decide, rfl⟩, trivial, trivial⟩, by decide, rfl, rfl⟩

/-- **Replicas hold their prefix.** In every run whose steps are steady, a node differs from the
contents of the binlogs that it has applied, however many these are, only in what is out of sight.
-/
theorem replicas_hold_prefix (actions : List (ReplicaAction S))
    (h : Run.Allowed Replicas.step (fun s action ↦ s.Possible action ∧ Steady s action) {} actions)
    (node : ℕ) : let s := Run.final Replicas.step {} actions
    NodeOk s.log (s.nodes node) :=
  (Run.invariant (I := Faithful) (fun _ _ hs hok ↦ faithful_step hs hok.1 hok.2) faithful_init
    h).nodes node

/-- The follower that holds less, while its filter is open. -/
theorem replicas_hold_prefix_recreated : let s := Run.final Replicas.step {} dropAndRecreate
    (s.nodes 1).filters.size = 1 ∧ NodeOk s.log (s.nodes 1) :=
  ⟨rfl, replicas_hold_prefix dropAndRecreate allowed_dropAndRecreate 1⟩

end Raft

end Kiwi
