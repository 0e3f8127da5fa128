import Kiwi.Storage.LogIndex
import Kiwi.Lib.Run

/-!
# The flush watermark

`get_global_smallest_flushed_log_index` bounds how far the Raft log may be purged: every write of a
binlog up to it should be in an SST file. It is not so. The tracker raises the flush marks of other
column families when it takes them to have nothing pending, which it sees by comparing their flushed
mark with their applied mark; but nothing raises the applied marks on the write path, so every other
family looks flushed. After one binlog that writes to two families, a flush of one of them moves the
watermark past the other (`watermark_passes_unflushed_write`).

The watermark is sound in every run in which a flush finds no unflushed write of another family
below its largest sequence number (`OthersFlushed`, `watermark_sound`). What is shared by all marks
is `Sound`: a mark is sound if every write up to it is flushed. The maximum of two sound marks is
one of them, so all that has to be shown is that the index which the collector finds for a flush is
sound, and that is where the condition is needed (`sound_findAppliedLogIndex`).
-/

namespace Kiwi.LogIndex

open Raft (ColumnFamilyIndex)

/-! ### Runs -/

/-- A storage, with the log index that was applied last. -/
structure State where
  insts : List Instance
  lastLogIndex : ℕ := 0

/-- What happens to a storage. -/
inductive Event where
  /-- A binlog is applied to an instance, with writes to the column families `cfs`. -/
  | apply (instanceId logIndex : ℕ) (cfs : List ColumnFamilyIndex)
  /-- A column family of an instance is flushed up to a sequence number. -/
  | flush (instanceId : ℕ) (cf : ColumnFamilyIndex) (largestSeqno : ℕ)
deriving DecidableEq

/-- One event. -/
def step (s : State) : Event → State
  | .apply instanceId logIndex cfs =>
    ⟨s.insts.modify instanceId fun inst ↦ inst.commitBatchAndTrackLogindex cfs logIndex, logIndex⟩
  | .flush instanceId cf largestSeqno =>
    { s with insts := s.insts.modify instanceId fun inst ↦ inst.flush cf largestSeqno }

/-- Log indexes increase; index `0` is the membership that initialises the cluster. -/
def Possible (s : State) : Event → Prop
  | .apply _ logIndex _ => s.lastLogIndex < logIndex
  | .flush .. => True

instance (s : State) : ∀ event, Decidable (Possible s event)
  | .apply .. => inferInstanceAs (Decidable (_ < _))
  | .flush .. => inferInstanceAs (Decidable True)

/-- A flush finds no unflushed write of another column family below its largest sequence number. -/
def OthersFlushed (s : State) : Event → Prop
  | .apply .. => True
  | .flush instanceId cf largestSeqno => ∀ inst ∈ s.insts[instanceId]?, ∀ w ∈ inst.writes,
      w.cf ≠ cf → w.seqno ≤ largestSeqno → w.flushed = true

instance (s : State) : ∀ event, Decidable (OthersFlushed s event)
  | .apply .. => inferInstanceAs (Decidable True)
  | .flush instanceId cf largestSeqno =>
    decidable_of_iff (∀ inst ∈ s.insts[instanceId]?.toList, ∀ w ∈ inst.writes,
      w.cf ≠ cf → w.seqno ≤ largestSeqno → w.flushed = true)
      (forall_congr' fun _ ↦ imp_congr_left Option.mem_toList)

/-- Every write of a binlog up to the watermark is flushed. -/
def WatermarkSound (s : State) : Prop :=
  ∀ inst ∈ s.insts, ∀ w ∈ inst.writes,
    w.logIndex ≤ getGlobalSmallestFlushedLogIndex s.insts → w.flushed = true

/-! ### Marks -/

/-- Every write up to the index is flushed. -/
def Sound (writes : List Write) (index : ℕ) : Prop :=
  ∀ w ∈ writes, w.logIndex ≤ index → w.flushed = true

/-- All marks of the tracker have a property. -/
structure AllMarks (P : ℕ → Prop) (t : Tracker) : Prop where
  last : P t.lastFlushIndex.logIndex
  flushed : ∀ i, P (t.cf i).flushed.logIndex

section Marks

variable {P : ℕ → Prop} {t : Tracker}

theorem property_max {a b : Mark} (ha : P a.logIndex) (hb : P b.logIndex) :
    P (a.max b).logIndex := by
  rcases Nat.le_total a.logIndex b.logIndex with h | h
  · have hmax : (a.max b).logIndex = b.logIndex := Nat.max_eq_right h
    rwa [hmax]
  · have hmax : (a.max b).logIndex = a.logIndex := Nat.max_eq_left h
    rwa [hmax]

theorem AllMarks.setFlushedLogIndex (h : AllMarks P t) (cf : ColumnFamilyIndex) {m : Mark}
    (hm : P m.logIndex) : AllMarks P (t.setFlushedLogIndex cf m) where
  last := h.last
  flushed i := by
    rcases eq_or_ne i cf with rfl | hne
    · simp only [Tracker.setFlushedLogIndex, Function.update_self]
      exact property_max hm (h.flushed i)
    · simp only [Tracker.setFlushedLogIndex, Function.update_of_ne hne]
      exact h.flushed i

theorem AllMarks.setFlushedLogIndexGlobal (h : AllMarks P t) {m : Mark} (hm : P m.logIndex) :
    AllMarks P (t.setFlushedLogIndexGlobal m) where
  last := property_max h.last hm
  flushed i := by
    rw [Tracker.setFlushedLogIndexGlobal]
    dsimp only
    split_ifs
    · exact property_max (h.flushed i) (property_max h.last hm)
    · exact h.flushed i

theorem visit_flushed (flushCF : Option ColumnFamilyIndex) {res : SmallestIndexRes}
    (hres : res.flushedCF.isSome → ∃ i, res.flushed = (t.cf i).flushed.logIndex)
    (i : ColumnFamilyIndex) :
    (t.visit flushCF res i).flushedCF.isSome →
      ∃ j, (t.visit flushCF res i).flushed = (t.cf j).flushed.logIndex := by
  rw [Tracker.visit]
  dsimp only
  split_ifs
  · exact hres
  · exact fun _ ↦ ⟨i, rfl⟩
  · exact hres
  · exact fun _ ↦ ⟨i, rfl⟩
  · exact hres

section

variable (t : Tracker)

theorem getSmallestLogIndex_flushed (flushCF : Option ColumnFamilyIndex)
    (h : (t.getSmallestLogIndex flushCF).flushedCF.isSome) :
    ∃ i, (t.getSmallestLogIndex flushCF).flushed = (t.cf i).flushed.logIndex := by
  have hloop : ∀ (cfs : List ColumnFamilyIndex) (res : SmallestIndexRes),
      (res.flushedCF.isSome → ∃ i, res.flushed = (t.cf i).flushed.logIndex) →
      (cfs.foldl (t.visit flushCF) res).flushedCF.isSome →
      ∃ i, (cfs.foldl (t.visit flushCF) res).flushed = (t.cf i).flushed.logIndex := by
    intro cfs
    induction cfs with
    | nil => exact fun res hres ↦ hres
    | cons cf cfs ih => exact fun res hres ↦ ih _ (visit_flushed flushCF hres cf)
  exact hloop columnFamilies {} (fun h ↦ by cases h) h

theorem visit_none_le (res : SmallestIndexRes) (i : ColumnFamilyIndex) :
    (t.visit none res i).flushed ≤ res.flushed ∧
      (t.visit none res i).flushed ≤ (t.cf i).flushed.logIndex := by
  rw [Tracker.visit]
  dsimp only [Option.any_none]
  split_ifs <;> simp_all <;> omega

theorem foldl_visit_none_le (cfs : List ColumnFamilyIndex) (res : SmallestIndexRes) :
    (cfs.foldl (t.visit none) res).flushed ≤ res.flushed ∧
      ∀ i ∈ cfs, (cfs.foldl (t.visit none) res).flushed ≤ (t.cf i).flushed.logIndex := by
  induction cfs generalizing res with
  | nil => exact ⟨le_rfl, fun i hi ↦ absurd hi List.not_mem_nil⟩
  | cons cf cfs ih =>
    obtain ⟨hle, hall⟩ := ih (t.visit none res cf)
    obtain ⟨hres, hcf⟩ := visit_none_le t res cf
    refine ⟨hle.trans hres, fun i hi ↦ ?_⟩
    rcases List.mem_cons.1 hi with rfl | hi
    · exact hle.trans hcf
    · exact hall i hi

theorem getSmallestLogIndex_none_le (i : ColumnFamilyIndex) :
    (t.getSmallestLogIndex none).flushed ≤ (t.cf i).flushed.logIndex := by
  refine (foldl_visit_none_le t columnFamilies {}).2 i ?_
  cases i <;> decide

end

end Marks

/-! ### The collector -/

theorem mem_takeWhile_of_getElem? {α : Type} {q : α → Bool} {l : List α} {x : α}
    (hne : l.takeWhile q ≠ []) (h : l[(l.takeWhile q).length - 1]? = some x) :
    x ∈ l.takeWhile q := by
  have hpos := List.length_pos_iff.2 hne
  have hlt : (l.takeWhile q).length - 1 < (l.takeWhile q).length := by omega
  obtain ⟨hlen, rfl⟩ := List.getElem?_eq_some_iff.1 h
  rw [← (List.takeWhile_prefix q).getElem hlt]
  exact List.getElem_mem hlt

theorem findAppliedLogIndex_cases (c : Collector) (seqno : ℕ) :
    c.findAppliedLogIndex seqno = 0 ∨
      ∃ p ∈ c.list, p.seqno ≤ seqno ∧ c.findAppliedLogIndex seqno = p.logIndex := by
  rw [Collector.findAppliedLogIndex]
  split_ifs
  · exact Or.inl rfl
  · split
    · rename_i front back hfront hback
      split_ifs with hlt hle
      · exact Or.inl rfl
      · exact Or.inr ⟨back, List.mem_of_getLast? hback, hle, rfl⟩
      · dsimp only
        rcases hget : c.list[(c.list.takeWhile fun p ↦ decide (p.seqno ≤ seqno)).length - 1]?
          with _ | p
        · exact Or.inl rfl
        · have hne : c.list.takeWhile (fun p ↦ decide (p.seqno ≤ seqno)) ≠ [] := by
            obtain ⟨list, hlist⟩ := List.head?_eq_some_iff.1 hfront
            rw [hlist]
            simp [not_lt.1 hlt]
          have hmem := mem_takeWhile_of_getElem? hne hget
          have hle : p.seqno ≤ seqno := by simpa using List.mem_takeWhile_imp hmem
          exact Or.inr ⟨p, (List.takeWhile_prefix _).subset hmem, hle, rfl⟩
    · exact Or.inl rfl

theorem purgeList_sublist (smallest : ℕ) (list : List Mark) :
    (Collector.purgeList smallest list).Sublist list := by
  induction list with
  | nil => exact List.Sublist.refl _
  | cons p list ih =>
    cases list with
    | nil => exact List.Sublist.refl _
    | cons =>
      rw [Collector.purgeList]
      split_ifs
      · exact ih.trans (List.sublist_cons_self _ _)
      · exact List.Sublist.refl _

/-! ### The invariant -/

/-- What holds of an instance when the last applied log index is `last`. -/
structure Inv (last : ℕ) (inst : Instance) : Prop where
  /-- Log indexes of writes are positive and at most the last one. -/
  bounds : ∀ w ∈ inst.writes, 0 < w.logIndex ∧ w.logIndex ≤ last
  /-- Sequence numbers are at most the latest. -/
  seqno_le : ∀ w ∈ inst.writes, w.seqno ≤ inst.latestSeqno
  /-- Pairs have indexes that were applied, and the writes up to them have sequence numbers up to
  theirs. -/
  pairs : ∀ p ∈ inst.collector.list, p.logIndex ≤ last ∧
    ∀ w ∈ inst.writes, w.logIndex ≤ p.logIndex → w.seqno ≤ p.seqno
  /-- All marks are sound, and not ahead of the log. -/
  marks : AllMarks (fun index ↦ index ≤ last ∧ Sound inst.writes index) inst.tracker

theorem inv_new (last : ℕ) : Inv last Instance.new where
  bounds _ hw := absurd hw List.not_mem_nil
  seqno_le _ hw := absurd hw List.not_mem_nil
  pairs _ hp := absurd hp List.not_mem_nil
  marks := ⟨⟨Nat.zero_le _, fun _ hw ↦ absurd hw List.not_mem_nil⟩,
    fun _ ↦ ⟨Nat.zero_le _, fun _ hw ↦ absurd hw List.not_mem_nil⟩⟩

theorem AllMarks.imp {P Q : ℕ → Prop} {t : Tracker} (h : AllMarks P t) (hPQ : ∀ n, P n → Q n) :
    AllMarks Q t :=
  ⟨hPQ _ h.last, fun i ↦ hPQ _ (h.flushed i)⟩

theorem mem_numbered {logIndex seqno : ℕ} {cfs : List ColumnFamilyIndex} {w : Write}
    (h : w ∈ Instance.numbered logIndex seqno cfs) :
    w.logIndex = logIndex ∧ w.seqno ≤ seqno + cfs.length := by
  induction cfs generalizing seqno with
  | nil => cases h
  | cons cf cfs ih =>
    rcases List.mem_cons.1 h with rfl | h
    · exact ⟨rfl, by simp⟩
    · obtain ⟨hindex, hle⟩ := ih h
      refine ⟨hindex, hle.trans ?_⟩
      simp only [List.length_cons]
      omega

variable {inst : Instance}

section

variable {last logIndex : ℕ} (h : Inv last inst) (hlt : last < logIndex)

include h hlt

/-- **A binlog on another instance** only moves the last log index. -/
theorem Inv.mono : Inv logIndex inst where
  bounds w hw := ⟨(h.bounds w hw).1, (h.bounds w hw).2.trans hlt.le⟩
  seqno_le := h.seqno_le
  pairs p hp := ⟨(h.pairs p hp).1.trans hlt.le, (h.pairs p hp).2⟩
  marks := h.marks.imp fun _ hn ↦ ⟨hn.1.trans hlt.le, hn.2⟩

/-- **A binlog.** Its writes are above every mark and every pair. -/
theorem Inv.commit (cfs : List ColumnFamilyIndex) :
    Inv logIndex (inst.commitBatchAndTrackLogindex cfs logIndex) := by
  have hnew : ∀ w ∈ Instance.numbered logIndex inst.latestSeqno cfs,
      w.logIndex = logIndex ∧ w.seqno ≤ inst.latestSeqno + cfs.length := fun w hw ↦ mem_numbered hw
  have hseqno : ∀ w ∈ inst.writes ++ Instance.numbered logIndex inst.latestSeqno cfs,
      w.seqno ≤ inst.latestSeqno + cfs.length := by
    intro w hw
    rcases List.mem_append.1 hw with hw | hw
    · exact (h.seqno_le w hw).trans (Nat.le_add_right _ _)
    · exact (hnew w hw).2
  refine ⟨fun w hw ↦ ?_, hseqno, fun p hp ↦ ?_, h.marks.imp fun index hindex ↦ ?_⟩
  · rcases List.mem_append.1 hw with hw | hw
    · exact (h.mono hlt).bounds w hw
    · rw [(hnew w hw).1]
      exact ⟨by omega, le_rfl⟩
  · have hpairs : p ∈ inst.collector.list ∨
        p = ⟨min logIndex maxI64, inst.latestSeqno + cfs.length⟩ := by
      simp only [Instance.commitBatchAndTrackLogindex, Collector.update] at hp
      split_ifs at hp
      · exact Or.inl hp
      · exact (List.mem_append.1 hp).imp id List.mem_singleton.1
    rcases hpairs with hp | rfl
    · refine ⟨((h.mono hlt).pairs p hp).1, fun w hw hle ↦ ?_⟩
      rcases List.mem_append.1 hw with hw | hw
      · exact (h.pairs p hp).2 w hw hle
      · rw [(hnew w hw).1] at hle
        exact absurd (hle.trans (h.pairs p hp).1) (not_le.2 hlt)
    · exact ⟨min_le_left _ _, fun w hw _ ↦ hseqno w hw⟩
  · refine ⟨hindex.1.trans hlt.le, fun w hw hle ↦ ?_⟩
    rcases List.mem_append.1 hw with hw | hw
    · exact hindex.2 w hw hle
    · rw [(hnew w hw).1] at hle
      exact absurd (hle.trans hindex.1) (not_le.2 hlt)

end

variable {last : ℕ}

section

variable (h : Inv last inst)

include h

/-- **A flush.** If no write of another family below its largest sequence number is pending, the
index that the collector finds is sound. -/
theorem sound_findAppliedLogIndex {seqno : ℕ}
    (hflushed : ∀ w ∈ inst.writes, w.seqno ≤ seqno → w.flushed = true) :
    inst.collector.findAppliedLogIndex seqno ≤ last ∧
      Sound inst.writes (inst.collector.findAppliedLogIndex seqno) := by
  rcases findAppliedLogIndex_cases inst.collector seqno with hzero | ⟨p, hp, hle, hfind⟩
  · rw [hzero]
    refine ⟨Nat.zero_le _, fun w hw hw0 ↦ ?_⟩
    have hpos := (h.bounds w hw).1
    omega
  · rw [hfind]
    obtain ⟨hlast, hpair⟩ := h.pairs p hp
    exact ⟨hlast, fun w hw hwp ↦ hflushed w hw ((hpair w hw hwp).trans hle)⟩

/-- `on_flush_completed` keeps the invariant when everything up to the sequence number is
flushed. -/
theorem Inv.onFlushCompleted (cf : ColumnFamilyIndex) {seqno : ℕ}
    (hflushed : ∀ w ∈ inst.writes, w.seqno ≤ seqno → w.flushed = true) :
    Inv last (inst.onFlushCompleted cf seqno) := by
  have hmarks := h.marks.setFlushedLogIndex cf
    (m := ⟨inst.collector.findAppliedLogIndex seqno, seqno⟩) (sound_findAppliedLogIndex h hflushed)
  refine ⟨h.bounds, h.seqno_le, fun p hp ↦ h.pairs p ((purgeList_sublist _ _).subset hp), ?_⟩
  simp only [Instance.onFlushCompleted]
  split_ifs with hsome
  · obtain ⟨i, hi⟩ := getSmallestLogIndex_flushed _ _ hsome
    exact hmarks.setFlushedLogIndexGlobal (hi ▸ hmarks.flushed i)
  · exact hmarks

theorem Inv.flushWrites (f : Write → Write)
    (hf : ∀ w, (f w).logIndex = w.logIndex ∧ (f w).seqno = w.seqno ∧
      (w.flushed = true → (f w).flushed = true)) :
    Inv last { inst with writes := inst.writes.map f } where
  bounds w hw := by
    obtain ⟨w₀, hw₀, rfl⟩ := List.mem_map.1 hw
    rw [(hf w₀).1]
    exact h.bounds w₀ hw₀
  seqno_le w hw := by
    obtain ⟨w₀, hw₀, rfl⟩ := List.mem_map.1 hw
    rw [(hf w₀).2.1]
    exact h.seqno_le w₀ hw₀
  pairs p hp := by
    refine ⟨(h.pairs p hp).1, fun w hw hle ↦ ?_⟩
    obtain ⟨w₀, hw₀, rfl⟩ := List.mem_map.1 hw
    rw [(hf w₀).1] at hle
    rw [(hf w₀).2.1]
    exact (h.pairs p hp).2 w₀ hw₀ hle
  marks := h.marks.imp fun index hindex ↦ ⟨hindex.1, fun w hw hle ↦ by
    obtain ⟨w₀, hw₀, rfl⟩ := List.mem_map.1 hw
    rw [(hf w₀).1] at hle
    exact (hf w₀).2.2 (hindex.2 w₀ hw₀ hle)⟩

theorem Inv.flush {cf : ColumnFamilyIndex}
    {largestSeqno : ℕ} (hothers : ∀ w ∈ inst.writes, w.cf ≠ cf → w.seqno ≤ largestSeqno →
      w.flushed = true) : Inv last (inst.flush cf largestSeqno) := by
  refine (h.flushWrites _ fun w ↦ ?_).onFlushCompleted cf fun w hw hle ↦ ?_
  · split_ifs
    · exact ⟨rfl, rfl, fun _ ↦ rfl⟩
    · exact ⟨rfl, rfl, id⟩
  · obtain ⟨w₀, hw₀, rfl⟩ := List.mem_map.1 hw
    split_ifs at hle ⊢ with hcf
    · rfl
    · have hne : w₀.cf ≠ cf := fun heq ↦ hcf ⟨heq, hle⟩
      exact hothers w₀ hw₀ hne hle

end

/-! ### The watermark -/

/-- What holds of every instance. -/
def AllInv (s : State) : Prop := ∀ inst ∈ s.insts, Inv s.lastLogIndex inst

theorem mem_modify {α : Type} {l : List α} {i : ℕ} {f : α → α} {x : α} (h : x ∈ l.modify i f) :
    x ∈ l ∨ ∃ y ∈ l[i]?, x = f y := by
  obtain ⟨j, hj⟩ := List.mem_iff_getElem?.1 h
  rw [List.getElem?_modify] at hj
  rcases eq_or_ne i j with rfl | hne
  · obtain ⟨y, hy, rfl⟩ := Option.map_eq_some_iff.1 hj
    exact Or.inr ⟨y, hy, if_pos rfl⟩
  · obtain ⟨y, hy, rfl⟩ := Option.map_eq_some_iff.1 hj
    rw [if_neg hne]
    exact Or.inl (List.mem_of_getElem? hy)

/-- **One event** keeps the invariant. -/
theorem allInv_step {s : State} {event : Event} (h : AllInv s) (hpossible : Possible s event)
    (hothers : OthersFlushed s event) : AllInv (step s event) := by
  intro inst hinst
  cases event with
  | apply _ _ cfs =>
    rcases mem_modify hinst with hmem | ⟨inst, hmem, rfl⟩
    · exact (h inst hmem).mono hpossible
    · exact (h inst (List.mem_of_getElem? hmem)).commit hpossible cfs
  | flush =>
    rcases mem_modify hinst with hmem | ⟨inst, hmem, rfl⟩
    · exact h inst hmem
    · exact (h inst (List.mem_of_getElem? hmem)).flush (hothers inst hmem)

theorem watermark_le (insts : List Instance) :
    getGlobalSmallestFlushedLogIndex insts = 0 ∨ ∀ inst ∈ insts,
      getGlobalSmallestFlushedLogIndex insts ≤ (inst.tracker.getSmallestLogIndex none).flushed := by
  have hloop : ∀ (insts : List Instance) (start : ℕ),
      let result := insts.foldl (fun minIndex inst ↦
        let res := inst.tracker.getSmallestLogIndex none
        if res.flushed < minIndex then res.flushed else minIndex) start
      result ≤ start ∧
        ∀ inst ∈ insts, result ≤ (inst.tracker.getSmallestLogIndex none).flushed := by
    intro insts
    induction insts with
    | nil => exact fun start ↦ ⟨le_rfl, fun inst hinst ↦ absurd hinst List.not_mem_nil⟩
    | cons inst insts ih =>
      intro start
      obtain ⟨hle, hall⟩ := ih (if (inst.tracker.getSmallestLogIndex none).flushed < start then
        (inst.tracker.getSmallestLogIndex none).flushed else start)
      refine ⟨hle.trans (by split_ifs <;> omega), fun inst' hinst' ↦ ?_⟩
      rcases List.mem_cons.1 hinst' with rfl | hinst'
      · exact hle.trans (by split_ifs <;> omega)
      · exact hall inst' hinst'
  rw [getGlobalSmallestFlushedLogIndex]
  dsimp only
  split_ifs
  · exact Or.inl rfl
  · exact Or.inr (hloop insts maxI64).2

theorem AllInv.watermarkSound {s : State} (h : AllInv s) : WatermarkSound s := by
  intro inst hinst w hw hle
  rcases watermark_le s.insts with hzero | hmarks
  · have hpos := ((h inst hinst).bounds w hw).1
    omega
  · refine ((h inst hinst).marks.flushed .metaCF).2 w hw (hle.trans ((hmarks inst hinst).trans ?_))
    exact getSmallestLogIndex_none_le _ _

/-- **The watermark is sound** in every run in which no flush finds an unflushed write of another
column family below its largest sequence number. -/
theorem watermark_sound (instanceNum : ℕ) (events : List Event)
    (h : Run.Allowed step (fun s event ↦ Possible s event ∧ OthersFlushed s event)
      ⟨List.replicate instanceNum Instance.new, 0⟩ events) :
    WatermarkSound (Run.final step ⟨List.replicate instanceNum Instance.new, 0⟩ events) := by
  have hstart : AllInv ⟨List.replicate instanceNum Instance.new, 0⟩ := fun inst hinst ↦ by
    rw [List.eq_of_mem_replicate hinst]
    exact inv_new 0
  exact AllInv.watermarkSound
    (Run.invariant (fun _ _ hs hok ↦ allInv_step hs hok.1 hok.2) hstart h)

/-- Two binlogs, each to a family of its own. The families are flushed in turn, and then one of them
is written again. -/
def flushedInTurn : List Event :=
  [.apply 0 1 [.metaCF], .apply 0 2 [.hashesDataCF], .flush 0 .metaCF 1, .flush 0 .hashesDataCF 2,
    .apply 0 3 [.metaCF]]

theorem watermark_sound_inTurn :
    getGlobalSmallestFlushedLogIndex
        (Run.final step ⟨List.replicate 1 Instance.new, 0⟩ flushedInTurn).insts = 2 ∧
      WatermarkSound (Run.final step ⟨List.replicate 1 Instance.new, 0⟩ flushedInTurn) :=
  ⟨by decide, watermark_sound 1 _ (by decide)⟩

/-- One binlog writes to two families, and one of them is flushed. -/
theorem watermark_passes_unflushed_write :
    Run.Allowed step Possible ⟨List.replicate 1 Instance.new, 0⟩
        [.apply 0 1 [.hashesDataCF, .metaCF], .flush 0 .metaCF 2] ∧
      ¬WatermarkSound (Run.final step ⟨List.replicate 1 Instance.new, 0⟩
        [.apply 0 1 [.hashesDataCF, .metaCF], .flush 0 .metaCF 2]) := by
  refine ⟨by decide, fun h ↦ ?_⟩
  have hwrite := h _ List.mem_cons_self ⟨.hashesDataCF, 1, 1, false⟩ List.mem_cons_self (by decide)
  cases hwrite

end Kiwi.LogIndex
