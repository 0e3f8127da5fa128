import Kiwi.Raft.Binlog

/-!
# Log indexes of flushed writes

The Raft log may be purged up to the index whose writes are all in SST files. Every instance keeps
what it needs to know that index: the collector has one pair of log index and sequence number per
applied binlog, and the tracker has two marks per column family, the last index applied and the last
index flushed. When RocksDB reports that a column family was flushed up to a sequence number, the
collector gives the log index for it, the mark of the family is raised, and then the marks of other
families are raised to the smallest one (`onFlushCompleted`).

On the write path only the collector is updated (`commitBatchAndTrackLogindex`): the applied marks
of the tracker stay what they were when the database was opened.

Beside the bookkeeping an instance has its writes, each with whether it was flushed. The triggers of
`on_flush_completed` (the snapshot callback and manual flushes) change no mark and are left out.
-/

namespace Kiwi.LogIndex

open Raft (ColumnFamilyIndex)

/-- `i64::MAX`. -/
def maxI64 : ℕ := 2 ^ 63 - 1

/-- `LogIndexSeqnoPair` and `LogIndexAndSequencePair`. -/
structure Mark where
  logIndex : ℕ
  seqno : ℕ
deriving DecidableEq, Repr

/-- The larger index and the larger sequence number. -/
def Mark.max (a b : Mark) : Mark := ⟨Nat.max a.logIndex b.logIndex, Nat.max a.seqno b.seqno⟩

/-- `LogIndexPair`. -/
structure Marks where
  /-- `applied_index`. -/
  applied : Mark
  /-- `flushed_index`. -/
  flushed : Mark
deriving DecidableEq, Repr

/-! ### The collector -/

/-- `LogIndexAndSequenceCollector`. -/
structure Collector where
  stepLengthMask : ℕ
  /-- The pairs, oldest first. -/
  list : List Mark
deriving DecidableEq, Repr

namespace Collector

def findAppliedLogIndex (c : Collector) (seqno : ℕ) : ℕ :=
  if seqno = 0 then 0
  else
    match c.list.head?, c.list.getLast? with
    | some front, some back =>
      if seqno < front.seqno then 0
      else if back.seqno ≤ seqno then back.logIndex
      else
        -- `partition_point`
        let idx := (c.list.takeWhile fun p ↦ p.seqno ≤ seqno).length
        (c.list[idx - 1]?.map Mark.logIndex).getD 0
    | _, _ => 0

def update (c : Collector) (logIndex seqno : ℕ) : Collector :=
  if logIndex &&& c.stepLengthMask ≠ 0 then c
  else { c with list := c.list ++ [⟨logIndex, seqno⟩] }

/-- The loop of `purge`. -/
def purgeList (smallest : ℕ) : List Mark → List Mark
  | p :: q :: list =>
    if q.logIndex ≤ smallest then purgeList smallest (q :: list) else p :: q :: list
  | list => list

def purge (c : Collector) (smallest : ℕ) : Collector :=
  { c with list := purgeList smallest c.list }

def exportState (c : Collector) : List Bytes :=
  c.list.map fun p ↦ formatI64 p.logIndex ++ 0x3A :: formatNat p.seqno

/-- The entry of one pair in `restore_collector_states`; entries that do not parse are skipped. -/
def restoreEntry (c : Collector) (entry : Bytes) : Collector :=
  -- `split_once(':')`
  match entry.span (· ≠ 0x3A) with
  | (_, []) => c
  | (logIndex, _ :: seqno) =>
    match parseI64 logIndex, parseU64 seqno with
    | some logIndex, some seqno => if logIndex < 0 then c else c.update logIndex.toNat seqno
    | _, _ => c

/-- `restore_collector_states`, for one collector. -/
def restoreState (c : Collector) (entries : List Bytes) : Collector :=
  entries.foldl restoreEntry c

end Collector

/-! ### The tracker -/

/-- `LogIndexOfColumnFamilies`. -/
structure Tracker where
  lastFlushIndex : Mark
  /-- The marks of the column families. -/
  cf : ColumnFamilyIndex → Marks

/-- The column families in the order of their numbers. -/
def columnFamilies : List ColumnFamilyIndex :=
  [.metaCF, .hashesDataCF, .setsDataCF, .listsDataCF, .zsetsDataCF, .zsetsScoreCF, .vectorDataCF]

/-- `SmallestIndexRes`; the number of a family that is `-1` in the source is `none`. -/
structure SmallestIndexRes where
  /-- `smallest_applied_log_index_cf`. -/
  appliedCF : Option ColumnFamilyIndex := none
  /-- `smallest_applied_log_index`. -/
  applied : ℕ := maxI64
  /-- `smallest_flushed_log_index_cf`. -/
  flushedCF : Option ColumnFamilyIndex := none
  /-- `smallest_flushed_log_index`. -/
  flushed : ℕ := maxI64
  /-- `smallest_flushed_seqno`. -/
  flushedSeqno : ℕ := 2 ^ 64 - 1
deriving DecidableEq, Repr

namespace Tracker

/-- The body of the loop of `get_smallest_log_index`. -/
def visit (t : Tracker) (flushCF : Option ColumnFamilyIndex) (res : SmallestIndexRes)
    (i : ColumnFamilyIndex) : SmallestIndexRes :=
  let marks := t.cf i
  -- other families are skipped when everything applied to them is flushed
  if flushCF.any (fun fc ↦ i ≠ fc ∧ marks.applied.seqno ≤ marks.flushed.seqno) then res
  else
    let res :=
      if marks.applied.logIndex < res.applied then
        { res with applied := marks.applied.logIndex, appliedCF := some i }
      else res
    if marks.flushed.logIndex < res.flushed then
      { res with
        flushed := marks.flushed.logIndex
        flushedSeqno := marks.flushed.seqno
        flushedCF := some i }
    else res

def getSmallestLogIndex (t : Tracker) (flushCF : Option ColumnFamilyIndex) : SmallestIndexRes :=
  columnFamilies.foldl (t.visit flushCF) {}

def setFlushedLogIndex (t : Tracker) (cf : ColumnFamilyIndex) (m : Mark) : Tracker :=
  { t with
    cf := Function.update t.cf cf { t.cf cf with flushed := m.max (t.cf cf).flushed } }

def setFlushedLogIndexGlobal (t : Tracker) (m : Mark) : Tracker :=
  let last := t.lastFlushIndex.max m
  { lastFlushIndex := last
    cf := fun i ↦
      let marks := t.cf i
      if marks.flushed.seqno ≤ last.seqno then { marks with flushed := marks.flushed.max last }
      else marks }

end Tracker

/-! ### An instance -/

/-- One put or delete in RocksDB. -/
structure Write where
  cf : ColumnFamilyIndex
  seqno : ℕ
  logIndex : ℕ
  /-- Whether the write is in an SST file. -/
  flushed : Bool
deriving DecidableEq, Repr

/-- A `Redis` instance as far as log indexes are concerned. -/
structure Instance where
  /-- `latest_sequence_number`. -/
  latestSeqno : ℕ
  /-- The writes, oldest first. -/
  writes : List Write
  /-- `logindex_collector`. -/
  collector : Collector
  /-- `logindex_cf_tracker`. -/
  tracker : Tracker

namespace Instance

/-- An instance on an empty database; the collector samples every index. -/
def new : Instance where
  latestSeqno := 0
  writes := []
  collector := ⟨0, []⟩
  tracker := ⟨⟨0, 0⟩, fun _ ↦ ⟨⟨0, 0⟩, ⟨0, 0⟩⟩⟩

/-- RocksDB gives consecutive sequence numbers to the writes of a batch. -/
def numbered (logIndex : ℕ) : ℕ → List ColumnFamilyIndex → List Write
  | _, [] => []
  | seqno, cf :: cfs => ⟨cf, seqno + 1, logIndex, false⟩ :: numbered logIndex (seqno + 1) cfs

/-- `commit_batch_and_track_logindex` for a batch that writes to the column families `cfs`. -/
def commitBatchAndTrackLogindex (inst : Instance) (cfs : List ColumnFamilyIndex) (logIndex : ℕ) :
    Instance :=
  let latest := inst.latestSeqno + cfs.length
  { inst with
    latestSeqno := latest
    writes := inst.writes ++ numbered logIndex inst.latestSeqno cfs
    collector := inst.collector.update (min logIndex maxI64) latest }

def onFlushCompleted (inst : Instance) (cf : ColumnFamilyIndex) (largestSeqno : ℕ) : Instance :=
  let logIndex := inst.collector.findAppliedLogIndex largestSeqno
  let tracker := inst.tracker.setFlushedLogIndex cf ⟨logIndex, largestSeqno⟩
  let res := tracker.getSmallestLogIndex (some cf)
  { inst with
    collector := inst.collector.purge res.applied
    tracker :=
      if res.flushedCF.isSome then
        tracker.setFlushedLogIndexGlobal ⟨res.flushed, res.flushedSeqno⟩
      else tracker }

/-- RocksDB flushes a column family up to a sequence number and reports it. -/
def flush (inst : Instance) (cf : ColumnFamilyIndex) (largestSeqno : ℕ) : Instance :=
  onFlushCompleted
    { inst with
      writes := inst.writes.map fun w ↦
        if w.cf = cf ∧ w.seqno ≤ largestSeqno then { w with flushed := true } else w }
    cf largestSeqno

end Instance

/-- `Storage::get_global_smallest_flushed_log_index`. -/
def getGlobalSmallestFlushedLogIndex (insts : List Instance) : ℕ :=
  let minIndex := insts.foldl (fun minIndex inst ↦
    let res := inst.tracker.getSmallestLogIndex none
    if res.flushed < minIndex then res.flushed else minIndex) maxI64
  if minIndex = maxI64 then 0 else minIndex

end Kiwi.LogIndex
