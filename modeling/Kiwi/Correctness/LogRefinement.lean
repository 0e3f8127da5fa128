import Kiwi.Raft.LogStore
import Kiwi.Lib.Simulation
import Mathlib.Data.List.Chain
import Mathlib.Tactic.Ring

/-!
# The Raft log store is a list of entries

What Raft needs of its log store is a list of entries with consecutive indexes, of which a tail is
cut off by `truncate` and a front by `purge`, and three values that are read back as they were
saved: `Log`. `log_store_refines_list` says that the store answers every call as that list does,
along every sequence of calls in which indexes are below `u64::MAX` and appended entries continue
the log without a gap.

The relation between the two is an equation: the rows of the `logs` column family are the rows of
the entries, in the same order (`Represents.logs`). It is an equation between lists because
big-endian keys are ordered as the indexes are (`encodeLogKey_lt_iff`), so that an iterator meets
the entries in log order, a range of keys is a range of indexes, and a new entry goes behind all
others.
-/

namespace Kiwi.Raft

/-! ### Big-endian keys -/

variable (width n : ℕ)

theorem length_beBytes : (beBytes width n).length = width := by
  induction width with
  | zero => rfl
  | succ width ih => rw [beBytes, List.length_cons, ih]

theorem toNat_ofNat_div : (UInt8.ofNat (n / 256 ^ width)).toNat = n / 256 ^ width % 256 :=
  UInt8.toNat_ofNat'

theorem foldl_beBytes (width n acc : ℕ) :
    (beBytes width n).foldl (fun n b ↦ 256 * n + b.toNat) acc =
      256 ^ width * acc + n % 256 ^ width := by
  induction width generalizing acc with
  | zero => simp [beBytes, Nat.mod_one]
  | succ width ih =>
    rw [beBytes, List.foldl_cons, ih, toNat_ofNat_div, Nat.mod_pow_succ, Nat.pow_succ]
    ring

theorem ofBeBytes_beBytes : ofBeBytes (beBytes width n) = n % 256 ^ width := by
  rw [ofBeBytes, foldl_beBytes, Nat.mul_zero, Nat.zero_add]

theorem digits_lt_iff {base q r q' r' : ℕ} (hr : r < base) (hr' : r' < base) :
    r + base * q < r' + base * q' ↔ q < q' ∨ q = q' ∧ r < r' := by
  rcases lt_trichotomy q q' with h | rfl | h
  · have hmul : base * (q + 1) ≤ base * q' := Nat.mul_le_mul_left _ h
    rw [Nat.mul_succ] at hmul
    exact iff_of_true (by omega) (Or.inl h)
  · simp
  · have hmul : base * (q' + 1) ≤ base * q := Nat.mul_le_mul_left _ h
    rw [Nat.mul_succ] at hmul
    exact iff_of_false (by omega) (by omega)

/-- **Big-endian order.** Byte strings of one width are ordered as their numbers. -/
theorem beBytes_lt_iff (width a b : ℕ) :
    beBytes width a < beBytes width b ↔ a % 256 ^ width < b % 256 ^ width := by
  induction width with
  | zero => simp [beBytes, Nat.mod_one]
  | succ width ih =>
    have hpos : 0 < 256 ^ width := Nat.pow_pos (by decide)
    rw [beBytes, beBytes, List.cons_lt_cons_iff, ih, Nat.mod_pow_succ, Nat.mod_pow_succ,
      digits_lt_iff (Nat.mod_lt _ hpos) (Nat.mod_lt _ hpos), UInt8.lt_iff_toNat_lt,
      ← UInt8.toNat_inj, toNat_ofNat_div, toNat_ofNat_div]

theorem mod_of_le_maxU64 {n : ℕ} (h : n ≤ maxU64) : n % 256 ^ 8 = n := by
  have hmax : maxU64 < 256 ^ 8 := by decide
  exact Nat.mod_eq_of_lt (lt_of_le_of_lt h hmax)

section

variable {a b : ℕ} (ha : a ≤ maxU64) (hb : b ≤ maxU64)

include ha hb

theorem encodeLogKey_lt_iff : encodeLogKey a < encodeLogKey b ↔ a < b := by
  rw [encodeLogKey, encodeLogKey, beBytes_lt_iff, mod_of_le_maxU64 ha, mod_of_le_maxU64 hb]

theorem encodeLogKey_le_iff : encodeLogKey a ≤ encodeLogKey b ↔ a ≤ b := by
  rw [← not_lt, encodeLogKey_lt_iff hb ha, not_lt]

theorem encodeLogKey_inj : encodeLogKey a = encodeLogKey b ↔ a = b := by
  rw [le_antisymm_iff, encodeLogKey_le_iff ha hb, encodeLogKey_le_iff hb ha, ← le_antisymm_iff]

end

theorem decodeLogKey_encodeLogKey {n : ℕ} (h : n ≤ maxU64) :
    decodeLogKey (encodeLogKey n) = .ok n := by
  rw [decodeLogKey, encodeLogKey, length_beBytes, if_neg (not_not.2 rfl), ofBeBytes_beBytes,
    mod_of_le_maxU64 h]

/-! ### Reading the log -/

section Read

variable {P : Type} (serde : Serde P)

theorem deserialize_encode {α : Type} (codec : Codec α) (a : α) :
    deserialize codec (codec.encode a) = .ok a := by
  rw [deserialize, codec.decode_encode]

variable {entries : List (Entry P)} (range : LogRange)

theorem collectEntries_map_row (h : ∀ e ∈ entries, e.index ≤ maxU64) :
    collectEntries serde range (entries.map (row serde)) =
      .ok (entries.takeWhile fun e ↦ range.contains e.index) := by
  induction entries with
  | nil => rfl
  | cons e entries ih =>
    have hrest := ih fun e' he' ↦ h e' (List.mem_cons_of_mem _ he')
    rw [List.map_cons, row, collectEntries,
      decodeLogKey_encodeLogKey (h e List.mem_cons_self), hrest, deserialize_encode]
    rcases hin : range.contains e.index with _ | _
    · rw [List.takeWhile_cons_of_neg (by simp [hin])]
      simp [bind, Except.bind, pure, Except.pure, hin]
    · rw [List.takeWhile_cons_of_pos (p := fun e : Entry P ↦ range.contains e.index) hin]
      simp [bind, Except.bind, pure, Except.pure, hin]

/-- The indexes that a start bound excludes. -/
def Bound.Before : Bound → ℕ → Prop
  | .included start, index => index < start
  | .excluded start, index => index ≤ start
  | .unbounded, _ => False

instance : ∀ bound index, Decidable (Bound.Before bound index)
  | .included _, _ => inferInstanceAs (Decidable (_ < _))
  | .excluded _, _ => inferInstanceAs (Decidable (_ ≤ _))
  | .unbounded, _ => inferInstanceAs (Decidable False)

variable {bound : Bound}

theorem Bound.Before.of_lt {a b : ℕ} (h : bound.Before b) (hab : a < b) : bound.Before a := by
  cases bound with
  | included => exact hab.trans h
  | excluded => exact hab.le.trans h
  | unbounded => exact h

/-- The indexes that an end bound admits. -/
def Bound.Within : Bound → ℕ → Prop
  | .included stop, index => index ≤ stop
  | .excluded stop, index => index < stop
  | .unbounded, _ => True

theorem Bound.Within.of_lt {a b : ℕ} (h : bound.Within b) (hab : a < b) : bound.Within a := by
  cases bound with
  | included => exact hab.le.trans h
  | excluded => exact hab.trans h
  | unbounded => trivial

theorem LogRange.contains_iff {index : ℕ} :
    range.contains index = true ↔
      ¬range.startBound.Before index ∧ range.endBound.Within index := by
  obtain ⟨first, last⟩ := range
  cases first <;> cases last <;> simp [LogRange.contains, Bound.Before, Bound.Within]

/-- A bound is a `u64`. -/
def Bound.Fits : Bound → Prop
  | .included index => index ≤ maxU64
  | .excluded index => index ≤ maxU64
  | .unbounded => True

instance : ∀ bound, Decidable (Bound.Fits bound)
  | .included _ | .excluded _ => inferInstanceAs (Decidable (_ ≤ _))
  | .unbounded => inferInstanceAs (Decidable True)

section

variable {start : Bytes} (hbound : bound.Fits) (hstart : startKey bound = some start)

include hbound hstart

theorem lt_startKey_iff {index : ℕ} (hindex : index ≤ maxU64) :
    encodeLogKey index < start ↔ bound.Before index := by
  cases bound with
  | included first =>
    obtain rfl := Option.some.inj hstart
    exact encodeLogKey_lt_iff hindex hbound
  | excluded last =>
    rw [startKey] at hstart
    split_ifs at hstart with hle
    obtain rfl := Option.some.inj hstart
    rw [encodeLogKey_lt_iff hindex hle, Nat.lt_succ_iff]
    rfl
  | unbounded =>
    obtain rfl := Option.some.inj hstart
    rw [encodeLogKey_lt_iff hindex (Nat.zero_le _)]
    exact iff_of_false (Nat.not_lt_zero _) id

theorem dropWhile_map_row (h : ∀ e ∈ entries, e.index ≤ maxU64) :
    (entries.map (row serde)).dropWhile (fun r ↦ r.1 < start) =
      (entries.dropWhile fun e ↦ bound.Before e.index).map (row serde) := by
  induction entries with
  | nil => rfl
  | cons e entries ih =>
    have hiff := lt_startKey_iff hbound hstart (h e List.mem_cons_self)
    rw [List.map_cons]
    by_cases hbefore : bound.Before e.index
    · have hskip : decide ((row serde e).1 < start) = true := decide_eq_true (hiff.2 hbefore)
      rw [List.dropWhile_cons_of_pos (p := fun r : Bytes × Bytes ↦ r.1 < start) hskip,
        List.dropWhile_cons_of_pos (by simpa using hbefore),
        ih fun e' he' ↦ h e' (List.mem_cons_of_mem _ he')]
    · have hkeep : ¬decide ((row serde e).1 < start) = true :=
        fun h' ↦ hbefore (hiff.1 (of_decide_eq_true h'))
      rw [List.dropWhile_cons_of_neg (p := fun r : Bytes × Bytes ↦ r.1 < start) hkeep,
        List.dropWhile_cons_of_neg (by simpa using hbefore), List.map_cons]

end

theorem takeWhile_dropWhile_range (h : entries.Pairwise fun a b ↦ a.index < b.index) :
    ((entries.dropWhile fun e ↦ range.startBound.Before e.index).takeWhile
      fun e ↦ range.contains e.index) = entries.filter fun e ↦ range.contains e.index := by
  refine SortedMap.takeWhile_dropWhile_eq_filter ?_ ?_ ?_ h
  · intro a b hab hb
    rw [decide_eq_true_eq] at hb ⊢
    exact hb.of_lt hab
  · intro a b hab hb
    rw [decide_eq_true_eq, LogRange.contains_iff] at *
    by_cases ha : range.startBound.Before a.index
    · exact Or.inl ha
    · exact Or.inr ⟨ha, hb.2.of_lt hab⟩
  · intro a ha
    rw [decide_eq_false_iff_not]
    exact (range.contains_iff.1 ha).1

/-- **Ranges.** `try_get_log_entries` returns the entries of the range, in order. -/
theorem tryGetLogEntries_eq {db : LogDb}
    (hrows : (db .logs).rows = entries.map (row serde)) (hle : ∀ e ∈ entries, e.index ≤ maxU64)
    (hsorted : entries.Pairwise fun a b ↦ a.index < b.index) {range : LogRange}
    (hrange : range.startBound.Fits) :
    tryGetLogEntries serde db range = .ok (entries.filter fun e ↦ range.contains e.index) := by
  rw [tryGetLogEntries]
  rcases hstart : startKey range.startBound with _ | start
  · -- the empty range behind `u64::MAX`
    have hnone : entries.filter (fun e ↦ range.contains e.index) = [] := by
      refine List.filter_eq_nil_iff.2 fun e he hin ↦ ?_
      have hindex := hle e he
      have hafter := ((range.contains_iff).1 hin).1
      rcases hfirst : range.startBound with first | first | _ <;> rw [hfirst] at hstart hafter
      · cases hstart
      · simp only [startKey] at hstart
        split_ifs at hstart
        exact hafter (show e.index ≤ first by omega)
      · cases hstart
    rw [hnone]
  · dsimp only
    rw [hrows, dropWhile_map_row serde hrange hstart hle, collectEntries_map_row,
      takeWhile_dropWhile_range range hsorted]
    exact fun e he ↦ hle e ((List.dropWhile_suffix _).subset he)

end Read

/-! ### The abstract log -/

/-- Indexes increase by one. -/
def Consecutive {P : Type} (entries : List (Entry P)) : Prop :=
  entries.IsChain fun a b ↦ b.index = a.index + 1

instance {P : Type} (entries : List (Entry P)) : Decidable (Consecutive entries) :=
  inferInstanceAs (Decidable (List.IsChain _ _))

theorem Consecutive.sorted {P : Type} {entries : List (Entry P)} (h : Consecutive entries) :
    entries.Pairwise fun a b ↦ a.index < b.index := by
  have hlt : entries.IsChain fun a b ↦ a.index < b.index :=
    h.imp fun a b (hab : b.index = a.index + 1) ↦ by omega
  have : Trans (fun a b : Entry P ↦ a.index < b.index) (fun a b : Entry P ↦ a.index < b.index)
    (fun a b : Entry P ↦ a.index < b.index) := ⟨fun hab hbc ↦ Nat.lt_trans hab hbc⟩
  exact hlt.pairwise

/-- A log as Raft sees it. -/
structure Log (P : Type) where
  /-- The entries, in log order. -/
  entries : List (Entry P) := []
  lastPurged : Option LogId := none
  vote : Option Vote := none
  committed : Option LogId := none

/-- What a call does to the log. -/
def Log.write {P : Type} (log : Log P) : Call P → Log P
  | .append entries => { log with entries := log.entries ++ entries }
  | .truncate logId => { log with entries := log.entries.filter fun e ↦ e.index < logId.index }
  | .purge logId =>
    { log with
      entries := log.entries.filter fun e ↦ logId.index < e.index
      lastPurged := some logId }
  | .saveVote vote => { log with vote := some vote }
  | .saveCommitted committed => { log with committed := committed }
  | _ => log

/-- What a call returns. -/
def Log.read {P : Type} (log : Log P) : Call P → Answer P
  | .tryGetLogEntries range => .entries (log.entries.filter fun e ↦ range.contains e.index)
  | .getLogState =>
    .logState ⟨log.lastPurged, (log.entries.getLast?.map Entry.logId).or log.lastPurged⟩
  | .readVote => .vote log.vote
  | .readCommitted => .committed log.committed
  | _ => .done

/-- The answer of a call and the log after it. No call fails. -/
def Log.step {P : Type} (log : Log P) (call : Call P) : Except StorageError (Answer P) × Log P :=
  (.ok (log.read call), log.write call)

/-- The calls that openraft issues: indexes are below `u64::MAX`, the ends of a range are any
`u64`, and appended entries continue the log without a gap. -/
def Legal {P : Type} (log : Log P) : Call P → Prop
  | .append entries =>
    (∀ e ∈ entries, e.index < maxU64) ∧ Consecutive (log.entries ++ entries)
  | .truncate logId => logId.index < maxU64
  | .purge logId => logId.index < maxU64
  | .tryGetLogEntries range => range.startBound.Fits ∧ range.endBound.Fits
  | _ => True

instance {P : Type} (log : Log P) : ∀ call, Decidable (Legal log call)
  | .append _ => inferInstanceAs (Decidable (_ ∧ _))
  | .truncate _ | .purge _ => inferInstanceAs (Decidable (_ < _))
  | .tryGetLogEntries _ => inferInstanceAs (Decidable (_ ∧ _))
  | .saveVote _ | .saveCommitted _ | .reopen | .getLogState | .readVote | .readCommitted =>
    inferInstanceAs (Decidable True)

/-! ### The relation -/

section Relation

variable {P : Type} {serde : Serde P} {db : LogDb} {log : Log P}

/-- The store holds the log. -/
structure Represents (serde : Serde P) (db : LogDb) (log : Log P) : Prop where
  /-- The rows are those of the entries. -/
  logs : (db .logs).rows = log.entries.map (row serde)
  /-- The last purged id is read back. -/
  lastPurged : readLastPurged serde db = .ok log.lastPurged
  vote : Raft.readVote serde db = .ok log.vote
  committed : Raft.readCommitted serde db = .ok log.committed
  consecutive : Consecutive log.entries
  /-- No entry is at `u64::MAX`. -/
  bounded : ∀ e ∈ log.entries, e.index < maxU64

theorem represents_empty : Represents serde Database.empty {} where
  logs := rfl
  lastPurged := rfl
  vote := rfl
  committed := rfl
  consecutive := List.isChain_nil
  bounded _ he := absurd he List.not_mem_nil

theorem rows_append {old entries : List (Entry P)} (hrows : (db .logs).rows = old.map (row serde))
    (hle : ∀ e ∈ old ++ entries, e.index ≤ maxU64)
    (hsorted : (old ++ entries).Pairwise fun a b ↦ a.index < b.index) :
    (db.write (buildAppendBatch serde entries) .logs).rows =
      (old ++ entries).map (row serde) := by
  induction entries generalizing db old with
  | nil => rw [List.append_nil]; exact hrows
  | cons e entries ih =>
    have hput : ((WriteOp.put LogCF.logs (encodeLogKey e.index) (serde.entry.encode e)).run db
        .logs).rows = (old ++ [e]).map (row serde) := by
      show ((db .logs).insert _ _).rows = _
      rw [SortedMap.rows_insert_of_forall_lt, hrows, List.map_append]
      · rfl
      · intro r hr
        rw [hrows] at hr
        obtain ⟨a, ha, rfl⟩ := List.mem_map.1 hr
        exact (encodeLogKey_lt_iff (hle a (List.mem_append_left _ ha))
          (hle e (List.mem_append_right _ List.mem_cons_self))).2
          ((List.pairwise_append.1 hsorted).2.2 a ha e List.mem_cons_self)
    rw [← List.singleton_append, ← List.append_assoc] at hle hsorted ⊢
    exact ih hput hle hsorted

theorem filter_map_row {entries : List (Entry P)} {p : Bytes × Bytes → Bool} {q : Entry P → Bool}
    (h : ∀ e ∈ entries, p (row serde e) = q e) :
    (entries.map (row serde)).filter p = (entries.filter q).map (row serde) := by
  rw [List.filter_map]
  exact congrArg _ (List.filter_congr h)

section

variable {logId : LogId} (h : Represents serde db log) (hid : logId.index < maxU64)

include h hid

theorem rows_truncate :
    (db.write (truncateBatch logId) .logs).rows =
      (log.entries.filter fun e ↦ e.index < logId.index).map (row serde) := by
  show (((db .logs).rows.filter _).filter _) = _
  rw [List.filter_filter, h.logs]
  refine filter_map_row fun e he ↦ ?_
  have hlt := h.bounded e he
  have hne : encodeLogKey e.index ≠ encodeLogKey maxU64 :=
    fun heq ↦ hlt.ne ((encodeLogKey_inj hlt.le le_rfl).1 heq)
  simp only [row, ne_eq, hne, not_false_eq_true, decide_true, Bool.true_and,
    encodeLogKey_le_iff hid.le hlt.le, encodeLogKey_lt_iff hlt.le le_rfl, hlt, and_true, not_le]

theorem rows_purge :
    (db.write (purgeBatch serde logId) .logs).rows =
      (log.entries.filter fun e ↦ logId.index < e.index).map (row serde) := by
  have hend : min (logId.index + 1) maxU64 = logId.index + 1 := min_eq_left hid
  show ((db .logs).rows.filter _) = _
  rw [h.logs, hend]
  refine filter_map_row fun e he ↦ ?_
  have hlt := h.bounded e he
  simp only [row, encodeLogKey_le_iff (Nat.zero_le _) hlt.le, Nat.zero_le, true_and,
    encodeLogKey_lt_iff hlt.le hid, not_lt, Nat.succ_le_iff]

end

section

variable {entries : List (Entry P)} (h : Consecutive entries)

include h

theorem Consecutive.filter {p q : Entry P → Bool}
    (hfilter : (entries.dropWhile p).takeWhile q = entries.filter q) :
    Consecutive (entries.filter q) := by
  rw [← hfilter]
  exact h.infix ((List.takeWhile_prefix _).isInfix.trans (List.dropWhile_suffix _).isInfix)

theorem Consecutive.filter_lt (index : ℕ) : Consecutive (entries.filter fun e ↦ e.index < index) :=
  h.filter (p := fun _ ↦ false)
    (SortedMap.takeWhile_dropWhile_eq_filter (by simp) (by simp; omega) (by simp) h.sorted)

theorem Consecutive.filter_gt (index : ℕ) : Consecutive (entries.filter fun e ↦ index < e.index) :=
  h.filter (p := fun e ↦ e.index ≤ index)
    (SortedMap.takeWhile_dropWhile_eq_filter (by simp; omega) (by simp; omega) (by simp) h.sorted)

end

/-! ### One call -/

theorem readLastEntry_eq (h : Represents serde db log) :
    readLastEntry serde db = .ok (log.entries.getLast?.map Entry.logId) := by
  rw [readLastEntry, h.logs, List.getLast?_map]
  rcases log.entries.getLast? with _ | e
  · rfl
  · show (do
      let entry ← deserialize serde.entry (serde.entry.encode e)
      return some entry.logId) = _
    rw [deserialize_encode]
    rfl

variable {call : Call P}

/-- **Answers.** The store answers as the log it holds. -/
theorem answer_eq (h : Represents serde db log) (hlegal : Legal log call) :
    call.answer serde db = .ok (log.read call) := by
  cases call with
  | tryGetLogEntries range =>
    rw [Call.answer, tryGetLogEntries_eq serde h.logs (fun e he ↦ (h.bounded e he).le)
      h.consecutive.sorted hlegal.1]
    rfl
  | getLogState =>
    rw [Call.answer, getLogState, readLastEntry_eq h, h.lastPurged]
    rfl
  | readVote => rw [Call.answer, h.vote]; rfl
  | readCommitted => rw [Call.answer, h.committed]; rfl
  | append | truncate | purge | saveVote | saveCommitted | reopen => rfl

variable {db' : LogDb}

theorem readVote_congr (h : (db' .state).get voteKey = (db .state).get voteKey) :
    Raft.readVote serde db' = Raft.readVote serde db := by
  rw [Raft.readVote, h, Raft.readVote]

theorem readCommitted_congr (h : (db' .state).get committedKey = (db .state).get committedKey) :
    Raft.readCommitted serde db' = Raft.readCommitted serde db := by
  rw [Raft.readCommitted, h, Raft.readCommitted]

theorem readLastPurged_congr
    (h : (db' .metadata).get lastPurgedKey = (db .metadata).get lastPurgedKey) :
    readLastPurged serde db' = readLastPurged serde db := by
  rw [readLastPurged, h, readLastPurged]

theorem untouched_buildAppendBatch {entries : List (Entry P)} {cf : LogCF} (hcf : cf ≠ .logs)
    (key : Bytes) : Database.Untouched (buildAppendBatch serde entries) cf key := by
  intro op hop
  obtain ⟨e, -, rfl⟩ := List.mem_map.1 hop
  simp [WriteOp.effect, hcf]

theorem untouched_truncateBatch (logId : LogId) {cf : LogCF} (hcf : cf ≠ .logs) (key : Bytes) :
    Database.Untouched (truncateBatch logId) cf key := by
  intro op hop
  simp only [truncateBatch, List.mem_cons, List.not_mem_nil, or_false] at hop
  rcases hop with rfl | rfl <;> simp [WriteOp.effect, hcf]

/-- **Writes.** The store holds the log that the call leads to. -/
theorem represents_write (h : Represents serde db log) (hlegal : Legal log call) :
    Represents serde (db.write (call.batch serde)) (log.write call) := by
  cases call with
  | append entries =>
    have hbounded : ∀ e ∈ log.entries ++ entries, e.index < maxU64 := fun e he ↦
      (List.mem_append.1 he).elim (h.bounded e) (hlegal.1 e)
    have hframe : ∀ {cf : LogCF}, cf ≠ .logs → ∀ key : Bytes,
        (db.write (buildAppendBatch serde entries) cf).get key = (db cf).get key :=
      fun hcf key ↦ Database.get_write_of_untouched (untouched_buildAppendBatch hcf key)
    exact ⟨rows_append h.logs (fun e he ↦ (hbounded e he).le) hlegal.2.sorted,
      (readLastPurged_congr (hframe (by decide) _)).trans h.lastPurged,
      (readVote_congr (hframe (by decide) _)).trans h.vote,
      (readCommitted_congr (hframe (by decide) _)).trans h.committed, hlegal.2, hbounded⟩
  | truncate logId =>
    have hframe : ∀ {cf : LogCF}, cf ≠ .logs → ∀ key : Bytes,
        (db.write (truncateBatch logId) cf).get key = (db cf).get key :=
      fun hcf key ↦ Database.get_write_of_untouched (untouched_truncateBatch logId hcf key)
    exact ⟨rows_truncate h hlegal,
      (readLastPurged_congr (hframe (by decide) _)).trans h.lastPurged,
      (readVote_congr (hframe (by decide) _)).trans h.vote,
      (readCommitted_congr (hframe (by decide) _)).trans h.committed,
      h.consecutive.filter_lt _, fun e he ↦ h.bounded e (List.mem_of_mem_filter he)⟩
  | purge logId =>
    refine ⟨rows_purge h hlegal, ?_, (readVote_congr rfl).trans h.vote,
      (readCommitted_congr rfl).trans h.committed, h.consecutive.filter_gt _,
      fun e he ↦ h.bounded e (List.mem_of_mem_filter he)⟩
    have hget : (db.write (purgeBatch serde logId) .metadata).get lastPurgedKey =
        some (serde.logId.encode (some logId)) := SortedMap.get_insert_self ..
    rw [readLastPurged, Call.batch, hget]
    exact deserialize_encode ..
  | saveVote vote =>
    have hget : (db.write (saveVoteBatch serde vote) .state).get voteKey =
        some (serde.vote.encode vote) := SortedMap.get_insert_self ..
    have hother : (db.write (saveVoteBatch serde vote) .state).get committedKey =
        (db .state).get committedKey := SortedMap.get_insert_of_ne _ _ (by decide)
    refine ⟨h.logs, (readLastPurged_congr rfl).trans h.lastPurged, ?_,
      (readCommitted_congr hother).trans h.committed, h.consecutive, h.bounded⟩
    rw [Raft.readVote, Call.batch, hget]
    dsimp only
    rw [deserialize_encode]
    rfl
  | saveCommitted committed =>
    have hget : (db.write (saveCommittedBatch serde committed) .state).get committedKey =
        some (serde.logId.encode committed) := SortedMap.get_insert_self ..
    have hother : (db.write (saveCommittedBatch serde committed) .state).get voteKey =
        (db .state).get voteKey := SortedMap.get_insert_of_ne _ _ (by decide)
    refine ⟨h.logs, (readLastPurged_congr rfl).trans h.lastPurged,
      (readVote_congr hother).trans h.vote, ?_, h.consecutive, h.bounded⟩
    rw [Raft.readCommitted, Call.batch, hget]
    exact deserialize_encode ..
  | reopen | tryGetLogEntries | getLogState | readVote | readCommitted => exact h

end Relation

/-! ### Runs -/

/-- **Refinement.** Along every sequence of legal calls on a new store, the store answers every call
as the list of entries does, and that list has consecutive indexes. -/
theorem log_store_refines_list {P : Type} (serde : Serde P) (calls : List (Call P))
    (h : Run.Allowed (Run.next Log.step) Legal {} calls) :
    Run.answers (step serde) Database.empty calls = Run.answers Log.step {} calls ∧
      Consecutive (Run.final (Run.next Log.step) ({} : Log P) calls).entries := by
  have hstep : ∀ (db : LogDb) (log : Log P) (call : Call P), Represents serde db log →
      Legal log call → (step serde db call).1 = (log.step call).1 ∧
        Represents serde (Run.next (step serde) db call) (Run.next Log.step log call) :=
    fun db log call hrep hlegal ↦ ⟨answer_eq hrep hlegal, represents_write hrep hlegal⟩
  obtain ⟨hanswers, hfinal⟩ := Run.simulation hstep represents_empty h
  exact ⟨hanswers, hfinal.consecutive⟩

/-- Entries without contents, for examples. -/
def blankEntry (term index : ℕ) : Entry Unit := ⟨⟨⟨term, 1⟩, index⟩, ()⟩

/-- Three entries of which the last is replaced in the next term and the first is purged, with the
log read in between and after a reopening. -/
theorem log_store_refines_list_replace :
    Run.answers (step Serde.unary) Database.empty
      [.append [blankEntry 1 1, blankEntry 1 2, blankEntry 1 3], .saveVote ⟨⟨2, 1⟩, false⟩,
        .truncate ⟨⟨1, 1⟩, 3⟩, .append [blankEntry 2 3], .purge ⟨⟨1, 1⟩, 1⟩, .reopen,
        .tryGetLogEntries ⟨.excluded 1, .unbounded⟩, .getLogState, .readVote] =
      [.ok .done, .ok .done, .ok .done, .ok .done, .ok .done, .ok .done,
        .ok (.entries [blankEntry 1 2, blankEntry 2 3]),
        .ok (.logState ⟨some ⟨⟨1, 1⟩, 1⟩, some ⟨⟨2, 1⟩, 3⟩⟩),
        .ok (.vote (some ⟨⟨2, 1⟩, false⟩))] :=
  (log_store_refines_list Serde.unary _ (by decide)).1.trans (by decide)

end Kiwi.Raft
