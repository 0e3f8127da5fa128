import Kiwi.Correctness.LogRefinement

/-!
# What the Raft log store keeps over a crash

RocksDB appends every write batch to its write-ahead log, and a write is on the disk for certain
only if it was made with the `sync` option, or when a memtable was flushed since. When the machine
crashes, a suffix of the writes that are not on the disk is lost (`Disk.crash`). The log store
writes with the default options, `db.write` and `db.put_cf`, so nothing that it acknowledges is on
the disk for certain, and `vote_lost_by_crash` is a vote that is gone after `save_vote` returned.

The store is right under the assumption that it makes silently: that a crash keeps every write whose
call has returned (`KeepsReturned`), as it does when only the process dies. Then every vote and
every acknowledged entry survives every run, whatever calls were in flight when the crashes came
(`acknowledged_writes_survive`). With the `sync` option the assumption would hold by itself
(`allowed_keepsReturned_of_sync`).
-/

namespace Kiwi.Raft

/-! ### The disk -/

/-- `rocksdb::WriteOptions`. -/
structure WriteOptions where
  /-- Whether a write waits until it is on the disk. -/
  sync : Bool := false

/-- The write-ahead log of the database. -/
structure Disk where
  /-- The batches written since the database was created, oldest first. -/
  writes : List LogBatch := []
  /-- How many of them are on the disk for certain. -/
  synced : ℕ := 0

namespace Disk

/-- The contents of the database. -/
def contents (disk : Disk) : LogDb := Database.empty.write disk.writes.flatten

/-- Append a batch, which is safe at once if it is written with the `sync` option. -/
def write (options : WriteOptions) (disk : Disk) (batch : LogBatch) : Disk where
  writes := disk.writes ++ [batch]
  synced := if options.sync then disk.writes.length + 1 else disk.synced

/-- Flush the memtables. -/
def flush (disk : Disk) : Disk := { disk with synced := disk.writes.length }

/-- A crash after which the first `kept` writes are found. -/
def crash (disk : Disk) (kept : ℕ) : Disk where
  writes := disk.writes.take kept
  synced := kept

theorem contents_write (options : WriteOptions) (disk : Disk) (batch : LogBatch) :
    (disk.write options batch).contents = disk.contents.write batch := by
  rw [contents, write, List.flatten_append, Database.write_append, List.flatten_singleton]
  rfl

end Disk

/-! ### Runs with crashes -/

/-- The store and, beside it, the calls made so far with whether each returned. -/
structure Machine (P : Type) where
  disk : Disk := {}
  /-- The calls, oldest first. -/
  history : List (Call P × Bool) := []

/-- What happens to a machine. -/
inductive Event (P : Type) where
  /-- A call is made and returns `Ok`; for `append`, the callback has reported success. -/
  | call (call : Call P)
  | flush
  /-- The machine crashes, possibly while a call has made its write and not returned, and the store
  is opened again. The first `kept` writes are found. -/
  | crash (inFlight : Option (Call P)) (kept : ℕ)

section Machine

variable {P : Type} (serde : Serde P) (options : WriteOptions)

/-- A call writes its batch; a crash keeps a first part of the writes. -/
def Machine.step (m : Machine P) : Event P → Machine P
  | .call c => ⟨m.disk.write options (c.batch serde), m.history ++ [(c, true)]⟩
  | .flush => { m with disk := m.disk.flush }
  | .crash none kept => { m with disk := m.disk.crash kept }
  | .crash (some c) kept =>
    ⟨(m.disk.write options (c.batch serde)).crash kept, m.history ++ [(c, false)]⟩

/-- The indexes of a call are `u64`. -/
def Call.Fits : Call P → Prop
  | .append entries => ∀ e ∈ entries, e.index ≤ maxU64
  | .truncate logId => logId.index ≤ maxU64
  | .purge logId => logId.index ≤ maxU64
  | _ => True

instance : ∀ c : Call P, Decidable c.Fits
  | .append _ => inferInstanceAs (Decidable (∀ e ∈ _, _))
  | .truncate _ | .purge _ => inferInstanceAs (Decidable (_ ≤ _))
  | .tryGetLogEntries _ | .saveVote _ | .saveCommitted _ | .reopen | .getLogState | .readVote
  | .readCommitted => inferInstanceAs (Decidable True)

/-- What can happen: a crash loses no write that is on the disk. -/
def Possible (m : Machine P) : Event P → Prop
  | .call c => c.Fits
  | .flush => True
  | .crash none kept => m.disk.synced ≤ kept
  | .crash (some c) kept =>
    c.Fits ∧ (m.disk.write options (c.batch serde)).synced ≤ kept

instance (m : Machine P) : ∀ event, Decidable (Possible serde options m event)
  | .call c => inferInstanceAs (Decidable c.Fits)
  | .flush => inferInstanceAs (Decidable True)
  | .crash none _ => inferInstanceAs (Decidable (_ ≤ _))
  | .crash (some _) _ => inferInstanceAs (Decidable (_ ∧ _))

/-- A crash loses no write whose call has returned. -/
def KeepsReturned (m : Machine P) : Event P → Prop
  | .crash _ kept => m.disk.writes.length ≤ kept
  | _ => True

instance (m : Machine P) : ∀ event, Decidable (KeepsReturned m event)
  | .call _ | .flush => inferInstanceAs (Decidable True)
  | .crash _ _ => inferInstanceAs (Decidable (_ ≤ _))

end Machine

/-! ### What should survive -/

section Survive

variable {P : Type}

/-- The vote is the last one whose `save_vote` returned, or one saved later. -/
def LastVoteOrLater (history : List (Call P × Bool)) : Option Vote → Prop
  | none => ∀ v, (Call.saveVote v, true) ∉ history
  | some v => ∃ before after returned, history = before ++ (.saveVote v, returned) :: after ∧
      ∀ v', (Call.saveVote v', true) ∉ after

/-- The call removes or replaces the entry at an index. -/
def Removes : Call P → ℕ → Prop
  | .append entries, index => ∃ e ∈ entries, e.index = index
  | .truncate logId, index => logId.index ≤ index
  | .purge logId, index => index ≤ logId.index
  | _, _ => False

/-- The entry was appended, the flush callback reported success, and nothing has removed it
since. -/
def Acknowledged (history : List (Call P × Bool)) (e : Entry P) : Prop :=
  ∃ before after front rest,
    history = before ++ (.append (front ++ e :: rest), true) :: after ∧
      (∀ e' ∈ rest, e'.index ≠ e.index) ∧ ∀ c ∈ after, ¬Removes c.1 e.index

/-- What was acknowledged is read back. -/
structure Durable (serde : Serde P) (history : List (Call P × Bool)) (db : LogDb) : Prop where
  /-- `read_vote` returns the last acknowledged vote, or a later one. -/
  vote : ∃ v, readVote serde db = .ok v ∧ LastVoteOrLater history v
  /-- `try_get_log_entries` returns every acknowledged entry of the range. -/
  entries : ∀ e, Acknowledged history e → ∀ range : LogRange, range.startBound.Fits →
    range.contains e.index = true → ∃ es, tryGetLogEntries serde db range = .ok es ∧ e ∈ es

variable {history : List (Call P × Bool)} {c : Call P × Bool}

theorem LastVoteOrLater.concat {v : Option Vote}
    (h : LastVoteOrLater history v) (hc : ∀ v', c ≠ (.saveVote v', true)) :
    LastVoteOrLater (history ++ [c]) v := by
  have hnew : ∀ {l : List (Call P × Bool)} {v' : Vote}, (Call.saveVote v', true) ∉ l →
      (Call.saveVote v', true) ∉ l ++ [c] := by
    intro l v' hl hmem
    rcases List.mem_append.1 hmem with hmem | hmem
    · exact hl hmem
    · exact hc v' (List.mem_singleton.1 hmem).symm
  cases v with
  | none => exact fun v' ↦ hnew (h v')
  | some =>
    obtain ⟨before, after, returned, rfl, hafter⟩ := h
    exact ⟨before, after ++ [c], returned, by simp, fun v' ↦ hnew (hafter v')⟩

theorem Acknowledged.of_concat {e : Entry P} (h : Acknowledged (history ++ [c]) e) :
    Acknowledged history e ∧ ¬Removes c.1 e.index ∨
      ∃ front rest, c = (.append (front ++ e :: rest), true) ∧
        ∀ e' ∈ rest, e'.index ≠ e.index := by
  obtain ⟨before, after, front, rest, heq, hrest, hafter⟩ := h
  rcases List.eq_nil_or_concat after with rfl | ⟨after, last, rfl⟩
  · obtain ⟨-, hlast⟩ := List.append_inj' heq rfl
    exact Or.inr ⟨front, rest, List.singleton_inj.1 hlast, hrest⟩
  · rw [List.concat_eq_append, ← List.cons_append, ← List.append_assoc] at heq
    obtain ⟨hhistory, hlast⟩ := List.append_inj' heq rfl
    obtain rfl := List.singleton_inj.1 hlast
    refine Or.inl ⟨⟨before, after, front, rest, hhistory, hrest, fun c' hc' ↦ ?_⟩, ?_⟩
    · exact hafter c' (by simp [hc'])
    · exact hafter c (by simp)

end Survive

/-! ### The invariant -/

section Invariant

variable {P : Type} {serde : Serde P} {db : LogDb} {history : List (Call P × Bool)}

/-- The row of the entry is in the store. -/
def Holds (serde : Serde P) (db : LogDb) (e : Entry P) : Prop :=
  (db .logs).get (encodeLogKey e.index) = some (serde.entry.encode e)

/-- The state that calls preserve. -/
structure Kept (serde : Serde P) (history : List (Call P × Bool)) (db : LogDb) : Prop where
  /-- The vote is the last acknowledged one, or a later one. -/
  vote : ∃ v, readVote serde db = .ok v ∧ LastVoteOrLater history v
  rows : ∀ r ∈ (db .logs).rows, ∃ e : Entry P, e.index ≤ maxU64 ∧ r = row serde e
  /-- Acknowledged entries are there. -/
  entries : ∀ e, Acknowledged history e → Holds serde db e
  /-- Indexes of acknowledged entries are `u64`. -/
  fits : ∀ e, Acknowledged history e → e.index ≤ maxU64

theorem kept_empty : Kept serde [] Database.empty where
  vote := ⟨none, rfl, fun _ ↦ List.not_mem_nil⟩
  rows _ hr := absurd hr List.not_mem_nil
  entries e h := by
    obtain ⟨before, after, front, rest, heq, -⟩ := h
    simp at heq
  fits e h := by
    obtain ⟨before, after, front, rest, heq, -⟩ := h
    simp at heq

theorem exists_map_eq {α β : Type} {f : α → β} {p : α → Prop} {l : List β}
    (h : ∀ b ∈ l, ∃ a, p a ∧ b = f a) : ∃ as : List α, l = as.map f ∧ ∀ a ∈ as, p a := by
  induction l with
  | nil => exact ⟨[], rfl, fun a ha ↦ absurd ha List.not_mem_nil⟩
  | cons b l ih =>
    obtain ⟨a, ha, rfl⟩ := h b List.mem_cons_self
    obtain ⟨as, rfl, has⟩ := ih fun b' hb' ↦ h b' (List.mem_cons_of_mem _ hb')
    exact ⟨a :: as, rfl, List.forall_mem_cons.2 ⟨ha, has⟩⟩

theorem Kept.durable (h : Kept serde history db) : Durable serde history db where
  vote := h.vote
  entries e he range hrange hin := by
    obtain ⟨entries, hrows, hle⟩ := exists_map_eq h.rows
    have hsorted : entries.Pairwise fun a b ↦ a.index < b.index := by
      have hkeys := (db .logs).sorted
      rw [hrows, List.pairwise_map] at hkeys
      exact hkeys.imp_of_mem fun ha hb hab ↦ (encodeLogKey_lt_iff (hle _ ha) (hle _ hb)).1 hab
    refine ⟨_, tryGetLogEntries_eq serde hrows hle hsorted hrange, ?_⟩
    have hmem := SortedMap.get_eq_some_iff.1 (h.entries e he)
    rw [hrows] at hmem
    obtain ⟨e', he', heq⟩ := List.mem_map.1 hmem
    have hvalue : serde.entry.encode e' = serde.entry.encode e := congrArg Prod.snd heq
    have hsame : some e' = some e := by
      rw [← serde.entry.decode_encode e', hvalue, serde.entry.decode_encode]
    rw [← Option.some.inj hsame] at hin ⊢
    exact List.mem_filter.2 ⟨he', hin⟩

variable {c : Call P}

/-- A call that does not remove an entry does not touch its row. -/
theorem untouched_of_not_removes (hfits : c.Fits) {index : ℕ} (hindex : index ≤ maxU64)
    (h : ¬Removes c index) : Database.Untouched (c.batch serde) .logs (encodeLogKey index) := by
  intro op hop
  cases c with
  | append =>
    obtain ⟨e, he, rfl⟩ := List.mem_map.1 hop
    have hne : encodeLogKey index ≠ encodeLogKey e.index := fun heq ↦
      h ⟨e, he, ((encodeLogKey_inj hindex (hfits e he)).1 heq).symm⟩
    simp [WriteOp.effect, hne]
  | truncate logId =>
    have hlt : index < logId.index := not_le.1 h
    have hstart : ¬encodeLogKey logId.index ≤ encodeLogKey index := by
      rw [encodeLogKey_le_iff hfits hindex]
      exact not_le.2 hlt
    have hlast : encodeLogKey index ≠ encodeLogKey maxU64 := fun heq ↦ by
      have := (encodeLogKey_inj hindex le_rfl).1 heq
      have : logId.index ≤ maxU64 := hfits
      omega
    simp only [Call.batch, truncateBatch, List.mem_cons, List.not_mem_nil, or_false] at hop
    rcases hop with rfl | rfl
    · simp [WriteOp.effect, hstart]
    · simp [WriteOp.effect, hlast]
  | purge logId =>
    have hlt : logId.index < index := not_le.1 h
    have hend : ¬encodeLogKey index < encodeLogKey (min (logId.index + 1) maxU64) := by
      rw [encodeLogKey_lt_iff hindex (min_le_right _ _)]
      omega
    simp only [Call.batch, purgeBatch, List.mem_cons, List.not_mem_nil, or_false] at hop
    rcases hop with rfl | rfl
    · simp [WriteOp.effect, hend]
    · simp [WriteOp.effect]
  | saveVote | saveCommitted =>
    obtain rfl := List.mem_singleton.1 hop
    simp [WriteOp.effect]
  | reopen | tryGetLogEntries | getLogState | readVote | readCommitted => cases hop

theorem holds_append {front rest : List (Entry P)} {e : Entry P}
    (hfits : (Call.append (front ++ e :: rest)).Fits) (hrest : ∀ e' ∈ rest, e'.index ≠ e.index) :
    Holds serde (db.write (buildAppendBatch serde (front ++ e :: rest))) e := by
  have hindex : e.index ≤ maxU64 := hfits e (by simp)
  have hrestFits : (Call.append rest).Fits := fun e' he' ↦ hfits e' (by simp [he'])
  have huntouched : Database.Untouched ((Call.append rest).batch serde) .logs
      (encodeLogKey e.index) :=
    untouched_of_not_removes hrestFits hindex fun ⟨e', he', heq⟩ ↦ hrest e' he' heq
  rw [Holds, buildAppendBatch, List.map_append, List.map_cons, Database.write_append,
    Database.write_cons, ← buildAppendBatch]
  exact (Database.get_write_of_untouched huntouched).trans (SortedMap.get_insert_self ..)

theorem rows_write (hfits : c.Fits)
    (h : ∀ r ∈ (db .logs).rows, ∃ e : Entry P, e.index ≤ maxU64 ∧ r = row serde e) :
    ∀ r ∈ (db.write (c.batch serde) .logs).rows,
      ∃ e : Entry P, e.index ≤ maxU64 ∧ r = row serde e := by
  cases c with
  | append entries =>
    show ∀ r ∈ (db.write (buildAppendBatch serde entries) .logs).rows, _
    induction entries generalizing db with
    | nil => exact h
    | cons e entries ih =>
      refine ih (fun r hr ↦ ?_) fun e' he' ↦ hfits e' (List.mem_cons_of_mem _ he')
      rcases (SortedMap.mem_insertRows (db .logs).sorted).1 hr with rfl | hr
      · exact ⟨e, hfits e List.mem_cons_self, rfl⟩
      · exact h r hr.1
  | truncate =>
    exact fun r hr ↦ h r (List.mem_of_mem_filter (List.mem_of_mem_filter hr))
  | purge => exact fun r hr ↦ h r (List.mem_of_mem_filter hr)
  | saveVote | saveCommitted | reopen | tryGetLogEntries | getLogState | readVote
  | readCommitted => exact h

/-- **One call.** A call that makes its write keeps what was acknowledged, whether or not it
returns. -/
theorem Kept.write (h : Kept serde history db) (hfits : c.Fits) (returned : Bool) :
    Kept serde (history ++ [(c, returned)]) (db.write (c.batch serde)) where
  vote := by
    obtain ⟨v, hread, hlast⟩ := h.vote
    by_cases hc : ∃ vote, c = .saveVote vote
    · obtain ⟨vote, rfl⟩ := hc
      have hget : (db.write (saveVoteBatch serde vote) .state).get voteKey =
          some (serde.vote.encode vote) := SortedMap.get_insert_self ..
      refine ⟨some vote, ?_, history, [], returned, rfl, fun _ ↦ List.not_mem_nil⟩
      rw [readVote, Call.batch, hget]
      dsimp only
      rw [deserialize_encode]
      rfl
    · have hframe : (db.write (c.batch serde) .state).get voteKey = (db .state).get voteKey := by
        cases c with
        | append =>
          exact Database.get_write_of_untouched (untouched_buildAppendBatch (by decide) _)
        | saveVote vote => exact absurd ⟨vote, rfl⟩ hc
        | saveCommitted => exact SortedMap.get_insert_of_ne _ _ (by decide)
        | truncate | purge | reopen | tryGetLogEntries | getLogState | readVote
        | readCommitted => rfl
      refine ⟨v, (readVote_congr hframe).trans hread, hlast.concat fun v' heq ↦ hc ⟨v', ?_⟩⟩
      exact congrArg Prod.fst heq
  rows := rows_write hfits h.rows
  entries e he := by
    rcases he.of_concat with ⟨hold, hkeep⟩ | ⟨front, rest, heq, hrest⟩
    · exact (Database.get_write_of_untouched
        (untouched_of_not_removes hfits (h.fits e hold) hkeep)).trans (h.entries e hold)
    · obtain ⟨rfl, -⟩ := Prod.mk.injEq .. ▸ heq
      exact holds_append hfits hrest
  fits e he := by
    rcases he.of_concat with ⟨hold, -⟩ | ⟨front, rest, heq, hrest⟩
    · exact h.fits e hold
    · obtain ⟨rfl, -⟩ := Prod.mk.injEq .. ▸ heq
      exact hfits e (by simp)

/-- A call that was lost, and did not return, keeps what was acknowledged. -/
theorem Kept.lost (h : Kept serde history db) (c : Call P) :
    Kept serde (history ++ [(c, false)]) db where
  vote := by
    obtain ⟨v, hread, hlast⟩ := h.vote
    exact ⟨v, hread, hlast.concat fun v' heq ↦ by cases heq⟩
  rows := h.rows
  entries e he := by
    rcases he.of_concat with ⟨hold, -⟩ | ⟨front, rest, heq, -⟩
    · exact h.entries e hold
    · cases heq
  fits e he := by
    rcases he.of_concat with ⟨hold, -⟩ | ⟨front, rest, heq, -⟩
    · exact h.fits e hold
    · cases heq

end Invariant

/-! ### Runs -/

section Runs

variable {P : Type} {serde : Serde P} {options : WriteOptions}

/-- **One event.** What was acknowledged survives a crash that keeps the writes of returned
calls. -/
theorem kept_step {m : Machine P} {event : Event P} (h : Kept serde m.history m.disk.contents)
    (hpossible : Possible serde options m event) (hkeeps : KeepsReturned m event) :
    Kept serde (m.step serde options event).history
      (m.step serde options event).disk.contents := by
  cases event with
  | call =>
    rw [Machine.step, Disk.contents_write]
    exact h.write hpossible true
  | flush => exact h
  | crash inFlight kept =>
    cases inFlight with
    | none =>
      have hall : (m.disk.crash kept).contents = m.disk.contents := by
        rw [Disk.contents, Disk.crash, List.take_of_length_le hkeeps, Disk.contents]
      rw [Machine.step, hall]
      exact h
    | some c =>
      have hlen : (m.disk.write options (c.batch serde)).writes.length =
          m.disk.writes.length + 1 := by simp [Disk.write]
      rw [Machine.step]
      -- the write that was in flight is found or not
      rcases Nat.lt_or_ge m.disk.writes.length kept with hlt | hge
      · have hall : ((m.disk.write options (c.batch serde)).crash kept).contents =
            m.disk.contents.write (c.batch serde) := by
          rw [Disk.contents, Disk.crash, List.take_of_length_le (by omega),
            ← Disk.contents_write options]
          rfl
        rw [hall]
        exact h.write hpossible.1 false
      · have hall : ((m.disk.write options (c.batch serde)).crash kept).contents =
            m.disk.contents := by
          obtain rfl : kept = m.disk.writes.length := le_antisymm hge hkeeps
          rw [Disk.contents, Disk.crash, Disk.write, List.take_left', Disk.contents]
          rfl
        rw [hall]
        exact h.lost c

end Runs

/-- **Durability.** In every run of the store whose crashes keep the writes of returned calls, the
vote that is read is the last acknowledged one or a later one, and every acknowledged entry that was
not removed since is read. -/
theorem acknowledged_writes_survive {P : Type} (serde : Serde P) (events : List (Event P))
    (h : Run.Allowed (Machine.step serde {})
      (fun m event ↦ Possible serde {} m event ∧ KeepsReturned m event) {} events) :
    Durable serde (Run.final (Machine.step serde {}) ({} : Machine P) events).history
      (Run.final (Machine.step serde {}) ({} : Machine P) events).disk.contents :=
  Kept.durable (Run.invariant (I := fun m ↦ Kept serde m.history m.disk.contents)
    (fun _ _ hm hok ↦ kept_step hm hok.1 hok.2) kept_empty h)

/-- An entry and a vote survive a crash during another vote. -/
theorem acknowledged_writes_survive_inFlight :
    ∃ es, tryGetLogEntries Serde.unary
      (Run.final (Machine.step Serde.unary {}) ({} : Machine Unit)
        [.call (.append [blankEntry 1 1]), .call (.saveVote ⟨⟨2, 1⟩, false⟩),
          .crash (some (.saveVote ⟨⟨3, 1⟩, false⟩)) 2]).disk.contents
      ⟨.unbounded, .unbounded⟩ = .ok es ∧ blankEntry 1 1 ∈ es := by
  refine (acknowledged_writes_survive Serde.unary _ (by decide)).entries _
    ⟨[], [(.saveVote ⟨⟨2, 1⟩, false⟩, true), (.saveVote ⟨⟨3, 1⟩, false⟩, false)], [], [], rfl,
      fun _ h ↦ absurd h List.not_mem_nil, ?_⟩ _ trivial rfl
  intro c hc
  simp only [List.mem_cons, List.not_mem_nil, or_false] at hc
  rcases hc with rfl | rfl <;> exact id

/-- A vote was acknowledged and is gone after a crash. -/
theorem vote_lost_by_crash :
    Run.Allowed (Machine.step Serde.unary {}) (Possible Serde.unary {}) ({} : Machine Unit)
        [.call (.saveVote ⟨⟨2, 1⟩, false⟩), .crash none 0] ∧
      ¬Durable Serde.unary
        (Run.final (Machine.step Serde.unary {}) ({} : Machine Unit)
          [.call (.saveVote ⟨⟨2, 1⟩, false⟩), .crash none 0]).history
        (Run.final (Machine.step Serde.unary {}) ({} : Machine Unit)
          [.call (.saveVote ⟨⟨2, 1⟩, false⟩), .crash none 0]).disk.contents := by
  refine ⟨by decide, fun h ↦ ?_⟩
  obtain ⟨v, hread, hlast⟩ := h.vote
  have hnone : readVote (Serde.unary (P := Unit)) Database.empty = .ok none := rfl
  obtain rfl : none = v := Except.ok.inj (hnone.symm.trans hread)
  exact hlast _ (List.mem_singleton.2 rfl)

end Kiwi.Raft
