import Kiwi.Raft.Cluster
import Kiwi.Lib.Run

/-!
# Lost updates in the cluster

A new leader holds the whole committed log but may not have applied all of it. An INCR that it
executes then reads an old value, and its binlog overwrites the increments that it has not seen
(`incr_lost_by_new_leader`). The same happens when a node reads, loses leadership, and is leader
again when it proposes.

`no_lost_update` is what holds: if a leader has applied the whole committed log whenever it reads,
and leadership has not moved between the read of a command and its proposal (`Fresh`), then the
`i`-th committed INCR returned `i`, and the log leaves the number of INCRs as the value of the key.
The invariant (`Counting`) says that the log counts, and that the only command that could still be
proposed continues the count.
-/

namespace Kiwi.Raft

variable {S : Type} [LinearOrder S]

/-- What the cluster would have to make sure: a leader that reads has applied the whole log, and
proposes in the term in which it read. -/
def Fresh (s : Cluster S) : ClusterAction → Prop
  | .read node _ => s.leader = node → s.applied node = s.log.length
  | .commit node => ∀ c ∈ s.pending node, c.term = s.term
  | _ => True

instance (s : Cluster S) : ∀ action, Decidable (Fresh s action)
  | .read node _ => inferInstanceAs (Decidable (s.leader = node → s.applied node = s.log.length))
  | .commit node =>
    decidable_of_iff (∀ c ∈ (s.pending node).toList, c.term = s.term)
      (forall_congr' fun _ ↦ imp_congr_left Option.mem_toList)
  | .lead _ | .apply _ | .finish _ => inferInstanceAs (Decidable True)

/-- The `i`-th binlog puts the number `i`, an `i64`, and its command returned it. -/
structure Counts (key : Bytes) (i : ℕ) (c : Committed S) : Prop where
  /-- The command returned the number. -/
  value : c.value = (i : ℤ)
  range : -2 ^ 63 ≤ (i : ℤ) ∧ (i : ℤ) < 2 ^ 63
  binlog : ∃ ctime, c.binlog = [Strings.putString key (formatI64 i) ctime 0]

/-- What holds between any two steps. -/
structure Counting (key : Bytes) (s : Cluster S) : Prop where
  /-- The log counts from one. -/
  log : ∀ i (h : i < s.log.length), Counts key (i + 1) s.log[i]
  /-- Commands read in this term or an earlier one. -/
  term_le : ∀ node, ∀ c ∈ s.pending node, c.term ≤ s.term
  /-- A command of the leader that read in this term and was not committed continues the count. -/
  pending : ∀ c ∈ s.pending s.leader, c.term = s.term → c.index = none →
    Counts key (s.log.length + 1) ⟨c.binlog, c.value⟩

/-! ### Reading -/

variable {log : List (Committed S)}

theorem contentsAfter_concat (c : Committed S) :
    contentsAfter (log ++ [c]) = (contentsAfter log).write c.binlog :=
  List.foldl_append

variable {key : Bytes}

theorem stringValue_contentsAfter (h : ∀ i (hi : i < log.length), Counts key (i + 1) log[i])
    (now : ℕ) :
    (log = [] ∧ (contentsAfter log).stringValue key now = .ok none) ∨
      (-2 ^ 63 ≤ (log.length : ℤ) ∧ (log.length : ℤ) < 2 ^ 63) ∧
        ∃ ctime, (contentsAfter log).stringValue key now =
          .ok (some ⟨formatI64 log.length, ctime, 0⟩) := by
  rcases List.eq_nil_or_concat log with rfl | ⟨front, last, rfl⟩
  · exact Or.inl ⟨rfl, rfl⟩
  · rw [List.concat_eq_append] at h ⊢
    have hlast := h front.length (by simp)
    simp only [List.getElem_concat_length] at hlast
    obtain ⟨-, hrange, ctime, hbinlog⟩ := hlast
    have hlength : (front ++ [last]).length = front.length + 1 := List.length_append
    rw [← hlength] at hrange hbinlog
    refine Or.inr ⟨hrange, ctime, ?_⟩
    have hget : (contentsAfter (front ++ [last])).metaCF.get key =
        some (.string ⟨formatI64 (front ++ [last]).length, ctime, 0⟩) := by
      rw [contentsAfter_concat, hbinlog]
      exact SortedMap.get_insert_self ..
    rw [Redis.stringValue, Redis.liveMeta_eq_some_iff.2 ⟨hget, rfl⟩]

theorem checkedAddI64_eq_some {a b n : ℤ} (h : checkedAddI64 a b = some n) :
    n = a + b ∧ -2 ^ 63 ≤ n ∧ n < 2 ^ 63 := by
  rw [checkedAddI64] at h
  split at h
  · rename_i hrange
    obtain rfl := Option.some.inj h
    exact ⟨rfl, hrange⟩
  · cases h

omit [LinearOrder S] in
theorem counts_succ {n : ℕ} {m : ℤ} (h : checkedAddI64 n 1 = some m) (ctime : ℕ) :
    Counts key (n + 1)
      (⟨[Strings.putString key (formatI64 m) ctime 0], m⟩ : Committed S) := by
  obtain ⟨hm, hrange⟩ := checkedAddI64_eq_some h
  have hcast : m = ((n + 1 : ℕ) : ℤ) := hm.trans (Int.natCast_succ n).symm
  rw [hcast] at hrange
  exact ⟨hcast, hrange, ctime, by rw [hcast]⟩

variable {now : ℕ} {db : Redis S}

theorem incrDecrBatch_of_none {incr value : ℤ}
    {binlog : Batch S} (hread : db.stringValue key now = .ok none)
    (h : incrDecrBatch db key incr now = .ok (value, binlog)) :
    checkedAddI64 0 incr = some value ∧
      binlog = [Strings.putString key (formatI64 value) now 0] := by
  rw [incrDecrBatch, hread, Program.except_ok_bind] at h
  dsimp only at h
  rcases hadd : checkedAddI64 0 incr with _ | m <;> rw [hadd] at h
  · cases h
  · obtain ⟨rfl, rfl⟩ := Prod.mk.inj (Except.ok.inj h)
    exact ⟨rfl, rfl⟩

theorem incrDecrBatch_of_some {incr value n : ℤ}
    {binlog : Batch S} {old : StringsValue} (hread : db.stringValue key now = .ok (some old))
    (hparse : parseI64 (fromUtf8Lossy old.userValue) = some n)
    (h : incrDecrBatch db key incr now = .ok (value, binlog)) :
    checkedAddI64 n incr = some value ∧
      binlog = [Strings.putString key (formatI64 value) old.ctime old.etime] := by
  rw [incrDecrBatch, hread, Program.except_ok_bind] at h
  dsimp only at h
  rw [hparse] at h
  dsimp only at h
  rcases hadd : checkedAddI64 n incr with _ | m <;> rw [hadd] at h
  · cases h
  · obtain ⟨rfl, rfl⟩ := Prod.mk.inj (Except.ok.inj h)
    exact ⟨rfl, rfl⟩

variable {value : ℤ}

/-- **INCR after the whole log** continues the count. -/
theorem counts_of_incrDecrBatch (h : ∀ i (hi : i < log.length), Counts key (i + 1) log[i])
    {binlog : Batch S} (hincr : incrDecrBatch (contentsAfter log) key 1 now = .ok (value, binlog)) :
    Counts key (log.length + 1) ⟨binlog, value⟩ := by
  rcases stringValue_contentsAfter h now with ⟨rfl, hnone⟩ | ⟨hrange, ctime, hsome⟩
  · obtain ⟨hadd, rfl⟩ := incrDecrBatch_of_none hnone hincr
    rw [← Nat.cast_zero] at hadd
    exact counts_succ hadd now
  · have hparse : parseI64 (fromUtf8Lossy (formatI64 log.length)) = some (log.length : ℤ) := by
      rw [fromUtf8Lossy_of_isUtf8 (isUtf8_formatI64 _), parseI64_formatI64 hrange]
    obtain ⟨hadd, rfl⟩ := incrDecrBatch_of_some hsome hparse hincr
    exact counts_succ hadd ctime

/-! ### Steps -/

section Step

variable {S : Type} {key : Bytes} {s : Cluster S}

variable {node : ℕ}

theorem pending_setPending (command : Option (Command S)) (other : ℕ) :
    (s.setPending node command).pending other =
      if other = node then command else s.pending other := by
  rcases eq_or_ne other node with rfl | hne
  · rw [if_pos rfl]
    exact Function.update_self ..
  · rw [if_neg hne]
    exact Function.update_of_ne hne ..

section

variable (h : Counting key s)

include h

theorem Counting.finish (node : ℕ) :
    Counting key (s.setPending node none) where
  log := h.log
  term_le other c hc := by
    rw [pending_setPending] at hc
    split_ifs at hc
    · cases hc
    · exact h.term_le other c hc
  pending c hc := by
    rw [pending_setPending] at hc
    split_ifs at hc
    · cases hc
    · exact h.pending c hc

theorem Counting.read {binlog : Batch S}
    (hcounts : s.leader = node → Counts key (s.log.length + 1) ⟨binlog, value⟩) :
    Counting key (s.setPending node (some ⟨binlog, value, s.term, none⟩)) where
  log := h.log
  term_le other c hc := by
    rw [pending_setPending] at hc
    split_ifs at hc
    · obtain rfl := Option.some.inj hc
      exact le_rfl
    · exact h.term_le other c hc
  pending c hc := by
    rw [pending_setPending] at hc
    split_ifs at hc with hleader
    · obtain rfl := Option.some.inj hc
      exact fun _ _ ↦ hcounts hleader
    · exact h.pending c hc

theorem Counting.commit {binlog : Batch S} {term : ℕ}
    (hpending : s.pending node = some ⟨binlog, value, term, none⟩) (hleader : s.leader = node)
    (hterm : term = s.term) :
    Counting key { s.setPending node (some ⟨binlog, value, term, some s.log.length⟩) with
      log := s.log ++ [⟨binlog, value⟩] } := by
  subst hleader
  have hnext := h.pending _ hpending hterm rfl
  refine ⟨fun i hi ↦ ?_, fun other c hc ↦ ?_, fun c hc ↦ ?_⟩
  · rcases Nat.lt_or_ge i s.log.length with hlt | hge
    · simpa only [List.getElem_append_left hlt] using h.log i hlt
    · have hi' : i = s.log.length := by
        have : i < (s.log ++ [(⟨binlog, value⟩ : Committed S)]).length := hi
        rw [List.length_append, List.length_singleton] at this
        omega
      subst hi'
      simpa only [List.getElem_concat_length] using hnext
  · have hc' : c ∈ (s.setPending s.leader
        (some ⟨binlog, value, term, some s.log.length⟩)).pending other := hc
    rw [pending_setPending] at hc'
    split_ifs at hc'
    · obtain rfl := Option.some.inj hc'
      exact hterm.le
    · exact h.term_le other c hc'
  · have hc' : c ∈ (s.setPending s.leader
        (some ⟨binlog, value, term, some s.log.length⟩)).pending s.leader := hc
    rw [pending_setPending, if_pos rfl] at hc'
    obtain rfl := Option.some.inj hc'
    exact fun _ hnone ↦ by cases hnone

/-- **One step** keeps the count. -/
theorem counting_step [LinearOrder S] {action : ClusterAction}
    (hfresh : Fresh s action) : Counting key (s.step key action) := by
  cases action with
  | lead node =>
    refine ⟨h.log, fun other c hc ↦ (h.term_le other c hc).trans (Nat.le_succ _),
      fun c hc hterm ↦ ?_⟩
    -- no command has read in the new term
    have hle := h.term_le node c hc
    have hterm' : c.term = s.term + 1 := hterm
    omega
  | apply node =>
    rw [Cluster.step]
    split_ifs
    · exact ⟨h.log, h.term_le, h.pending⟩
    · exact h
  | read node now =>
    rw [Cluster.step]
    split
    · exact h
    · split
      · exact h
      · rename_i value binlog hincr
        refine h.read fun hleader ↦ ?_
        rw [hfresh hleader, List.take_length] at hincr
        exact counts_of_incrDecrBatch h.log hincr
  | commit node =>
    rw [Cluster.step]
    split
    · rename_i binlog value term hpending
      split_ifs with hleader
      · exact h.commit hpending hleader (hfresh _ hpending)
      · exact h
    · exact h
  | finish node => exact h.finish node

end

end Step

/-! ### Runs -/

/-- **No lost update.** In every run of a cluster in which leaders read only when they have applied
the whole log, and propose in the term in which they read, the `i`-th committed INCR returned `i`,
and after the whole log the key holds the number of committed INCRs. -/
theorem no_lost_update (key : Bytes) (actions : List ClusterAction)
    (h : Run.Allowed (Cluster.step key) Fresh ({} : Cluster S) actions) :
    (∀ i (hi : i < (Run.final (Cluster.step key) ({} : Cluster S) actions).log.length),
      (Run.final (Cluster.step key) ({} : Cluster S) actions).log[i].value = (i : ℤ) + 1) ∧
    ∀ now, ∃ ctime,
      (contentsAfter (Run.final (Cluster.step key) ({} : Cluster S) actions).log).stringValue key
        now = .ok (if (Run.final (Cluster.step key) ({} : Cluster S) actions).log = [] then none
          else some ⟨formatI64 (Run.final (Cluster.step key) ({} : Cluster S) actions).log.length,
            ctime, 0⟩) := by
  have hstart : Counting key ({} : Cluster S) :=
    ⟨fun i hi ↦ absurd hi (Nat.not_lt_zero _), fun _ _ hc ↦ (nomatch hc), fun _ hc ↦ (nomatch hc)⟩
  have hcount := Run.invariant (I := Counting key) (fun _ _ hs hok ↦ counting_step hs hok) hstart h
  generalize Run.final (Cluster.step key) ({} : Cluster S) actions = s at hcount
  refine ⟨fun i hi ↦ (hcount.log i hi).value.trans (Int.natCast_succ i), fun now ↦ ?_⟩
  rcases stringValue_contentsAfter hcount.log now with ⟨hnil, hnone⟩ | ⟨-, ctime, hsome⟩
  · exact ⟨0, by rw [if_pos hnil, hnone]⟩
  · rcases hlog : s.log with _ | ⟨c, log⟩
    · exact ⟨0, by rw [if_pos rfl]; rfl⟩
    · rw [hlog] at hsome
      exact ⟨ctime, by rw [if_neg (List.cons_ne_nil _ _), hsome]⟩

/-- Leadership moves after an INCR, and the new leader applies it before its own. -/
theorem no_lost_update_moved :
    (Run.final (Cluster.step [0x6B]) ({} : Cluster ℤ)
      [.read 0 5, .commit 0, .apply 0, .finish 0, .lead 1, .apply 1, .read 1 6,
        .commit 1]).log.map (·.value) = [1, 2] ∧
    ∀ now, ∃ ctime,
      (contentsAfter (Run.final (Cluster.step [0x6B]) ({} : Cluster ℤ)
        [.read 0 5, .commit 0, .apply 0, .finish 0, .lead 1, .apply 1, .read 1 6,
          .commit 1]).log).stringValue [0x6B] now =
        .ok (if (Run.final (Cluster.step [0x6B]) ({} : Cluster ℤ)
          [.read 0 5, .commit 0, .apply 0, .finish 0, .lead 1, .apply 1, .read 1 6,
            .commit 1]).log = [] then none
          else some ⟨formatI64 (Run.final (Cluster.step [0x6B]) ({} : Cluster ℤ)
            [.read 0 5, .commit 0, .apply 0, .finish 0, .lead 1, .apply 1, .read 1 6,
              .commit 1]).log.length, ctime, 0⟩) :=
  ⟨by decide +kernel, (no_lost_update [0x6B] [.read 0 5, .commit 0, .apply 0, .finish 0, .lead 1,
    .apply 1, .read 1 6, .commit 1] (by decide +kernel)).2⟩

/-- An INCR is committed, leadership moves to a node that has not applied it, and the INCR there
returns `1` again: two INCRs are committed and the value is `1`. -/
theorem incr_lost_by_new_leader :
    (Run.final (Cluster.step [0x6B]) ({} : Cluster ℤ)
      [.read 0 5, .commit 0, .lead 1, .read 1 6, .commit 1]).log.map (·.value) = [1, 1] ∧
    (contentsAfter (Run.final (Cluster.step [0x6B]) ({} : Cluster ℤ)
      [.read 0 5, .commit 0, .lead 1, .read 1 6, .commit 1]).log).stringValue [0x6B] 7 =
      .ok (some ⟨formatI64 1, 6, 0⟩) := by
  decide +kernel

end Kiwi.Raft
