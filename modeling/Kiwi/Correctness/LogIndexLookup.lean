import Kiwi.Correctness.FlushWatermark
import Mathlib.Data.List.Induction
import Mathlib.Data.List.TakeDrop

/-!
# The log index of a sequence number

The collector records pairs of log index and sequence number, all of them or a sample, purges old
ones, and is exported to a snapshot as text and restored from it. `lookup_sound`: after any history
of that kind, what `find_applied_log_index` returns for a sequence number covers no update behind
it; it is the largest such index if nothing was left out or purged, and a purge does not change it
from the last purged pair on.

Pairs rise in both components (`Rising`), and what is recorded is a part of the history
(`Records`), whatever is sampled, purged and restored: what is exported is read back as it was
(`restoreState_exportState`).
-/

namespace Kiwi.LogIndex

open Collector

/-- Both components rise. -/
def Rising (a b : Mark) : Prop := a.logIndex < b.logIndex ∧ a.seqno < b.seqno

instance (a b : Mark) : Decidable (Rising a b) := inferInstanceAs (Decidable (_ ∧ _))

/-- It fits `LogIndex` and `SequenceNumber`. -/
def Mark.Fits (p : Mark) : Prop := p.logIndex < 2 ^ 63 ∧ p.seqno < 2 ^ 64

instance (p : Mark) : Decidable p.Fits := inferInstanceAs (Decidable (_ ∧ _))

/-- What happens to a collector. -/
inductive CollectorEvent where
  | update (pair : Mark)
  | purge (smallest : ℕ)
  /-- It is exported, and restored into a new one with the same step. -/
  | restore

/-- What an event does to the collector. -/
def Collector.step (c : Collector) : CollectorEvent → Collector
  | .update p => c.update p.logIndex p.seqno
  | .purge smallest => c.purge smallest
  | .restore => restoreState ⟨c.stepLengthMask, []⟩ c.exportState

/-- The updates of a history. -/
def updates (events : List CollectorEvent) : List Mark :=
  events.filterMap fun
    | .update p => some p
    | _ => none

/-! ### Text -/

theorem mem_natDigits {fuel n : ℕ} {acc : Bytes} {b : UInt8} (h : b ∈ natDigits fuel n acc) :
    b ∈ acc ∨ ∃ d, b = UInt8.ofNat (48 + d % 10) := by
  induction fuel generalizing n acc with
  | zero => exact Or.inl h
  | succ fuel ih =>
    have hcons (hb : b ∈ UInt8.ofNat (48 + n % 10) :: acc) :
        b ∈ acc ∨ ∃ d, b = UInt8.ofNat (48 + d % 10) :=
      (List.mem_cons.1 hb).symm.imp_right fun hb ↦ ⟨n, hb⟩
    rw [natDigits] at h
    split_ifs at h
    · exact hcons h
    · exact (ih h).elim hcons Or.inr

theorem ne_colon_of_mem_formatI64 {n : ℕ} {b : UInt8} (h : b ∈ formatI64 n) : b ≠ 0x3A := by
  rw [formatI64, if_neg (Int.not_lt.2 (Int.natCast_nonneg n))] at h
  obtain ⟨d, rfl⟩ := (mem_natDigits h).resolve_left List.not_mem_nil
  have hlt : d % 10 < 10 := Nat.mod_lt _ (by decide)
  generalize d % 10 = e at hlt
  interval_cases e <;> decide

variable (c : Collector)

theorem restoreEntry_exported {p : Mark} (hfits : p.Fits) :
    c.restoreEntry (formatI64 p.logIndex ++ 0x3A :: formatNat p.seqno) =
      c.update p.logIndex p.seqno := by
  have hspan : (formatI64 p.logIndex ++ 0x3A :: formatNat p.seqno).span (· ≠ 0x3A) =
      (formatI64 p.logIndex, 0x3A :: formatNat p.seqno) := by
    have htext : ∀ b ∈ formatI64 p.logIndex, decide (b ≠ 0x3A) = true :=
      fun b hb ↦ decide_eq_true (ne_colon_of_mem_formatI64 hb)
    rw [List.span_eq_takeWhile_dropWhile, List.takeWhile_append_of_pos htext,
      List.dropWhile_append_of_pos htext]
    simp
  have hindex : parseI64 (formatI64 (p.logIndex : ℤ)) = some (p.logIndex : ℤ) :=
    parseI64_formatI64 ⟨by omega, by have := hfits.1; omega⟩
  rw [restoreEntry, hspan]
  dsimp only
  rw [hindex, parseU64_formatNat hfits.2]
  dsimp only
  rw [if_neg (Int.not_lt.2 (Int.natCast_nonneg _)), Int.toNat_natCast]

/-- **What is exported is restored.** -/
theorem restoreState_exportState (hfits : ∀ p ∈ c.list, p.Fits)
    (hsampled : ∀ p ∈ c.list, p.logIndex &&& c.stepLengthMask = 0) :
    restoreState ⟨c.stepLengthMask, []⟩ c.exportState = c := by
  have hfold (done rest : List Mark) (hrest : ∀ p ∈ rest, p ∈ c.list) :
      (rest.map fun p ↦ formatI64 p.logIndex ++ 0x3A :: formatNat p.seqno).foldl restoreEntry
        ⟨c.stepLengthMask, done⟩ = ⟨c.stepLengthMask, done ++ rest⟩ := by
    induction rest generalizing done with
    | nil => rw [List.append_nil]; rfl
    | cons p rest ih =>
      have hp := hrest p List.mem_cons_self
      rw [List.map_cons, List.foldl_cons, restoreEntry_exported _ (hfits p hp), Collector.update,
        if_neg (not_not.2 (hsampled p hp)), ih _ fun q hq ↦ hrest q (List.mem_cons_of_mem _ hq),
        List.append_assoc]
      rfl
  exact hfold [] c.list fun _ hp ↦ hp

/-! ### Lookups -/

section Lookup

variable {c : Collector} {list : List Mark} {p q : Mark} {seqno : ℕ}

section

variable (h : list.Pairwise Rising) (hp : p ∈ list)

include h hp

theorem seqno_le (hq : q ∈ list) (hle : p.logIndex ≤ q.logIndex) : p.seqno ≤ q.seqno := by
  induction list with
  | nil => cases hp
  | cons first list ih =>
    obtain ⟨hfirst, hrest⟩ := List.pairwise_cons.1 h
    rcases List.mem_cons.1 hp with rfl | hp' <;> rcases List.mem_cons.1 hq with rfl | hq'
    · exact Nat.le_refl _
    · exact (hfirst q hq').2.le
    · exact absurd (hfirst p hp').1 (Nat.not_lt.2 hle)
    · exact ih hrest hp' hq'

theorem le_getLast (hlast : list.getLast? = some q) : p.logIndex ≤ q.logIndex := by
  obtain ⟨init, rfl⟩ := List.getLast?_eq_some_iff.1 hlast
  rcases List.mem_append.1 hp with hp | hp
  · exact ((List.pairwise_append.1 h).2.2 p hp q (List.mem_singleton.2 rfl)).1.le
  · rw [List.mem_singleton.1 hp]

end

/-- What is found is not before a pair up to the sequence number. -/
theorem le_findAppliedLogIndex (h : c.list.Pairwise Rising) (hs : seqno ≠ 0) (hp : p ∈ c.list)
    (hle : p.seqno ≤ seqno) : p.logIndex ≤ c.findAppliedLogIndex seqno := by
  rw [findAppliedLogIndex, if_neg hs]
  split
  · rename_i front back hfront hback
    split_ifs with hbefore hbehind
    · -- the first pair is the earliest
      obtain ⟨rest, hlist⟩ := List.head?_eq_some_iff.1 hfront
      rw [hlist] at h hp
      rcases List.mem_cons.1 hp with rfl | hp
      · omega
      · have := ((List.pairwise_cons.1 h).1 p hp).2
        omega
    · exact le_getLast h hp hback
    · have hfilter : (c.list.takeWhile fun q ↦ decide (q.seqno ≤ seqno)) =
          c.list.filter fun q ↦ decide (q.seqno ≤ seqno) :=
        SortedMap.takeWhile_eq_filter (fun _ _ (hab : Rising _ _) hb ↦
          decide_eq_true (hab.2.le.trans (of_decide_eq_true hb))) h
      have hmem : p ∈ c.list.takeWhile fun q ↦ decide (q.seqno ≤ seqno) := by
        rw [hfilter]
        exact List.mem_filter.2 ⟨hp, decide_eq_true hle⟩
      have hsorted : (c.list.takeWhile fun q ↦ decide (q.seqno ≤ seqno)).Pairwise Rising :=
        h.sublist (List.takeWhile_sublist _)
      obtain ⟨rest, hrest⟩ : (c.list.takeWhile fun q ↦ decide (q.seqno ≤ seqno)) <+: c.list :=
        List.takeWhile_prefix _
      dsimp only
      generalize (c.list.takeWhile fun q ↦ decide (q.seqno ≤ seqno)) = found
        at hmem hsorted hrest ⊢
      rw [← hrest, List.getElem?_append_left (Nat.sub_lt (List.length_pos_of_mem hmem) Nat.one_pos),
        ← List.getLast?_eq_getElem?]
      rcases hq : found.getLast? with _ | q
      · rw [List.getLast?_eq_none_iff.1 hq] at hmem
        cases hmem
      · exact le_getLast hsorted hmem hq
  · rename_i hnone
    have hne := List.ne_nil_of_mem hp
    exact absurd (List.getLast?_eq_some_getLast hne) (hnone _ _ (List.head?_eq_some_head hne))

/-- A pair that is purged is followed by one that stays and is not behind the purge. -/
theorem mem_purgeList_or (smallest : ℕ) (h : list.Pairwise Rising) (hp : p ∈ list) :
    p ∈ purgeList smallest list ∨
      ∃ q ∈ purgeList smallest list, q.logIndex ≤ smallest ∧ p.logIndex ≤ q.logIndex := by
  induction list generalizing p with
  | nil => cases hp
  | cons first list ih =>
    cases list with
    | nil => exact Or.inl hp
    | cons second list =>
      rw [purgeList]
      split_ifs with hle
      · obtain ⟨hfirst, hrest⟩ := List.pairwise_cons.1 h
        rcases List.mem_cons.1 hp with rfl | hp
        · have hlt := (hfirst second List.mem_cons_self).1
          rcases ih hrest List.mem_cons_self with hstay | ⟨q, hq, hsmall, hle'⟩
          · exact Or.inr ⟨second, hstay, hle, hlt.le⟩
          · exact Or.inr ⟨q, hq, hsmall, hlt.le.trans hle'⟩
        · exact ih hrest hp
      · exact Or.inl hp

/-- **A purge** does not change what is found from the last purged pair on. -/
theorem findAppliedLogIndex_purge {smallest : ℕ} (h : c.list.Pairwise Rising)
    (hseqno : ∀ p ∈ c.list, p.logIndex ≤ smallest → p.seqno ≤ seqno) :
    (c.purge smallest).findAppliedLogIndex seqno = c.findAppliedLogIndex seqno := by
  by_cases hs : seqno = 0
  · rw [findAppliedLogIndex, findAppliedLogIndex, if_pos hs, if_pos hs]
  have hsub := purgeList_sublist smallest c.list
  have h' : (c.purge smallest).list.Pairwise Rising := h.sublist hsub
  apply Nat.le_antisymm
  · rcases findAppliedLogIndex_cases (c.purge smallest) seqno with hzero | ⟨p, hp, hle, heq⟩
    · rw [hzero]
      exact Nat.zero_le _
    · rw [heq]
      exact le_findAppliedLogIndex h hs (hsub.subset hp) hle
  · rcases findAppliedLogIndex_cases c seqno with hzero | ⟨p, hp, hle, heq⟩
    · rw [hzero]
      exact Nat.zero_le _
    · rw [heq]
      rcases mem_purgeList_or smallest h hp with hp | ⟨q, hq, hsmall, hpq⟩
      · exact le_findAppliedLogIndex h' hs hp hle
      · exact hpq.trans
          (le_findAppliedLogIndex h' hs hq (hseqno q (hsub.subset hq) hsmall))

end Lookup

/-! ### Histories -/

/-- What a collector has recorded of a history. -/
structure Records (mask : ℕ) (events : List CollectorEvent) (c : Collector) : Prop where
  stepLengthMask : c.stepLengthMask = mask
  sublist : c.list.Sublist (updates events)
  sampled : ∀ p ∈ c.list, p.logIndex &&& mask = 0
  /-- Without sampling and purging, that is everything. -/
  complete : mask = 0 → (∀ smallest, .purge smallest ∉ events) → c.list = updates events

variable {mask : ℕ} {events : List CollectorEvent} {c : Collector}

/-- **One event**: the collector has some of the updates so far, in their order. -/
theorem Records.step (h : Records mask events c) (hfits : ∀ p ∈ updates events, p.Fits)
    (event : CollectorEvent) : Records mask (events ++ [event]) (c.step event) := by
  have hupdates : updates (events ++ [event]) = updates events ++ updates [event] :=
    List.filterMap_append ..
  have hsub : c.list.Sublist (updates (events ++ [event])) := by
    rw [hupdates]
    exact h.sublist.trans (List.sublist_append_left ..)
  have hcomplete (hmask : mask = 0) (hpurge : ∀ smallest, .purge smallest ∉ events ++ [event]) :
      updates (events ++ [event]) = c.list ++ updates [event] := by
    rw [hupdates, h.complete hmask fun smallest hmem ↦
      hpurge smallest (List.mem_append_left _ hmem)]
  cases event with
  | update p =>
    dsimp only [Collector.step, Collector.update]
    rw [h.stepLengthMask]
    split_ifs with hmask
    · refine ⟨h.stepLengthMask, hsub, h.sampled, fun hzero ↦ absurd ?_ hmask⟩
      rw [hzero, Nat.and_zero]
    · refine ⟨rfl, ?_, fun q hq ↦ ?_, fun hzero hpurge ↦ (hcomplete hzero hpurge).symm⟩
      · rw [hupdates]
        exact h.sublist.append (List.Sublist.refl _)
      · rcases List.mem_append.1 hq with hq | hq
        · exact h.sampled q hq
        · rw [List.mem_singleton.1 hq]
          exact not_not.1 hmask
  | purge smallest =>
    have hpurged := purgeList_sublist smallest c.list
    exact ⟨h.stepLengthMask, hpurged.trans hsub, fun p hp ↦ h.sampled p (hpurged.subset hp),
      fun _ hpurge ↦ absurd (List.mem_append_right _ (List.mem_singleton.2 rfl)) (hpurge smallest)⟩
  | restore =>
    have hsame : c.step .restore = c := restoreState_exportState c
      (fun p hp ↦ hfits p (h.sublist.subset hp)) (h.stepLengthMask ▸ h.sampled)
    rw [hsame]
    refine ⟨h.stepLengthMask, hsub, h.sampled, fun hzero hpurge ↦ ?_⟩
    rw [hcomplete hzero hpurge]
    exact (List.append_nil _).symm

/-- **A whole history**, from an empty collector. -/
theorem records_foldl (mask : ℕ) (hfits : ∀ p ∈ updates events, p.Fits) :
    Records mask events (events.foldl Collector.step ⟨mask, []⟩) := by
  induction events using List.reverseRecOn with
  | nil => exact ⟨rfl, List.Sublist.refl _, fun p hp ↦ (by cases hp), fun _ _ ↦ rfl⟩
  | append_singleton events event ih =>
    have hbefore : ∀ p ∈ updates events, p.Fits := fun p hp ↦ hfits p (by
      rw [updates, List.filterMap_append]
      exact List.mem_append_left _ hp)
    rw [List.foldl_append, List.foldl_cons, List.foldl_nil]
    exact (ih hbefore).step hbefore event

/-- **Lookups are sound.** After any history of updates that rise in both components, purges and
restores, with any step: what is found covers no update behind the sequence number; without sampling
and purging it is not before an update up to the sequence number; a purge does not change it, if the
pairs up to the purge are up to the sequence number; and it is never before a pair that is still
recorded and is up to the sequence number. -/
theorem lookup_sound (mask : ℕ) (events : List CollectorEvent)
    (hrising : (updates events).Pairwise Rising) (hfits : ∀ p ∈ updates events, p.Fits) :
    let c := events.foldl Collector.step ⟨mask, []⟩
    (∀ seqno, 0 < c.findAppliedLogIndex seqno → ∀ p ∈ updates events,
      p.logIndex ≤ c.findAppliedLogIndex seqno → p.seqno ≤ seqno) ∧
    (mask = 0 → (∀ smallest, .purge smallest ∉ events) →
      ∀ seqno, 0 < c.findAppliedLogIndex seqno →
        (∃ p ∈ updates events, p.logIndex = c.findAppliedLogIndex seqno) ∧
        ∀ p ∈ updates events, p.seqno ≤ seqno → p.logIndex ≤ c.findAppliedLogIndex seqno) ∧
    (∀ smallest seqno, (∀ p ∈ c.list, p.logIndex ≤ smallest → p.seqno ≤ seqno) →
      (c.purge smallest).findAppliedLogIndex seqno = c.findAppliedLogIndex seqno) ∧
    ∀ seqno, seqno ≠ 0 → ∀ p ∈ c.list, p.seqno ≤ seqno →
      p.logIndex ≤ c.findAppliedLogIndex seqno := by
  intro c
  have hrecords : Records mask events c := records_foldl mask hfits
  have hlist : c.list.Pairwise Rising := hrising.sublist hrecords.sublist
  refine ⟨fun seqno hfound p hp hle ↦ ?_, fun hmask hpurge seqno hfound ↦ ⟨?_, fun p hp hle ↦ ?_⟩,
    fun smallest seqno hseqno ↦ findAppliedLogIndex_purge hlist hseqno,
    fun seqno hs p hp hle ↦ le_findAppliedLogIndex hlist hs hp hle⟩
  · rcases findAppliedLogIndex_cases c seqno with hzero | ⟨q, hq, hqle, heq⟩
    · omega
    · exact (seqno_le hrising hp (hrecords.sublist.subset hq) (heq ▸ hle)).trans hqle
  · rcases findAppliedLogIndex_cases c seqno with hzero | ⟨q, hq, -, heq⟩
    · omega
    · exact ⟨q, hrecords.sublist.subset hq, heq.symm⟩
  · subst hmask
    have hs : seqno ≠ 0 := by
      rintro rfl
      rw [findAppliedLogIndex, if_pos rfl] at hfound
      exact Nat.lt_irrefl _ hfound
    exact le_findAppliedLogIndex hlist hs (hrecords.complete rfl hpurge ▸ hp) hle

/-- Every second index is recorded, the collector is restored, and a purge goes by. -/
theorem lookup_sound_sampled :
    let events : List CollectorEvent :=
      [.update ⟨2, 5⟩, .update ⟨3, 8⟩, .update ⟨4, 9⟩, .restore, .purge 4, .update ⟨6, 20⟩]
    let c := events.foldl Collector.step ⟨1, []⟩
    c.findAppliedLogIndex 12 = 4 ∧
    (c.purge 4).findAppliedLogIndex 9 = c.findAppliedLogIndex 9 :=
  ⟨by decide +kernel, (lookup_sound 1
    [.update ⟨2, 5⟩, .update ⟨3, 8⟩, .update ⟨4, 9⟩, .restore, .purge 4, .update ⟨6, 20⟩]
    (by decide +kernel) (by decide +kernel)).2.2.1 4 9 (by decide +kernel)⟩

end Kiwi.LogIndex
