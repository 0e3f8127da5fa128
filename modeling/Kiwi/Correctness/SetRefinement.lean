import Kiwi.Correctness.Collection
import Kiwi.Lib.KeySet
import Kiwi.Lib.Simulation
import Kiwi.Storage.Sets

/-!
# Sets as finite sets

The abstract machine of this module keeps a finite set of byte strings for every key. `sadd` is a
union and answers how many members are new, `spop` removes members that the random generator chooses
from the sorted listing, and `smove` takes a member out of one set and puts it into another
(`Command.spec`). A key of the database stands for a set when it stands, as a collection, for a map
whose keys are that set (`SetAt`).

The code departs from this in three ways, and the run theorem excludes each of them (`Guard`):

* `sadd` recognises repeated arguments by their rendering as text, and `smembers` and `spop` return
  that rendering, so members have to be text;
* counts are `i32`;
* `smove` with one key for source and destination deletes the member: it reads that the destination
  has the member already, and then only the removal is written.
-/

namespace Kiwi.SetRefinement

open Sets

variable {S : Type} [LinearOrder S]

/-! ### The abstract machine -/

/-- The operations on sets, and deletion. `spop` carries the state of the random generator. -/
inductive Command
  | sadd (key : Bytes) (members : List Bytes)
  | spop (rng : Rng) (key : Bytes) (count : Option ℤ)
  | smove (source destination member : Bytes)
  | delKey (key : Bytes)

/-- What a command answers. -/
inductive Reply
  | number (n : ℤ)
  | members (members : List Bytes)
  | flag (b : Bool)
  deriving DecidableEq, Repr

/-- The members that `spop` takes out of a set. -/
def choice (rng : Rng) (count : Option ℤ) (s : Finset Bytes) : List Bytes :=
  if s = ∅ then [] else popped rng count (s.sort (· ≤ ·))

namespace Command

/-- The storage operation. -/
def exec (db : Redis S) (now : ℕ) : Command → Except Error Reply × Redis S
  | sadd key members =>
    let r := (Sets.sadd key members now).exec db
    (r.1.map .number, r.2)
  | spop rng key count =>
    let r := (Sets.spop rng key count now).exec db
    (r.1.map .members, r.2)
  | smove source destination member =>
    let r := (Sets.smove source destination member now).exec db
    (r.1.map .flag, r.2)
  | delKey key =>
    let r := (Strings.delKey key now).exec db
    (r.1.map .flag, r.2)

/-- The operation on finite sets. -/
def spec (sets : Bytes → Finset Bytes) : Command → Reply × (Bytes → Finset Bytes)
  | sadd key members =>
    (.number (members.toFinset \ sets key).card,
      Function.update sets key (sets key ∪ members.toFinset))
  | spop rng key count =>
    (.members (choice rng count (sets key)),
      Function.update sets key (sets key \ (choice rng count (sets key)).toFinset))
  | smove source destination member =>
    if member ∈ sets source then
      (.flag true,
        if source = destination then sets
        else Function.update (Function.update sets source ((sets source).erase member)) destination
          (insert member (sets destination)))
    else (.flag false, sets)
  | delKey key => (.flag (decide (sets key ≠ ∅)), Function.update sets key ∅)

end Command

/-! ### Sets of the database -/

variable {db : Redis S} {key : Bytes} {c c' now : ℕ} {map : SortedMap Bytes Unit}

/-- What is stored for a key is the finite set. -/
def SetAt (c : ℕ) (db : Redis S) (key : Bytes) (s : Finset Bytes) : Prop :=
  ∃ map, (Family.sets S).At c db key map ∧ map.keySet = s

variable {db' : Redis S}

theorem SetAt.congr {s : Finset Bytes} (h : SetAt c db key s) (hc : c ≤ c')
    (hagree : db'.AgreeAt db key) : SetAt c' db' key s := by
  obtain ⟨map, hmap, hs⟩ := h
  exact ⟨map, hmap.congr hc hagree, hs⟩

variable {m : BaseMetaValue}

section

variable (hm : (Family.sets S).Stored c db key m map)

include hm

theorem hasMember_iff {x : Bytes} : hasMember db key m.version x = true ↔ x ∈ map.keySet := by
  rw [hasMember, SortedMap.mem_keySet]
  exact iff_of_eq (congrArg (fun o ↦ Option.isSome o = true) (hm.get_eq x))

theorem membersAt_eq : membersAt db key m.version = map.keys := by
  have hrows : DataKey.rowsAt db.setsDataCF key m.version = map.rows :=
    ((Family.sets S).rowsAt_table db key m.version).trans (congrArg SortedMap.rows hm.rows)
  rw [membersAt, hrows]
  rfl

end

omit [LinearOrder S] in
theorem setWrites_putMembers_eq (v : ℕ) (members : List Bytes) :
    (putMembers key v members : Batch S).filterMap Entry.setWrite? =
      ((members.map fun x ↦ (x, ())).map fun r ↦ (r.1, some r.2)).map
        fun w ↦ (⟨key, v, w.1⟩, w.2) := by
  rw [setWrites_putMembers, List.map_map, List.map_map]
  rfl

omit [LinearOrder S] in
theorem setWrites_deleteMembers_eq (v : ℕ) (members : List Bytes) :
    (deleteMembers key v members : Batch S).filterMap Entry.setWrite? =
      (members.map fun x ↦ (x, (none : Option Unit))).map fun w ↦ (⟨key, v, w.1⟩, w.2) := by
  rw [setWrites_deleteMembers, List.map_map]
  rfl

omit [LinearOrder S] in
theorem names_removeMembers (m : BaseMetaValue) (members : List Bytes) :
    Names key (removeMembers key m members : Batch S) := by
  refine (meets_deleteMembers (List.mem_singleton_self _) _ _).append ?_
  exact meets_singleton (List.mem_singleton_self _)
    (by rw [putOrDeleteBaseMeta]; split_ifs <;> trivial)

theorem names_addMember (found : Option BaseMetaValue) (member : Bytes) :
    Names key (addMember db key found member now) := by
  rw [addMember]
  dsimp only
  split_ifs
  · exact meets_nil
  all_goals
    exact (meets_putMembers (List.mem_singleton_self _) trivial _).append (meets_meta trivial)

variable {members : List Bytes}

section

variable (h : (Family.sets S).At c db key map) (hc : c ≤ c')

include h hc

/-- Removing members that are stored: the meta value goes with the last of them. -/
theorem at_removeMembers (hm : (Family.sets S).Stored c db key m map) (hsize : map.size < 2 ^ 31)
    (hnodup : members.Nodup) (hmem : ∀ x ∈ members, x ∈ map.keySet) :
    (Family.sets S).At c' (db.write (removeMembers key m members)) key (map.eraseAll members) := by
  have hleft := SortedMap.size_eraseAll hnodup fun x hx ↦ SortedMap.mem_keySet.1 (hmem x hx)
  have hcount : subU64 m.count members.length = (map.eraseAll members).size := by
    rw [hm.count, subU64_of_le (by omega) (by omega)]
    omega
  have hwrites : (removeMembers key m members : Batch S).filterMap (Family.sets S).write? =
      (members.map fun x ↦ (x, (none : Option Unit))).map
        fun w ↦ (⟨key, m.version, w.1⟩, w.2) := by
    rw [← setWrites_deleteMembers_eq, removeMembers, List.filterMap_append]
    exact List.append_nil _
  have hmeta : (db.write (removeMembers key m members)).metaCF.get key =
      if subU64 m.count members.length = 0 then none
      else some (.base (m.setCount (subU64 m.count members.length))) :=
    Redis.get_metaCF_write_append ..
  by_cases hzero : subU64 m.count members.length = 0
  · rw [SortedMap.eq_empty_of_size_eq_zero (hcount.symm.trans hzero)]
    exact h.clear hc (hm.version.trans hc) (hmeta.trans (if_pos hzero)) hwrites
  · refine h.write hc (hmeta.trans (if_neg hzero)) hm.type hm.etime (hm.version.trans hc) hwrites ?_
      hcount
    show SortedMap.apply ((Family.sets S).mapAt db key m.version) _ = _
    rw [hm.rows, SortedMap.apply_deletes]

theorem at_addMembers {count : ℕ} (hm : (Family.sets S).Stored c' db key m map)
    (hnodup : members.Nodup) (hnew : ∀ x ∈ members, x ∉ map.keySet)
    (hcount : count = map.size + members.length) {b : Batch S}
    (hmeta : (db.write b).metaCF.get key = some (.base (m.setCount count)))
    (hwrites : b.filterMap Entry.setWrite? =
      (putMembers key m.version members : Batch S).filterMap Entry.setWrite?) :
    (Family.sets S).At c' (db.write b) key (map.insertAll (members.map fun x ↦ (x, ()))) := by
  have hkeys : (members.map fun x ↦ (x, ())).map Prod.fst = members := by
    rw [List.map_map]
    exact List.map_id _
  have hsize := SortedMap.size_insertAll map (hkeys.symm ▸ hnodup)
  have hall : (members.map fun x ↦ (x, ())).filter (fun r ↦ (map.get r.1).isNone) =
      members.map fun x ↦ (x, ()) := by
    refine List.filter_eq_self.2 fun r hr ↦ ?_
    obtain ⟨x, hx, rfl⟩ := List.mem_map.1 hr
    have hx := hnew x hx
    rw [SortedMap.mem_keySet, Bool.not_eq_true, Option.isSome_eq_false_iff] at hx
    exact hx
  rw [hall, List.length_map] at hsize
  refine h.write (m := m.setCount count) hc hmeta hm.type hm.etime hm.version
    (hwrites.trans (setWrites_putMembers_eq _ _)) ?_ (hcount.trans hsize.symm)
  show SortedMap.apply ((Family.sets S).mapAt db key m.version) _ = _
  rw [hm.rows, SortedMap.apply_puts]

end

theorem stored_newSetMeta (h : (Family.sets S).At c db key .empty) (hnow : c < now) :
    (Family.sets S).Stored now db key (newSetMeta now) .empty := by
  have hzero : updateVersion 0 now = now := updateVersion_of_lt (by omega)
  refine ⟨rfl, rfl, hzero.le, rfl, ?_⟩
  show (Family.sets S).mapAt db key (updateVersion 0 now) = _
  rw [hzero, h.mapAt_eq_empty hnow]

theorem lookup_or_new (h : (Family.sets S).At c db key map) (hnow : c < now) :
    ∃ found, db.baseMeta .set key now = .ok found ∧
      (found.elim (map = .empty) fun m ↦ m.isValid now = true ∧
        (Family.sets S).Stored c db key m map) ∧
      (Family.sets S).Stored now db key (found.getD (newSetMeta now)) map := by
  rcases h.lookup now with ⟨hnone, rfl⟩ | ⟨m, hsome, -, hpos, hm⟩
  · exact ⟨none, hnone, rfl, stored_newSetMeta h hnow⟩
  · refine ⟨some m, hsome, ⟨?_, hm⟩, hm.congr hnow.le (.refl db key)⟩
    exact Redis.isValid_of_liveMeta (Redis.baseMeta_eq_ok_some_iff.1 hsome).1

/-! ### Operations -/

section Operations

variable {α β : Type} {s : Finset Bytes}

/-- An operation on a key answers, leaves the finite set, and touches nothing else. -/
structure Refines (now : ℕ) (db : Redis S) (key : Bytes) (result : Except Error α × Redis S)
    (answer : α) (s : Finset Bytes) : Prop where
  answer : result.1 = .ok answer
  set : SetAt now result.2 key s
  frame : ∀ k, k ≠ key → result.2.AgreeAt db k

theorem SetAt.unchanged (h : SetAt c db key s) (hnow : c < now) (answer : α) :
    Refines now db key (.ok answer, db) answer s :=
  ⟨rfl, h.congr hnow.le (.refl db key), fun k _ ↦ .refl db k⟩

theorem refines_write {b : Batch S} (answer : α) (hb : Names key b)
    (h : (Family.sets S).At now (db.write b) key map) (hs : map.keySet = s) :
    Refines now db key (.ok answer, db.write b) answer s :=
  ⟨rfl, ⟨map, h, hs⟩, fun _ hk ↦ Redis.agreeAt_write_of_ne hb hk⟩

variable {found : Option BaseMetaValue}

/-- The arguments of `sadd` that are new, when all are text. -/
theorem toAdd_facts (htext : ∀ x ∈ members, isUtf8 x = true)
    (hfound : found.elim (map = .empty) fun m ↦ m.isValid now = true ∧
      (Family.sets S).Stored c db key m map) :
    (toAdd db key found (firstBy fromUtf8Lossy members)).Nodup ∧
      (toAdd db key found (firstBy fromUtf8Lossy members)).toFinset =
        members.toFinset \ map.keySet := by
  have hfirst : firstBy fromUtf8Lossy members = firstBy id members :=
    firstBy_congr fun x hx ↦ fromUtf8Lossy_of_isUtf8 (htext x hx)
  have hnodup : (firstBy id members).Nodup := by
    have hmap : ((firstBy id members).map id).Nodup := nodup_map_firstBy
    rwa [List.map_id] at hmap
  have hmem : ∀ x, x ∈ firstBy id members ↔ x ∈ members := by
    intro x
    have hiff : x ∈ (firstBy id members).map id ↔ x ∈ members.map id := map_firstBy_mem_iff
    rwa [List.map_id, List.map_id] at hiff
  rw [hfirst]
  rcases found with _ | m
  · have hempty : map = .empty := hfound
    refine ⟨hnodup, ?_⟩
    ext x
    simp [toAdd, hmem, hempty]
  · have hm : (Family.sets S).Stored c db key m map := hfound.2
    refine ⟨hnodup.filter _, ?_⟩
    ext x
    rw [toAdd, List.mem_toFinset, List.mem_filter, hmem, Finset.mem_sdiff, List.mem_toFinset,
      Bool.not_eq_true', ← Bool.not_eq_true, hasMember_iff hm]

theorem sadd_refines (h : SetAt c db key s) (hnow : c < now)
    (htext : ∀ x ∈ members, isUtf8 x = true) (hroom : s.card + members.length < 2 ^ 31) :
    Refines now db key ((sadd key members now).exec db) ((members.toFinset \ s).card : ℤ)
      (s ∪ members.toFinset) := by
  obtain ⟨map, hmap, rfl⟩ := h
  rw [SortedMap.card_keySet] at hroom
  have hunchanged : members.toFinset \ map.keySet = ∅ → Refines now db key (.ok (0 : ℤ), db)
      ((members.toFinset \ map.keySet).card : ℤ) (map.keySet ∪ members.toFinset) := by
    intro hsub
    rw [hsub, Finset.union_eq_left.2 (Finset.sdiff_eq_empty_iff_subset.1 hsub)]
    exact SetAt.unchanged ⟨map, hmap, rfl⟩ hnow 0
  rw [exec_sadd]
  by_cases hnil : members = []
  · subst hnil
    exact hunchanged (by rw [List.toFinset_nil, Finset.empty_sdiff])
  rw [if_neg (by rw [List.isEmpty_iff]; exact firstBy_ne_nil hnil)]
  obtain ⟨found, hbase, hfound, hm⟩ := lookup_or_new hmap hnow
  obtain ⟨hnodup, hnew⟩ := toAdd_facts htext hfound
  rw [hbase]
  dsimp only
  generalize toAdd db key found (firstBy fromUtf8Lossy members) = new at hnodup hnew
  generalize found.getD (newSetMeta now) = m at hm
  have hcard : (members.toFinset \ map.keySet).card = new.length := by
    rw [← hnew, List.toFinset_card_of_nodup hnodup]
  have hle : new.length ≤ members.length := by
    rw [← hcard]
    exact (Finset.card_le_card Finset.sdiff_subset).trans (List.toFinset_card_le members)
  have hcheck : m.checkModifyCount new.length = true := by
    rw [BaseMetaValue.checkModifyCount, decide_eq_true_iff, hm.count]
    omega
  have hcount : min (m.count + new.length) (2 ^ 64 - 1) = map.size + new.length := by
    rw [hm.count]
    omega
  have hanswer : asI32 new.length = ((members.toFinset \ map.keySet).card : ℤ) := by
    rw [hcard]
    exact asI32_of_lt (by omega)
  rw [if_pos hcheck, hanswer]
  split_ifs with hempty
  · rw [List.isEmpty_iff.1 hempty, List.toFinset_nil] at hnew
    exact hunchanged hnew.symm
  have hkeys : (new.map fun x ↦ (x, ())).map Prod.fst = new := by
    rw [List.map_map]
    exact List.map_id _
  refine refines_write _
    (meets_put trivial (meets_putMembers (List.mem_singleton_self _) trivial _))
    (at_addMembers hmap hnow.le hm hnodup (fun x hx ↦ ?_) hcount ?_ rfl) ?_
  · have hx' := List.mem_toFinset.2 hx
    rw [hnew] at hx'
    exact (Finset.mem_sdiff.1 hx').2
  · rw [Redis.write_metaCF, List.filterMap_cons]
    simp
    rfl
  · rw [SortedMap.keySet_insertAll, hkeys, hnew, Finset.union_sdiff_self_eq_union]

omit [LinearOrder S] in
theorem popped_facts (rng : Rng) (count : Option ℤ) {all : List Bytes} (hnodup : all.Nodup)
    (hne : all ≠ []) : (popped rng count all).Nodup ∧ ∀ x ∈ popped rng count all, x ∈ all := by
  have hgetD : ∀ i, i < all.length → all.getD i [] ∈ all := by
    intro i hi
    rw [← List.getElem_eq_getD (h := hi)]
    exact List.getElem_mem hi
  rcases count with _ | count
  · refine ⟨List.nodup_singleton _, fun x hx ↦ ?_⟩
    rw [List.mem_singleton.1 hx]
    exact hgetD _ (rng.genRange_lt (List.length_pos_iff.2 hne))
  · rw [popped]
    split_ifs with hneg hall
    · exact ⟨List.nodup_nil, fun x hx ↦ absurd hx List.not_mem_nil⟩
    · exact ⟨hnodup, fun x hx ↦ hx⟩
    · constructor
      · refine List.Nodup.map_on (fun i hi j hj hij ↦ ?_) (rng.nodup_chooseMultiple _ _)
        have hi := rng.lt_of_mem_chooseMultiple hi
        have hj := rng.lt_of_mem_chooseMultiple hj
        rw [← List.getElem_eq_getD (h := hi), ← List.getElem_eq_getD (h := hj)] at hij
        exact (hnodup.getElem_inj_iff).1 hij
      · intro x hx
        obtain ⟨i, hi, rfl⟩ := List.mem_map.1 hx
        exact hgetD i (rng.lt_of_mem_chooseMultiple hi)

theorem spop_refines (h : SetAt c db key s) (hnow : c < now) (htext : ∀ x ∈ s, isUtf8 x = true)
    (hroom : s.card < 2 ^ 31) (rng : Rng) (count : Option ℤ) :
    Refines now db key ((spop rng key count now).exec db) (choice rng count s)
      (s \ (choice rng count s).toFinset) := by
  obtain ⟨map, hmap, rfl⟩ := h
  rw [SortedMap.card_keySet] at hroom
  have hunchanged : choice rng count map.keySet = [] → Refines now db key (.ok [], db)
      (choice rng count map.keySet) (map.keySet \ (choice rng count map.keySet).toFinset) := by
    intro hnil
    rw [hnil, List.toFinset_nil, Finset.sdiff_empty]
    exact SetAt.unchanged ⟨map, hmap, rfl⟩ hnow []
  rw [exec_spop]
  rcases hmap.lookup now with ⟨hnone, rfl⟩ | ⟨m, hsome, -, hpos, hm⟩
  · rw [show db.baseMeta .set key now = _ from hnone]
    exact hunchanged (if_pos SortedMap.keySet_empty)
  rw [show db.baseMeta .set key now = _ from hsome]
  dsimp only
  rw [membersAt_eq hm]
  have hne : map.keys ≠ [] := by
    intro hnil
    refine hpos (hm.count.trans ?_)
    rw [← SortedMap.card_keySet, SortedMap.keySet, hnil]
    rfl
  have hchoice : choice rng count map.keySet = popped rng count map.keys := by
    rw [choice, SortedMap.sort_keySet, if_neg]
    intro hempty
    refine hpos (hm.count.trans ?_)
    rw [← SortedMap.card_keySet, hempty, Finset.card_empty]
  obtain ⟨hnodup, hsub⟩ := popped_facts rng count map.nodup_keys hne
  have hmem : ∀ x ∈ popped rng count map.keys, x ∈ map.keySet := fun x hx ↦
    SortedMap.mem_keySet.2 (SortedMap.mem_keys_iff.1 (hsub x hx))
  rw [if_neg (by rwa [List.isEmpty_iff])]
  split_ifs with hempty
  · exact hunchanged (hchoice.trans (List.isEmpty_iff.1 hempty))
  · have hlossy : (popped rng count map.keys).map fromUtf8Lossy = popped rng count map.keys :=
      (List.map_congr_left fun x hx ↦ fromUtf8Lossy_of_isUtf8 (htext x (hmem x hx))).trans
        (List.map_id _)
    rw [hlossy, hchoice]
    exact refines_write _ (names_removeMembers m _)
      (at_removeMembers hmap hnow.le hm hroom hnodup hmem) (SortedMap.keySet_eraseAll ..)

/-- What `smove` writes for the destination adds the member, unless it is there. -/
theorem at_addMember (hmap : (Family.sets S).At c db key map) (hagree : db'.AgreeAt db key)
    (hnow : c < now) (hroom : map.size + 1 < 2 ^ 31) (hbase : db.baseMeta .set key now = .ok found)
    (member : Bytes) :
    SetAt now (db'.write (addMember db key found member now)) key (insert member map.keySet) := by
  obtain ⟨found', hbase', hfound, hm⟩ := lookup_or_new hmap hnow
  obtain rfl : found = found' := Except.ok.inj (hbase.symm.trans hbase')
  have hmap' : (Family.sets S).At now db' key map := hmap.congr hnow.le hagree
  have hdest : (destinationMeta found now).1 = found.getD (newSetMeta now) ∧
      (if (destinationMeta found now).2 && (destinationMeta found now).1.isValid now then
        wrapU64 ((destinationMeta found now).1.count + 1) else 1) = map.size + 1 := by
    rcases found with _ | m
    · obtain rfl : map = .empty := hfound
      exact ⟨rfl, rfl⟩
    · have hdest : destinationMeta (some m) now = (m, true) := if_pos hfound.1
      have hcount : m.count = map.size := hm.count
      rw [hdest]
      refine ⟨rfl, ?_⟩
      rw [hfound.1, hcount]
      exact Nat.mod_eq_of_lt (by omega)
  have hadd : addMember db key found member now =
      if hasMember db key (found.getD (newSetMeta now)).version member then ([] : Batch S)
      else putMembers key (found.getD (newSetMeta now)).version [member] ++
        [.metaCF key (some (.base ((found.getD (newSetMeta now)).setCount (map.size + 1))))] := by
    rw [← hdest.1, ← hdest.2]
    rfl
  rw [hadd]
  generalize found.getD (newSetMeta now) = m at hm
  by_cases hin : member ∈ map.keySet
  · rw [if_pos ((hasMember_iff hm).2 hin), Finset.insert_eq_of_mem hin]
    exact ⟨map, hmap', rfl⟩
  · have hm' : (Family.sets S).Stored now db' key m map := hm.congr le_rfl hagree
    rw [if_neg fun hstored ↦ hin ((hasMember_iff hm).1 hstored)]
    refine ⟨_, at_addMembers hmap' le_rfl hm' (List.nodup_singleton member) (fun x hx ↦ ?_)
      rfl (Redis.get_metaCF_write_append ..) ?_, ?_⟩
    · rwa [List.mem_singleton.1 hx]
    · rw [List.filterMap_append]
      exact List.append_nil _
    · exact SortedMap.keySet_insert ..

theorem delKey_refines (h : SetAt c db key s) (hnow : c < now) :
    Refines now db key ((Strings.delKey key now).exec db) (decide (s ≠ ∅)) ∅ := by
  obtain ⟨map, hmap, rfl⟩ := h
  have hr := Family.delKey_refines hmap hnow
  have hsize : map.size ≠ 0 ↔ map.keySet ≠ ∅ := by
    rw [← SortedMap.card_keySet, Ne, Finset.card_eq_zero]
  refine ⟨hr.answer.trans ?_, ⟨_, hr.rows, SortedMap.keySet_empty⟩, hr.frame⟩
  rw [decide_eq_decide.2 hsize]

variable {sets : Bytes → Finset Bytes}

theorem Refines.update {result : Except Error α × Redis S} {answer : α}
    (hr : Refines now db key result answer s) (h : ∀ k, SetAt c db k (sets k)) (hnow : c < now)
    (k : Bytes) : SetAt now result.2 k (Function.update sets key s k) := by
  by_cases hk : k = key
  · rw [hk, Function.update_self]
    exact hr.set
  · rw [Function.update_of_ne hk]
    exact (h k).congr hnow.le (hr.frame k hk)

variable {source destination member : Bytes}

/-- `smove` of a member that is not there. -/
theorem smove_of_notMem (h : SetAt c db source s)
    (hmem : member ∉ s) : (smove source destination member now).exec db = (.ok false, db) := by
  obtain ⟨map, hmap, rfl⟩ := h
  rw [exec_smove]
  rcases hmap.lookup now with ⟨hnone, rfl⟩ | ⟨m, hsome, -, -, hm⟩
  · rw [show db.baseMeta .set source now = _ from hnone]
  · rw [show db.baseMeta .set source now = _ from hsome]
    dsimp only
    rw [if_neg fun hstored ↦ hmem ((hasMember_iff hm).1 hstored)]

/-- `smove` of a member that is there, to another key: the batch removes it from the source and
then adds it to the destination. -/
theorem smove_of_mem (h : ∀ k, SetAt c db k (sets k))
    (hnow : c < now) (hmem : member ∈ sets source) (hne : source ≠ destination)
    (hsource : (sets source).card < 2 ^ 31) (hroom : (sets destination).card + 1 < 2 ^ 31) :
    ((smove source destination member now).exec db).1 = .ok true ∧
      ∀ k, SetAt now ((smove source destination member now).exec db).2 k
        (Function.update (Function.update sets source ((sets source).erase member)) destination
          (insert member (sets destination)) k) := by
  obtain ⟨src, hsrc, hs⟩ := h source
  obtain ⟨dest, hdest, hd⟩ := h destination
  obtain ⟨found, hbase, -, -⟩ := lookup_or_new hdest hnow
  rw [← hs] at hmem hsource
  rw [← hd, SortedMap.card_keySet] at hroom
  rw [SortedMap.card_keySet] at hsource
  rcases hsrc.lookup now with ⟨-, rfl⟩ | ⟨m, hsome, -, -, hm⟩
  · rw [SortedMap.keySet_empty] at hmem
    exact absurd hmem (Finset.notMem_empty _)
  have hexec : (smove source destination member now).exec db =
      (.ok true, (db.write (removeMembers source m [member])).write
        (addMember db destination found member now)) := by
    rw [exec_smove, show db.baseMeta .set source now = _ from hsome]
    dsimp only
    rw [if_pos ((hasMember_iff hm).2 hmem), hbase, ← Redis.write_append]
  rw [hexec]
  refine ⟨rfl, fun k ↦ ?_⟩
  have hremoved : ∀ k, k ≠ source → (db.write (removeMembers source m [member])).AgreeAt db k :=
    fun k hk ↦ Redis.agreeAt_write_of_ne (names_removeMembers _ _) hk
  by_cases hkd : k = destination
  · rw [hkd, Function.update_self, ← hd]
    exact at_addMember hdest (hremoved destination hne.symm) hnow hroom hbase member
  · have hadded : ((db.write (removeMembers source m [member])).write
        (addMember db destination found member now)).AgreeAt
          (db.write (removeMembers source m [member])) k :=
      Redis.agreeAt_write_of_ne (names_addMember _ _) hkd
    rw [Function.update_of_ne hkd]
    refine SetAt.congr ?_ le_rfl hadded
    by_cases hks : k = source
    · rw [hks, Function.update_self, ← hs]
      refine ⟨_, at_removeMembers hsrc hnow.le hm hsource (List.nodup_singleton member)
        (fun x hx ↦ List.mem_singleton.1 hx ▸ hmem), ?_⟩
      exact SortedMap.keySet_erase src member
    · rw [Function.update_of_ne hks]
      exact (h k).congr hnow.le (hremoved k hks)

end Operations

/-! ### Reads -/

/-- What the reads of a database say is what the finite sets say. `scard` of an empty set is the
error that the command layer answers with zero. -/
structure Observes (db : Redis S) (now : ℕ) (sets : Bytes → Finset Bytes) : Prop where
  /-- `scard` is the number of members. -/
  scard : ∀ key, Sets.scard db key now =
    if sets key = ∅ then .error (.keyNotFound (fromUtf8Lossy key)) else .ok ((sets key).card : ℤ)
  sismember : ∀ key x, Sets.sismember db key x now = .ok (decide (x ∈ sets key))
  /-- `smembers` lists the members in order. -/
  smembers : ∀ key, Sets.smembers db key now = .ok ((sets key).sort (· ≤ ·))
  /-- The count of a meta value is the number of rows under its version. -/
  count : ∀ key m, db.metaCF.get key = some (.base m) →
    m.count = (DataKey.rowsAt db.setsDataCF key m.version).length

section Reads

variable {s : Finset Bytes}

section

variable (h : SetAt c db key s)

include h

theorem scard_eq (hcard : s.card < 2 ^ 31) (now : ℕ) :
    scard db key now =
      if s = ∅ then .error (.keyNotFound (fromUtf8Lossy key)) else .ok (s.card : ℤ) := by
  obtain ⟨map, hmap, rfl⟩ := h
  rw [scard, Redis.validMeta_eq_baseMeta]
  rcases hmap.lookup now with ⟨hnone, rfl⟩ | ⟨m, hsome, -, hpos, hm⟩
  · rw [show db.baseMeta .set key now = _ from hnone, if_pos SortedMap.keySet_empty]
    rfl
  · have hne : map.keySet ≠ ∅ := by
      rw [Ne, ← Finset.card_eq_zero, SortedMap.card_keySet, ← hm.count]
      exact hpos
    rw [show db.baseMeta .set key now = _ from hsome, Program.except_ok_bind, if_neg hne]
    show Except.ok (asI32 m.count) = _
    rw [hm.count, ← SortedMap.card_keySet, asI32_of_lt hcard]

theorem sismember_eq (now : ℕ) (x : Bytes) : sismember db key x now = .ok (decide (x ∈ s)) := by
  obtain ⟨map, hmap, rfl⟩ := h
  rw [sismember, Redis.validMeta_eq_baseMeta]
  rcases hmap.lookup now with ⟨hnone, rfl⟩ | ⟨m, hsome, -, -, hm⟩
  · rw [show db.baseMeta .set key now = _ from hnone]
    rfl
  · rw [show db.baseMeta .set key now = _ from hsome, Program.except_ok_bind]
    show Except.ok (hasMember db key m.version x) = _
    exact congrArg Except.ok (Bool.eq_iff_iff.2 ((hasMember_iff hm).trans decide_eq_true_iff.symm))

theorem smembers_eq (htext : ∀ x ∈ s, isUtf8 x = true) (now : ℕ) :
    smembers db key now = .ok (s.sort (· ≤ ·)) := by
  obtain ⟨map, hmap, rfl⟩ := h
  rw [smembers, Redis.validMeta_eq_baseMeta, SortedMap.sort_keySet]
  rcases hmap.lookup now with ⟨hnone, rfl⟩ | ⟨m, hsome, -, -, hm⟩
  · rw [show db.baseMeta .set key now = _ from hnone]
    rfl
  · have hlossy : map.keys.map fromUtf8Lossy = map.keys := by
      refine (List.map_congr_left fun x hx ↦ fromUtf8Lossy_of_isUtf8 (htext x ?_)).trans
        (List.map_id _)
      exact SortedMap.mem_keySet.2 (SortedMap.mem_keys_iff.1 hx)
    rw [show db.baseMeta .set key now = _ from hsome, Program.except_ok_bind]
    show Except.ok ((membersAt db key m.version).map fromUtf8Lossy) = _
    rw [membersAt_eq hm, hlossy]

end

end Reads

/-! ### Runs -/

/-- One command on the finite sets of all keys. -/
def specStep (sets : Bytes → Finset Bytes) (_ : ℕ) (command : Command) :
    Except Error Reply × (Bytes → Finset Bytes) :=
  (.ok (command.spec sets).1, (command.spec sets).2)

/-- What a command asks of the sets: added members are text, a member that is there moves to
another key, and an `i32` has room for what is added. -/
def Command.Fits (sets : Bytes → Finset Bytes) : Command → Prop
  | .sadd key members =>
    (∀ x ∈ members, isUtf8 x = true) ∧ (sets key).card + members.length < 2 ^ 31
  | .smove source destination member =>
    member ∈ sets source → source ≠ destination ∧ (sets destination).card + 1 < 2 ^ 31
  | _ => True

instance (sets : Bytes → Finset Bytes) (command : Command) : Decidable (command.Fits sets) := by
  cases command <;> simp only [Command.Fits] <;> infer_instance

/-- The clock advances, and the command fits. -/
def Guard (t : ℕ × (Bytes → Finset Bytes)) (a : ℕ × Command) : Prop := t.1 < a.1 ∧ a.2.Fits t.2

instance (t : ℕ × (Bytes → Finset Bytes)) (a : ℕ × Command) : Decidable (Guard t a) :=
  inferInstanceAs (Decidable (_ ∧ _))

/-- A set of texts whose size is an `i32`. -/
structure IsSmallText (s : Finset Bytes) : Prop where
  text : ∀ x ∈ s, isUtf8 x = true
  card : s.card < 2 ^ 31

theorem IsSmallText.subset {s s' : Finset Bytes} (h : IsSmallText s) (hsub : s' ⊆ s) :
    IsSmallText s' :=
  ⟨fun x hx ↦ h.text x (hsub hx), (Finset.card_le_card hsub).trans_lt h.card⟩

/-- The database stands for the finite sets, which hold text and are small enough for an `i32`. -/
structure Rel (s : ℕ × Redis S) (t : ℕ × (Bytes → Finset Bytes)) : Prop where
  clock : s.1 = t.1
  setAt : ∀ key, SetAt s.1 s.2 key (t.2 key)
  /-- The sets hold text, and are small. -/
  small : ∀ key, IsSmallText (t.2 key)

section Step

variable {sets : Bytes → Finset Bytes}

/-- **Every command acts on the finite sets.** -/
theorem exec_refines (h : ∀ key, SetAt c db key (sets key)) (hsmall : ∀ key, IsSmallText (sets key))
    (hnow : c < now) (command : Command) (hfits : command.Fits sets) :
    (command.exec db now).1 = .ok (command.spec sets).1 ∧
      ∀ key, SetAt now (command.exec db now).2 key ((command.spec sets).2 key) := by
  cases command with
  | sadd key members =>
    have hr := sadd_refines (h key) hnow hfits.1 hfits.2
    exact ⟨congrArg (Except.map Reply.number) hr.answer, hr.update h hnow⟩
  | spop rng key count =>
    have hr := spop_refines (h key) hnow (hsmall key).text (hsmall key).card rng count
    exact ⟨congrArg (Except.map Reply.members) hr.answer, hr.update h hnow⟩
  | smove source destination member =>
    by_cases hmem : member ∈ sets source
    · obtain ⟨hne, hroom⟩ := hfits hmem
      have hr := smove_of_mem h hnow hmem hne (hsmall source).card hroom
      rw [Command.spec, if_pos hmem, if_neg hne]
      exact ⟨congrArg (Except.map Reply.flag) hr.1, hr.2⟩
    · have hr : (Sets.smove source destination member now).exec db = (.ok false, db) :=
        smove_of_notMem (h source) hmem
      rw [Command.spec, if_neg hmem, Command.exec, hr]
      exact ⟨rfl, fun key ↦ (h key).congr hnow.le (.refl db key)⟩
  | delKey key =>
    have hr := delKey_refines (h key) hnow
    exact ⟨congrArg (Except.map Reply.flag) hr.answer, hr.update h hnow⟩

theorem isSmallText_spec (hsmall : ∀ key, IsSmallText (sets key)) (command : Command)
    (hfits : command.Fits sets) (key : Bytes) : IsSmallText ((command.spec sets).2 key) := by
  have hupdate : ∀ {sets : Bytes → Finset Bytes} {k : Bytes} {s : Finset Bytes},
      (∀ key, IsSmallText (sets key)) → IsSmallText s →
        ∀ key, IsSmallText (Function.update sets k s key) := by
    intro sets k s hsets hs key
    by_cases hk : key = k
    · rw [hk, Function.update_self]
      exact hs
    · rw [Function.update_of_ne hk]
      exact hsets key
  cases command with
  | sadd k members =>
    refine hupdate hsmall ⟨fun x hx ↦ ?_, ?_⟩ key
    · rcases Finset.mem_union.1 hx with hx | hx
      · exact (hsmall k).text x hx
      · exact hfits.1 x (List.mem_toFinset.1 hx)
    · have hunion := Finset.card_union_le (sets k) members.toFinset
      have hargs := List.toFinset_card_le members
      have hroom := hfits.2
      omega
  | spop rng k count => exact hupdate hsmall ((hsmall k).subset Finset.sdiff_subset) key
  | smove source destination member =>
    rw [Command.spec]
    split_ifs with hmem hsame
    · exact hsmall key
    · refine hupdate (hupdate hsmall ((hsmall source).subset (Finset.erase_subset _ _)))
        ⟨fun x hx ↦ ?_, ?_⟩ key
      · rcases Finset.mem_insert.1 hx with rfl | hx
        · exact (hsmall source).text x hmem
        · exact (hsmall destination).text x hx
      · exact (Finset.card_insert_le _ _).trans_lt (hfits hmem).2
    · exact hsmall key
  | delKey k => exact hupdate hsmall ((hsmall k).subset (Finset.empty_subset _)) key

end Step

theorem rel_init : Rel (0, (Redis.empty : Redis S)) (0, fun _ ↦ ∅) :=
  ⟨rfl, fun key ↦ ⟨_, Family.at_empty key, SortedMap.keySet_empty⟩,
    fun _ ↦ ⟨fun _ hx ↦ absurd hx (Finset.notMem_empty _), (by decide : 0 < 2 ^ 31)⟩⟩

/-- **One step.** The storage operation answers as the operation on finite sets, and the relation is
kept. -/
theorem rel_step (s : ℕ × Redis S) (t : ℕ × (Bytes → Finset Bytes)) (a : ℕ × Command)
    (h : Rel s t) (hguard : Guard t a) :
    (Run.timed Command.exec s a).1 = (Run.timed specStep t a).1 ∧
      Rel (Run.next (Run.timed Command.exec) s a) (Run.next (Run.timed specStep) t a) := by
  have hnow : s.1 < a.1 := h.clock ▸ hguard.1
  obtain ⟨hanswer, hsets⟩ := exec_refines h.setAt h.small hnow a.2 hguard.2
  exact ⟨hanswer, rfl, hsets, isSmallText_spec h.small a.2 hguard.2⟩

/-- The database after a run from the empty one. -/
def stateAfter (steps : List (ℕ × Command)) : Redis S :=
  (Run.final (Run.next (Run.timed Command.exec)) (0, Redis.empty) steps).2

/-- The finite sets after a run from empty ones. -/
def setsAfter (steps : List (ℕ × Command)) : Bytes → Finset Bytes :=
  (Run.final (Run.next (Run.timed specStep)) (0, fun _ ↦ ∅) steps).2

/-- **Sets behave as finite sets**, in every run on an advancing clock whose commands fit: every
command answers as on the finite sets, and every read afterwards says what they say. -/
theorem sets_refine_finite_sets (steps : List (ℕ × Command))
    (h : Run.Allowed (Run.next (Run.timed specStep)) Guard (0, fun _ ↦ ∅) steps) :
    Run.answers (Run.timed Command.exec) (0, (Redis.empty : Redis S)) steps =
        Run.answers (Run.timed specStep) (0, fun _ ↦ ∅) steps ∧
      ∀ now, Observes (stateAfter steps : Redis S) now (setsAfter steps) := by
  obtain ⟨hanswers, hrel⟩ := Run.simulation (rel_step (S := S)) rel_init h
  refine ⟨hanswers, fun now ↦ ⟨fun key ↦ ?_, fun key x ↦ ?_, fun key ↦ ?_, fun key m hm ↦ ?_⟩⟩
  · exact scard_eq (hrel.setAt key) (hrel.small key).card now
  · exact sismember_eq (hrel.setAt key) now x
  · exact smembers_eq (hrel.setAt key) (hrel.small key).text now
  · obtain ⟨map, hmap, -⟩ := hrel.setAt key
    obtain ⟨m', hm', hstored⟩ := hmap.found hm
    obtain rfl := MetaValue.base.inj hm'
    have hrows := ((Family.sets S).rowsAt_table _ key m.version).trans
      (congrArg SortedMap.rows hstored.rows)
    exact hstored.count.trans (congrArg List.length hrows).symm

/-- A generator that always takes the first elements. -/
def firstRng : Rng where
  genRange _ := 0
  chooseMultiple n k := List.range (min k n)
  shuffle n := List.range n
  choices _ k := List.replicate k 0
  genRange_lt h := h
  nodup_chooseMultiple _ _ := List.nodup_range
  lt_of_mem_chooseMultiple h := lt_of_lt_of_le (List.mem_range.1 h) (min_le_right _ _)
  length_chooseMultiple _ _ := List.length_range

/-- A run with a repeated argument, a move, a set that is created again, and a pop. -/
def addMovePop : List (ℕ × Command) :=
  [(1, .sadd [1] [[97], [98], [97], [99]]), (2, .smove [1] [2] [98]), (3, .delKey [1]),
    (4, .sadd [1] [[100]]), (5, .spop firstRng [1] none)]

/-- The run is allowed, so the member that was moved is where it was moved to. -/
theorem sets_refine_finite_sets_addMovePop :
    Run.Allowed (Run.next (Run.timed specStep)) Guard (0, fun _ ↦ ∅) addMovePop ∧
      sismember (stateAfter addMovePop : Redis ℤ) [2] [98] 6 = .ok true := by
  have hallowed : Run.Allowed (Run.next (Run.timed specStep)) Guard (0, fun _ ↦ ∅) addMovePop := by
    decide +kernel
  refine ⟨hallowed, ?_⟩
  have hobs : Observes (stateAfter addMovePop : Redis ℤ) 6 (setsAfter addMovePop) :=
    (sets_refine_finite_sets addMovePop hallowed).2 6
  rw [hobs.sismember [2] [98]]
  decide +kernel

/-- One member, moved from its set to the same set. -/
def moveToItself : List (ℕ × Command) :=
  [(1, .sadd [1] [[97]]), (2, .smove [1] [1] [97])]

/-- Two members whose renderings as text are the same replacement character. -/
def addTwoBytes : List (ℕ × Command) := [(1, .sadd [1] [[0xFF], [0xFE]])]

/-- The move deletes the member; and of two members that are not text, one is added. -/
theorem smove_to_itself_deletes_member :
    Run.Allowed (Run.next (Run.timed specStep)) Run.Advances (0, fun _ ↦ ∅) moveToItself ∧
      setsAfter moveToItself [1] = {[97]} ∧
      sismember (stateAfter moveToItself : Redis ℤ) [1] [97] 3 = .ok false ∧
      Run.Allowed (Run.next (Run.timed specStep)) Run.Advances (0, fun _ ↦ ∅) addTwoBytes ∧
      setsAfter addTwoBytes [1] = {[0xFF], [0xFE]} ∧
      scard (stateAfter addTwoBytes : Redis ℤ) [1] 2 = .ok 1 := by
  decide +kernel

end Kiwi.SetRefinement
