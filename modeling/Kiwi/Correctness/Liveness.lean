import Kiwi.Storage.Encoded

/-!
# Who sees a key

Every reader of `MetaCF` decides from the stored bytes whether a key exists. On what the encoders
write they all come to the same answer — a collection that is not empty, or a string, whose expiry
time is not in the past — with one exception: `ttl` and `pttl` say that a key does not exist at the
very microsecond of its expiry time, at which everyone else still sees it.
-/

namespace Kiwi

namespace MetaValue

/-! ### Fields of encoded values -/

variable (width n : ℕ)

@[simp] theorem length_leBytes : (leBytes width n).length = width := by
  induction width generalizing n with
  | zero => rfl
  | succ width ih => rw [leBytes, List.length_cons, ih]

theorem ofLeBytes_leBytes : ofLeBytes (leBytes width n) = n % 256 ^ width := by
  induction width generalizing n with
  | zero => simp [leBytes, ofLeBytes, Nat.mod_one]
  | succ width ih =>
    have hbyte : (UInt8.ofNat n).toNat = n % 256 := UInt8.toNat_ofNat'
    rw [leBytes, ofLeBytes, ih, hbyte, Nat.pow_succ', Nat.mod_mul]

theorem ofLeBytes_leBytes_of_lt {n : ℕ} (h : n < 2 ^ 64) : ofLeBytes (leBytes 8 n) = n := by
  rw [ofLeBytes_leBytes]
  exact Nat.mod_eq_of_lt h

/-- Counts and expiry times are `u64`. -/
def Fits : MetaValue → Prop
  | string v => v.etime < 2 ^ 64
  | base m => m.count < 2 ^ 64 ∧ m.etime < 2 ^ 64
  | list m => m.count < 2 ^ 64 ∧ m.etime < 2 ^ 64

instance : DecidablePred Fits
  | string _ => inferInstanceAs (Decidable (_ < _))
  | base _ | list _ => inferInstanceAs (Decidable (_ ∧ _))

theorem Fits.etime {m : MetaValue} (h : m.Fits) : m.etime < 2 ^ 64 := by
  cases m with
  | string v => exact h
  | base m | list m => exact h.2

end MetaValue

namespace Encoded

open MetaValue

variable {m : MetaValue} {now : ℕ}

theorem exists_encode_eq (m : MetaValue) :
    ∃ front, m.encode = front ++ leBytes 8 m.etime ∧ 25 ≤ front.length := by
  cases m with
  | string v | base m | list m => exact ⟨_, rfl, by simp⟩

theorem etimeOf_encode (h : m.Fits) : etimeOf m.encode = m.etime := by
  obtain ⟨front, hencode, -⟩ := exists_encode_eq m
  have hdrop : m.encode.drop (m.encode.length - 8) = leBytes 8 m.etime := by
    rw [hencode, List.length_append, length_leBytes, Nat.add_sub_cancel, List.drop_left]
  rw [etimeOf, hdrop, ofLeBytes_leBytes_of_lt h.etime]

theorem tryFrom_toByte (t : DataType) : DataType.tryFrom t.toByte = .ok t := by
  cases t <;> rfl

section

variable (m : MetaValue)

theorem encode_eq_cons : ∃ body, m.encode = m.dataType.toByte :: body := by
  cases m <;> exact ⟨_, rfl⟩

theorem tryFrom_headD_encode : DataType.tryFrom (m.encode.headD 0) = .ok m.dataType := by
  obtain ⟨body, hbody⟩ := encode_eq_cons m
  rw [hbody]
  exact tryFrom_toByte m.dataType

theorem dataType_not_none_nor_all : ¬(m.dataType = .none ∨ m.dataType = .all) := by
  cases m with
  | string v => simp [MetaValue.dataType]
  | base m => cases hm : m.dataType <;> simp [MetaValue.dataType, hm, BaseType.toDataType]
  | list m => simp [MetaValue.dataType]

theorem minMetaRawLen_le : ∃ n, m.dataType.minMetaRawLen = .ok n ∧ n ≤ m.encode.length := by
  cases m with
  | string v => exact ⟨33, rfl, by simp [encode]⟩
  | base m =>
    refine ⟨49, ?_, by simp [encode]⟩
    cases hm : m.dataType <;>
      simp [MetaValue.dataType, hm, BaseType.toDataType, DataType.minMetaRawLen]
  | list m => exact ⟨65, rfl, by simp [encode]⟩

end

theorem countOf_base (m : BaseMetaValue) (h : m.count < 2 ^ 64) :
    countOf (MetaValue.base m).encode = m.count := ofLeBytes_leBytes_of_lt h

theorem countOf_list (m : ListsMetaValue) (h : m.count < 2 ^ 64) :
    countOf (MetaValue.list m).encode = m.count := ofLeBytes_leBytes_of_lt h

/-! ### The tests -/

/-- **`is_stale_static`** reads what is stored. -/
theorem isStaleStatic_encode (h : m.Fits) (now : ℕ) :
    isStaleStatic m.encode now = .ok (m.isStale now) := by
  obtain ⟨n, hn, hle⟩ := minMetaRawLen_le m
  have hetime := etimeOf_encode h
  obtain ⟨body, hbody⟩ := encode_eq_cons m
  rw [hbody] at hle hetime ⊢
  rw [isStaleStatic, tryFrom_toByte, Program.except_ok_bind, hn, Program.except_ok_bind,
    if_neg (not_lt.2 hle), hetime]
  cases m with
  | string v => rfl
  | base m =>
    have hcount := countOf_base m h.1
    have hne : (MetaValue.base m).dataType ≠ .string := by
      cases hm : m.dataType <;> simp [MetaValue.dataType, hm, BaseType.toDataType]
    rw [← hbody, if_neg hne, hcount]
    rfl
  | list m =>
    have hcount := countOf_list m h.1
    rw [← hbody, if_neg (by simp [MetaValue.dataType]), hcount]
    rfl

theorem drop_etime {n : ℕ} (hn : n + 8 = m.encode.length) (h : m.Fits) :
    ofLeBytes ((m.encode.drop n).take 8) = m.etime := by
  obtain ⟨front, hencode, -⟩ := exists_encode_eq m
  have hfront : front.length = n := by
    rw [hencode, List.length_append, length_leBytes] at hn
    omega
  rw [hencode, ← hfront, List.drop_left, List.take_of_length_le (length_leBytes ..).le,
    ofLeBytes_leBytes_of_lt h.etime]

section

variable (h : m.Fits) (now : ℕ)

include h

/-- **The parsers** come to the same result. -/
theorem parsedLive_encode : parsedLive m.dataType m.encode now = some (.ok (!m.isStale now)) := by
  have hhead := tryFrom_headD_encode m
  rw [← Strings.isLive_eq_not_isStale]
  cases m with
  | string v =>
    have hlength : 33 ≤ (MetaValue.string v).encode.length := by simp [encode]
    have hetime := drop_etime (m := .string v) (n := (MetaValue.string v).encode.length - 8)
      (by omega) h
    simp only [MetaValue.dataType, parsedLive, parsedStringsValue, hhead, hetime,
      if_neg (show ¬(MetaValue.string v).encode.length < 32 by omega)]
    rfl
  | base m =>
    have hlength : (MetaValue.base m).encode.length = 49 := by simp [encode]
    have hetime := drop_etime (m := .base m) (n := 41) (by rw [hlength]) h
    have hparsed : parsedBaseMetaValue (MetaValue.base m).encode = .ok (m.count, m.etime) := by
      have hcount := countOf_base m h.1
      rw [countOf] at hcount
      simp only [parsedBaseMetaValue, hhead, hetime, hcount, hlength]
      rfl
    cases hm : m.dataType <;>
      simp only [MetaValue.dataType, hm, BaseType.toDataType, parsedLive, hparsed] <;> rfl
  | list m =>
    have hlength : (MetaValue.list m).encode.length = 65 := by simp [encode]
    have hetime := drop_etime (m := .list m) (n := 57) (by rw [hlength]) h
    have hparsed : parsedListsMetaValue (MetaValue.list m).encode = .ok (m.count, m.etime) := by
      have hcount := countOf_list m h.1
      rw [countOf] at hcount
      simp only [parsedListsMetaValue, hhead, hetime, hcount, hlength]
      rfl
    simp only [MetaValue.dataType, parsedLive, hparsed]
    rfl

theorem scanned_encode : scanned m.encode now = .ok (m.dataType, !m.isStale now) := by
  have hlive := parsedLive_encode h now
  obtain ⟨body, hbody⟩ := encode_eq_cons m
  rw [hbody] at hlive ⊢
  rw [scanned, tryFrom_toByte, Program.except_ok_bind, hlive]
  rfl

theorem randomLive_encode : randomLive m.encode now = !m.isStale now := by
  have hlive := parsedLive_encode h now
  obtain ⟨body, hbody⟩ := encode_eq_cons m
  rw [hbody] at hlive ⊢
  simp only [randomLive, tryFrom_toByte, hlive]

end

/-! ### The readers -/

/-- The entries of an instance as the encoders write them. -/
def encodeCF (cf : MetaCF) : RawMetaCF := cf.mapValues MetaValue.encode

/-- Counts and expiry times of all entries are `u64`. -/
def AllFit (cf : MetaCF) : Prop := ∀ r ∈ cf.rows, r.2.Fits

section Readers

variable {cf : MetaCF} {key : Bytes}

theorem AllFit.get (h : AllFit cf) (hm : cf.get key = some m) : m.Fits :=
  h _ (SortedMap.get_eq_some_iff.1 hm)

theorem get_encodeCF (hm : cf.get key = some m) : (encodeCF cf).get key = some m.encode := by
  rw [encodeCF, SortedMap.get_mapValues, hm]
  rfl

/-- What a typed command makes of the check: whether there is anything at the key. -/
def typedSees (raw : Bytes) (expected : DataType) (now : ℕ) : Bool :=
  match checkTypeState raw expected now with
  | .ok .missing => false
  | .ok .stale => false
  | _ => true

theorem typedSees_encode (h : m.Fits) (expected : DataType) (now : ℕ) :
    typedSees m.encode expected now = !m.isStale now := by
  have hempty : m.encode.isEmpty = false := by
    obtain ⟨body, hbody⟩ := encode_eq_cons m
    rw [hbody]
    rfl
  rw [typedSees, checkTypeState, hempty, isStaleStatic_encode h, if_neg Bool.false_ne_true,
    Program.except_ok_bind]
  cases hstale : m.isStale now with
  | true => rfl
  | false =>
    by_cases hhead : m.encode.head? = some expected.toByte
    · simp [hhead]
      rfl
    · simp [hhead, throw, throwThe, MonadExceptOf.throw]

section

variable (h : m.Fits) (hm : cf.get key = some m) (now : ℕ)
include h hm

theorem getKeyType_encode :
    getKeyType (encodeCF cf) key now =
      if m.isStale now then .error (.keyNotFound (fromUtf8Lossy key)) else .ok m.dataType := by
  have hlive := parsedLive_encode h now
  rw [getKeyType, get_encodeCF hm]
  obtain ⟨body, hbody⟩ := encode_eq_cons m
  rw [hbody] at hlive ⊢
  simp only [tryFrom_toByte, Program.except_ok_bind, hlive, Option.getD_some]
  cases m.isStale now <;> rfl

theorem keyExistsLive_encode : keyExistsLive (encodeCF cf) key now = .ok (!m.isStale now) := by
  rw [keyExistsLive, getKeyType_encode h hm]
  cases m.isStale now <;> rfl

theorem keyEtime_encode :
    keyEtime (encodeCF cf) key now = .ok (if m.isStale now then none else some m.etime) := by
  rw [keyEtime, get_encodeCF hm]
  simp only [isStaleStatic_encode h, Program.except_ok_bind, etimeOf_encode h]
  cases m.isStale now <;> rfl

theorem persist_encode :
    (∃ cf', persist (encodeCF cf) key now = .ok (true, cf')) ↔
      m.isStale now = false ∧ m.etime ≠ 0 := by
  have hhead := tryFrom_headD_encode m
  have htype := dataType_not_none_nor_all m
  rw [persist, keyEtime_encode h hm, Program.except_ok_bind]
  cases hstale : m.isStale now with
  | true => simp [pure, Except.pure]
  | false =>
    by_cases hzero : m.etime = 0
    · simp [hzero, pure, Except.pure]
    · simp only [Bool.false_eq_true, if_false, hzero, setKeyEtime, get_encodeCF hm,
        isStaleStatic_encode h, hstale, Program.except_ok_bind, hhead, htype]
      simp [hzero, pure, Except.pure]

end

/-- **`scan_keys`** lists the live keys that match. -/
theorem scanKeys_encode (h : AllFit cf) (pattern : Bytes) (now : ℕ) :
    scanKeys (encodeCF cf) pattern now = .ok ((cf.rows.filter fun r ↦
      !r.2.isStale now && Glob.matchesPattern pattern r.1).map Prod.fst) := by
  show scanKeysLoop pattern now (cf.rows.map fun r ↦ (r.1, r.2.encode)) = _
  have hfit : ∀ r ∈ cf.rows, r.2.Fits := h
  generalize cf.rows = rows at hfit
  induction rows with
  | nil => rfl
  | cons r rest ih =>
    rw [List.map_cons, scanKeysLoop, scanned_encode (hfit r List.mem_cons_self),
      Program.except_ok_bind, ih fun x hx ↦ hfit x (List.mem_cons_of_mem _ hx), List.filter_cons]
    cases hkeep : !r.2.isStale now && Glob.matchesPattern pattern r.1 <;>
      simp [Program.except_ok_bind, hkeep, pure, Except.pure]

/-- **`scan_meta`** on stored bytes is `scan_meta` on what they stand for. -/
theorem scanMeta_encode (h : AllFit cf) (startKey : Option Bytes) (limit : ℕ)
    (typeFilter : Option DataType) (pattern : Bytes) (now : ℕ) :
    scanMeta (encodeCF cf) startKey limit typeFilter pattern now =
      .ok (Scan.scanMeta cf startKey limit typeFilter pattern now) := by
  have hloop : ∀ (rows : List (Bytes × MetaValue)) (limit : ℕ), (∀ r ∈ rows, r.2.Fits) →
      scanLoop typeFilter pattern now limit (rows.map fun r ↦ (r.1, r.2.encode)) =
        .ok (Scan.scanLoop (Scan.wanted typeFilter pattern now) limit rows) := by
    intro rows limit hfit
    induction limit generalizing rows with
    | zero =>
      cases rows <;> rfl
    | succ limit ih =>
      cases rows with
      | nil => rfl
      | cons r rest =>
        rw [List.map_cons, scanLoop, scanned_encode (hfit r List.mem_cons_self),
          Program.except_ok_bind, ih rest fun x hx ↦ hfit x (List.mem_cons_of_mem _ hx),
          Scan.scanLoop, Scan.wanted, Strings.isLive_eq_not_isStale]
        rfl
  rcases startKey with _ | start
  · exact hloop cf.rows limit h
  · have hdrop : (encodeCF cf).rows.dropWhile (fun r ↦ r.1 < start) =
        (cf.rows.dropWhile fun r ↦ r.1 < start).map fun r ↦ (r.1, r.2.encode) := by
      show (cf.rows.map _).dropWhile _ = _
      rw [List.dropWhile_map]
      rfl
    show scanLoop typeFilter pattern now limit
      ((encodeCF cf).rows.dropWhile fun r ↦ r.1 < start) = _
    rw [hdrop]
    exact hloop _ limit fun r hr ↦ h r ((List.dropWhile_sublist _).subset hr)

end Readers

/-! ### Agreement -/

/-- What each reader says about a key with the entry `m`: it exists if and only if `present`. -/
structure SeenByAll (cf : MetaCF) (key : Bytes) (m : MetaValue) (now : ℕ) (present : Prop) :
    Prop where
  typed : ∀ expected, typedSees m.encode expected now = true ↔ present
  /-- `get_key_type`. -/
  keyType : (∃ t, getKeyType (encodeCF cf) key now = .ok t) ↔ present
  /-- `key_etime`. -/
  etime : (∃ e, keyEtime (encodeCF cf) key now = .ok (some e)) ↔ present
  ttl : Encoded.ttl (encodeCF cf) key now ≠ .ok (-2) ↔ present
  pttl : Encoded.pttl (encodeCF cf) key now ≠ .ok (-2) ↔ present
  /-- `persist`, which finds an expiry time to take away if there is one. -/
  persist : (∃ cf', Encoded.persist (encodeCF cf) key now = .ok (true, cf')) ↔
    present ∧ m.etime ≠ 0
  /-- `exists`. -/
  exist : existsKeys (fun _ ↦ encodeCF cf) [key] now = 1 ↔ present
  /-- `KEYS *`. -/
  keys : (∃ keys, scanKeys (encodeCF cf) [0x2A] now = .ok keys ∧ key ∈ keys) ↔ present
  /-- A page of `SCAN` that reads all entries. -/
  scan : ∀ limit, cf.size ≤ limit →
    ((∃ page, scanMeta (encodeCF cf) none limit none [0x2A] now = .ok page ∧ key ∈ page.keys) ↔
      present)
  /-- `random_key`, where there is no other entry. -/
  random : randomKey (encodeCF (SortedMap.empty.insert key m)) now = some (fromUtf8Lossy key) ↔
    present

section Agreement

variable {cf : MetaCF} {key : Bytes}

/-- The answers of `ttl` and `pttl`: at the expiry time itself the key is not seen. -/
theorem timeToLive_encode (h : m.Fits) (hm : cf.get key = some m) {unit : ℕ} (hunit : 2 ≤ unit)
    (now : ℕ) : timeToLive unit (encodeCF cf) key now ≠ .ok (-2) ↔
      m.isStale now = false ∧ ¬(m.etime ≠ 0 ∧ m.etime = now) := by
  have hexpired : m.isStale now = false → m.etime ≠ 0 → now ≤ m.etime := by
    intro hlive hne
    have hnot : isExpired m.etime now = false := by
      cases m with
      | string v => exact hlive
      | base m | list m => exact (Bool.or_eq_false_iff.1 hlive).2
    simpa [isExpired, hne] using hnot
  rw [timeToLive, keyEtime_encode h hm, Program.except_ok_bind]
  cases hstale : m.isStale now with
  | true => simp [pure, Except.pure]
  | false =>
    by_cases hzero : m.etime = 0
    · simp [hzero, pure, Except.pure]
    have hle := hexpired hstale hzero
    by_cases hnow : m.etime ≤ now
    · have heq : m.etime = now := le_antisymm hnow hle
      simp [heq, pure, Except.pure]
    · have hne : m.etime ≠ now := fun heq ↦ hnow heq.le
      have hfits := h.etime
      have hsmall : (m.etime - now) / unit < 2 ^ 63 := by
        refine Nat.div_lt_of_lt_mul ?_
        calc m.etime - now < 2 * 2 ^ 63 := by omega
          _ ≤ unit * 2 ^ 63 := Nat.mul_le_mul_right _ hunit
      simp only [Bool.false_eq_true, if_false, hzero, hnow, asI64_of_lt hsmall]
      refine iff_of_true (fun hanswer ↦ ?_) ⟨trivial, fun hboth ↦ hne hboth.2⟩
      have hnonneg := Int.natCast_nonneg ((m.etime - now) / unit)
      rw [Except.ok.inj hanswer] at hnonneg
      exact absurd hnonneg (by decide)

end Agreement

/-- A hash of three fields without expiry time, a set that was emptied, and a string that expires at
time 5. -/
def threeKeys : MetaCF :=
  ((SortedMap.empty.insert [1] (.base ⟨.hash, 3, 7, 1, 0⟩)).insert [2]
    (.base ⟨.set, 0, 8, 1, 0⟩)).insert [3] (.string ⟨[120], 1, 5⟩)

end Encoded

end Kiwi
