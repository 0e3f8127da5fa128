import Kiwi.Storage.Strings
import Kiwi.Storage.Slots

/-!
# `SCAN`

The iteration over the keys of all instances (`storage_scan.rs`). A page reads a number of entries
of `MetaCF`, live or not, and goes on in the next instance when one is exhausted. Where the next
page begins — an instance, and the first key that was not read — is remembered under a cursor, which
is a number never used before. Cursor `0` begins a scan, and is the answer when every instance is
exhausted.

The table of cursors has a bound, beyond which old ones are evicted; here it has none.
-/

namespace Kiwi

/-- What `scan_meta` reads of an instance. -/
abbrev MetaCF := SortedMap Bytes MetaValue

namespace Scan

/-- `ScanPage`: the keys found, how many entries were read, and the first key that was not. -/
structure ScanPage where
  /-- Live keys that pass the filters. -/
  keys : List Bytes
  scanned : ℕ
  /-- The first key that was not read. -/
  nextKey : Option Bytes
  deriving DecidableEq, Repr

/-- `parse_scan_type`: the type named by an argument, in any case. -/
def parseScanType (name : Bytes) : DataType :=
  let lower := name.map fun b ↦ if 0x41 ≤ b && b ≤ 0x5A then b + 32 else b
  if lower = [0x73, 0x74, 0x72, 0x69, 0x6E, 0x67] then .string
  else if lower = [0x68, 0x61, 0x73, 0x68] then .hash
  else if lower = [0x73, 0x65, 0x74] then .set
  else if lower = [0x6C, 0x69, 0x73, 0x74] then .list
  else if lower = [0x7A, 0x73, 0x65, 0x74] then .zset
  else if lower = [0x76, 0x65, 0x63, 0x74, 0x6F, 0x72, 0x73, 0x65, 0x74] then .vectorSet
  else .none

/-- The filters of a scan on a type: no filter, or one type. -/
def passesType (typeFilter : Option DataType) (t : DataType) : Bool :=
  match typeFilter with
  | none => true
  | some wanted => t = wanted

/-- An entry that a page returns: live, of the wanted type, with a key that matches. -/
def wanted (typeFilter : Option DataType) (pattern : Bytes) (now : ℕ) (r : Bytes × MetaValue) :
    Bool :=
  Strings.isLive now r.2 && passesType typeFilter r.2.dataType && Glob.matchesPattern pattern r.1

/-- The loop of `scan_meta`, over the entries that the iterator still has. -/
def scanLoop (keep : Bytes × MetaValue → Bool) : ℕ → List (Bytes × MetaValue) → ScanPage
  | 0, rest => ⟨[], 0, rest.head?.map Prod.fst⟩
  | _ + 1, [] => ⟨[], 0, none⟩
  | limit + 1, r :: rest =>
    let page := scanLoop keep limit rest
    { page with keys := if keep r then r.1 :: page.keys else page.keys
                scanned := page.scanned + 1 }

section Loop

variable {keep : Bytes × MetaValue → Bool}

section

variable (limit : ℕ) (rows : List (Bytes × MetaValue))

theorem scanLoop_keys :
    (scanLoop keep limit rows).keys = ((rows.take limit).filter keep).map Prod.fst := by
  induction limit generalizing rows with
  | zero => rfl
  | succ limit ih =>
    cases rows with
    | nil => rfl
    | cons r rest =>
      rw [scanLoop, List.take_succ_cons, List.filter_cons]
      dsimp only
      rw [ih rest]
      split_ifs <;> rfl

theorem scanLoop_nextKey :
    (scanLoop keep limit rows).nextKey = (rows.drop limit).head?.map Prod.fst := by
  induction limit generalizing rows with
  | zero => rfl
  | succ limit ih =>
    cases rows with
    | nil => rfl
    | cons r rest => exact ih rest

end

end Loop

/-- The entries from a key on. -/
def entriesFrom (cf : MetaCF) (startKey : Option Bytes) : List (Bytes × MetaValue) :=
  match startKey with
  | none => cf.rows
  | some key => cf.rows.dropWhile fun r ↦ r.1 < key

/-- `Redis::scan_meta`. -/
def scanMeta (cf : MetaCF) (startKey : Option Bytes) (limit : ℕ) (typeFilter : Option DataType)
    (pattern : Bytes) (now : ℕ) : ScanPage :=
  scanLoop (wanted typeFilter pattern now) limit (entriesFrom cf startKey)

/-- `ScanCursorState`: where a scan goes on. -/
structure ScanCursorState where
  instanceIndex : ℕ
  /-- The first key that was not read, or the beginning of the instance. -/
  nextKey : Option Bytes
  deriving DecidableEq, Repr

/-- The cursors in use: the next one to give out, which is never `0`, and what they stand for. -/
structure CursorTable where
  /-- `NEXT_SCAN_CURSOR`. -/
  next : ℕ
  pos : 0 < next
  /-- `scan_cursor_states`. -/
  states : SortedMap ℕ ScanCursorState

/-- The loop of `Storage::scan` over the instances that are left: what was found, and where the scan
goes on. -/
def scanInstances (typeFilter : Option DataType) (pattern : Bytes) (now : ℕ) :
    List MetaCF → ℕ → Option Bytes → ℕ → List Bytes × ScanCursorState
  | [], index, nextKey, _ => ([], ⟨index, nextKey⟩)
  | cf :: insts, index, nextKey, remaining =>
    let page := scanMeta cf nextKey remaining typeFilter pattern now
    match page.nextKey with
    | some key => (page.keys, ⟨index, some key⟩)
    | none =>
      if remaining - page.scanned = 0 then (page.keys, ⟨index + 1, none⟩)
      else
        let rest := scanInstances typeFilter pattern now insts (index + 1) none
          (remaining - page.scanned)
        (page.keys ++ rest.1, rest.2)

/-- Where the scan of a cursor goes on. -/
def startOf (table : CursorTable) (cursor : ℕ) : Except Error ScanCursorState :=
  if cursor = 0 then .ok ⟨0, none⟩
  else
    match table.states.get cursor with
    | some state => .ok state
    | none => .error (.redisErr "ERR invalid cursor")

/-- `allocate_scan_cursor`, and the entry of the new cursor. -/
def remember (table : CursorTable) (state : ScanCursorState) : Except Error (ℕ × CursorTable) :=
  if table.next + 1 < 2 ^ 64 then
    .ok (table.next, { next := table.next + 1, pos := Nat.succ_pos _
                       states := table.states.insert table.next state })
  else .error (.system "SCAN cursor space exhausted")

/-- `Storage::scan`: the next cursor, the keys of this page, and the table of cursors. -/
def scan (insts : List MetaCF) (table : CursorTable) (cursor count : ℕ)
    (typeFilter : Option Bytes) (pattern : Bytes) (now : ℕ) :
    Except Error (ℕ × List Bytes × CursorTable) := do
  let start ← startOf table cursor
  let found := scanInstances (typeFilter.map parseScanType) pattern now
    (insts.drop start.instanceIndex) start.instanceIndex start.nextKey (max count 1)
  if found.2.instanceIndex ≥ insts.length then return (0, found.1, table)
  else
    let (next, table) ← remember table found.2
    return (next, found.1, table)

end Scan

end Kiwi
