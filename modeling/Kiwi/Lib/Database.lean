import Kiwi.Lib.SortedMap
import Mathlib.Logic.Function.Basic

/-!
# Databases with column families and write batches

A database is one sorted map per column family, and a write batch is a list of puts, deletes and
range deletes that take effect together. Everything known about a batch is what it does to one
location: `WriteOp.effect` is what a single write leaves there, if it touches the location at all,
and the writes of a batch act one after the other. Two consequences
are used throughout:

* `Database.get_write_of_untouched` — a location that no write touches keeps its value;
* `Database.get_write_congr` — a location that some write touches has the same value afterwards
  whatever the database held before.
-/

/-- One write of a batch, in the column families `C`. -/
inductive WriteOp (C K V : Type*) where
  | put (cf : C) (key : K) (value : V)
  | delete (cf : C) (key : K)
  /-- Remove the keys from `start` up to but not including `stop`. -/
  | deleteRange (cf : C) (start stop : K)

/-- The contents of a database, one map per column family. -/
abbrev Database (C K V : Type*) [LT K] := C → SortedMap K V

namespace WriteOp

variable {C K V : Type*} [DecidableEq C] [LinearOrder K]

/-- What a write leaves at a location: `none` if it does not touch it, and otherwise the value it
puts there or `some none` for a removal. -/
def effect (op : WriteOp C K V) (cf : C) (key : K) : Option (Option V) :=
  match op with
  | put cf' key' value => if cf = cf' ∧ key = key' then some (some value) else none
  | delete cf' key' => if cf = cf' ∧ key = key' then some none else none
  | deleteRange cf' start stop =>
    if cf = cf' ∧ start ≤ key ∧ key < stop then some none else none

/-- A single write. -/
def run (db : Database C K V) : WriteOp C K V → Database C K V
  | put cf key value => Function.update db cf ((db cf).insert key value)
  | delete cf key => Function.update db cf ((db cf).erase key)
  | deleteRange cf start stop => Function.update db cf ((db cf).eraseRange start stop)

theorem get_run (db : Database C K V) (op : WriteOp C K V) (cf : C) (key : K) :
    (op.run db cf).get key = (op.effect cf key).getD ((db cf).get key) := by
  cases op with
  | put cf' key' value =>
    rcases eq_or_ne cf cf' with rfl | hcf
    · simp only [run, effect, Function.update_self, SortedMap.get_insert, true_and]
      split_ifs <;> rfl
    · simp [run, effect, hcf]
  | delete cf' key' =>
    rcases eq_or_ne cf cf' with rfl | hcf
    · simp only [run, effect, Function.update_self, SortedMap.get_erase, true_and]
      split_ifs <;> rfl
    · simp [run, effect, hcf]
  | deleteRange cf' start stop =>
    rcases eq_or_ne cf cf' with rfl | hcf
    · simp only [run, effect, Function.update_self, SortedMap.get_eraseRange, true_and]
      split_ifs <;> rfl
    · simp [run, effect, hcf]

end WriteOp

namespace Database

variable {C K V : Type*} [DecidableEq C] [LinearOrder K]

/-- The database without rows. -/
def empty : Database C K V := fun _ ↦ SortedMap.empty

/-- Commit a batch. -/
def write (db : Database C K V) (batch : List (WriteOp C K V)) : Database C K V :=
  batch.foldl WriteOp.run db

variable (db : Database C K V)

@[simp] theorem write_nil : db.write [] = db := rfl

variable {batch : List (WriteOp C K V)}

@[simp] theorem write_cons (op : WriteOp C K V) :
    db.write (op :: batch) = (op.run db).write batch := rfl

theorem write_append (batch batch' : List (WriteOp C K V)) :
    db.write (batch ++ batch') = (db.write batch).write batch' := List.foldl_append

omit [DecidableEq C] in
theorem ext_get {db db' : Database C K V} (h : ∀ cf key, (db cf).get key = (db' cf).get key) :
    db = db' :=
  funext fun cf ↦ SortedMap.ext_get (h cf)

/-- No write of the batch touches the location. -/
def Untouched (batch : List (WriteOp C K V)) (cf : C) (key : K) : Prop :=
  ∀ op ∈ batch, op.effect cf key = none

/-- **Frame.** A location that no write touches keeps its value. -/
theorem get_write_of_untouched {db : Database C K V} {cf : C}
    {key : K} (h : Untouched batch cf key) : (db.write batch cf).get key = (db cf).get key := by
  induction batch generalizing db with
  | nil => rfl
  | cons op batch ih =>
    rw [write_cons, ih fun op' h' ↦ h op' (List.mem_cons_of_mem _ h'), WriteOp.get_run,
      h op List.mem_cons_self, Option.getD_none]

/-- **Overwriting.** What a batch leaves at a location that it touches does not depend on what was
there. -/
theorem get_write_congr (db db' : Database C K V) {cf : C} {key : K} (h : ¬Untouched batch cf key) :
    (db.write batch cf).get key = (db'.write batch cf).get key := by
  induction batch generalizing db db' with
  | nil => exact absurd (fun op hop ↦ absurd hop List.not_mem_nil) h
  | cons op batch ih =>
    rw [write_cons, write_cons]
    by_cases hrest : Untouched batch cf key
    · rw [get_write_of_untouched hrest, get_write_of_untouched hrest, WriteOp.get_run,
        WriteOp.get_run]
      rcases hop : op.effect cf key with _ | value
      · refine absurd (fun op' hop' ↦ ?_) h
        rcases List.mem_cons.1 hop' with rfl | hop'
        · exact hop
        · exact hrest op' hop'
      · rfl
    · exact ih _ _ hrest

end Database
