import Kiwi.Lib.Program

/-!
# Programs as scripts of looks and commits

A script looks at the state and commits batches, one after the other, and ends with an answer or an
error. `Script.denote` is the program it stands for when a batch is written to the state directly,
and `Script.runWith` runs it against any other way to commit, which may fail and end the script.

`Scripted write P p` says that the program `p` is a script all of whose batches satisfy `P`.
`runWith_congr` compares two ways to commit: if they agree on the batches of a script, they agree on
the script.
-/

/-- A program that looks at states and commits batches. -/
inductive Script (σ B ε α : Type)
  | done (r : Except ε α)
  | look (next : σ → Script σ B ε α)
  | commit (b : B) (next : Script σ B ε α)

namespace Script

variable {σ B ε δ α T : Type}

/-- The program of a script. -/
def denote (write : σ → B → σ) : Script σ B ε α → Program σ ε α
  | done r => liftM r
  | look next => get >>= fun s ↦ (next s).denote write
  | commit b next => (modify fun s ↦ write s b) >>= fun _ ↦ next.denote write

/-- A script over states `T`, of which it sees `view`. An error of a commit ends it. -/
def runWith (view : T → σ) (commitTo : B → T → Except δ T) (wrap : ε → δ) :
    Script σ B ε α → T → Except δ α × T
  | done r, t => (r.mapError wrap, t)
  | look next, t => (next (view t)).runWith view commitTo wrap t
  | commit b next, t =>
    match commitTo b t with
    | .error e => (.error e, t)
    | .ok t' => next.runWith view commitTo wrap t'

/-- Every batch that the script can commit. -/
def All (P : B → Prop) : Script σ B ε α → Prop
  | done _ => True
  | look next => ∀ s, (next s).All P
  | commit b next => P b ∧ next.All P

variable {write : σ → B → σ} {P : B → Prop}

variable {sc : Script σ B ε α}

theorem All.mono {Q : B → Prop} (h : sc.All P) (hPQ : ∀ b, P b → Q b) : sc.All Q := by
  induction sc with
  | done r => trivial
  | look next ih => exact fun s ↦ ih s (h s)
  | commit b next ih => exact ⟨hPQ b h.1, ih h.2⟩

theorem runWith_write (s : σ) :
    sc.runWith id (fun b s ↦ .ok (write s b)) id s = (sc.denote write).exec s := by
  induction sc generalizing s with
  | done r =>
    rw [denote, Program.exec_lift, runWith]
    cases r <;> rfl
  | look next ih => exact ih s s
  | commit b next ih => exact ih (write s b)

/-- **Two ways to commit.** They need to agree on the batches of the script, in states that satisfy
an invariant of the one. -/
theorem runWith_congr {view : T → σ} {commitTo commitTo' : B → T → Except δ T} {wrap : ε → δ}
    {I : T → Prop} (hcommit : ∀ b t, P b → I t → commitTo b t = commitTo' b t)
    (hI : ∀ b t t', P b → I t → commitTo b t = .ok t' → I t') (h : sc.All P) {t : T} (ht : I t) :
    sc.runWith view commitTo wrap t = sc.runWith view commitTo' wrap t := by
  induction sc generalizing t with
  | done r => rfl
  | look next ih => exact ih (view t) (h _) ht
  | commit b next ih =>
    rw [runWith, runWith, ← hcommit b t h.1 ht]
    rcases hb : commitTo b t with e | t'
    · rfl
    · exact ih h.2 (hI b t t' h.1 ht hb)

end Script

/-! ### Programs that are scripts -/

namespace Program

variable {σ B ε α : Type}

/-- The program is a script with batches that satisfy `P`. -/
def Scripted (write : σ → B → σ) (P : B → Prop) (p : Program σ ε α) : Prop :=
  ∃ sc : Script σ B ε α, sc.denote write = p ∧ sc.All P

end Program
