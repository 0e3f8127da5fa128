import Kiwi.Correctness.Edits.Hashes
import Kiwi.Correctness.Edits.Lists
import Kiwi.Correctness.Edits.Sets
import Kiwi.Correctness.Edits.Strings
import Kiwi.Correctness.Edits.Zsets

/-!
# What operations write, for all of them

`commits_operation` puts the results on the five types together. That failed operations change
nothing, the rules for expiry times and the writes of a cluster are derived from it.
-/

namespace Kiwi.Edits

variable {S α : Type}

/-- All the operation does is commit a batch of edits, if it does anything: it is none of
`set_key_etime`, `rpoplpush`, `hscan` and the zset stores. -/
def isPlain : Operation S α → Bool
  | .string o => (Compaction.setsEtime o).isNone
  | .list o => !isRpoplpush o
  | .hash o => !isHscan o
  | .set _ => true
  | .zset o => !isZsetStore o

/-- **What operations write.** On two databases that look the same to it, an operation gives the same
answer and commits the same batch, which is one of edits for its rule. -/
theorem commits_operation [Score S] {now : ℕ} {a b : Redis S} (h : SameView now a b)
    (o : Operation S α) (ho : isPlain o = true) :
    CommitsOne (Writes (Expiry.rule o) now a) a b (o.run now) (o.run now) := by
  cases o with
  | string o => exact commits_string h o (Option.isNone_iff_eq_none.1 ho)
  | list o => exact commits_list h o (by simpa [isPlain] using ho)
  | hash o => exact commits_hash h o (by simpa [isPlain] using ho)
  | set o => exact commits_set h o
  | zset o => exact commits_zset h o (by simpa [isPlain] using ho)

end Kiwi.Edits
