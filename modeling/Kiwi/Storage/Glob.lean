import Kiwi.Bytes

/-!
# Glob patterns

`glob_match_bytes`: the matcher behind `KEYS`, `SCAN`, `HSCAN` and `SSCAN`, with `*`, `?`,
character classes with ranges and negation, and backslash escapes. The source walks the pattern and
the text with two indexes and remembers the last star to backtrack to; here an index is the suffix
it points at.
-/

namespace Kiwi.Glob

/-- The body of a character class after its opening bracket and negation mark: whether the
candidate is listed, and the pattern after the class. A class that is not closed extends to the
end of the pattern. -/
def classBody (candidate : UInt8) : Bool → Bytes → Bool × Bytes
  | matched, [] => (matched, [])
  | matched, 0x5C :: c :: rest => classBody candidate (matched || c == candidate) rest
  | matched, 0x5D :: rest => (matched, rest)
  | matched, a :: 0x2D :: b :: rest =>
    classBody candidate (matched || (min a b ≤ candidate && candidate ≤ max a b)) rest
  | matched, a :: rest => classBody candidate (matched || a == candidate) rest

/-- `match_character_class`, on the pattern after the opening bracket. -/
def matchCharacterClass (candidate : UInt8) : Bytes → Bool × Bytes
  | 0x5E :: rest =>
    let (matched, rest) := classBody candidate false rest
    (!matched, rest)
  | rest => classBody candidate false rest

/-- `token_matches`: the pattern after its first token, if that token matches the candidate. -/
def tokenMatches (candidate : UInt8) : Bytes → Option Bytes
  | [] => none
  | 0x3F :: rest => some rest
  | 0x5B :: rest =>
    let (matched, rest) := matchCharacterClass candidate rest
    if matched then some rest else none
  | 0x5C :: c :: rest => if candidate = c then some rest else none
  | 0x2A :: _ => none
  | c :: rest => if candidate = c then some rest else none

/-- The stars at the beginning of a pattern. -/
def skipStars (pattern : Bytes) : Bytes := pattern.dropWhile (· == 0x2A)

/-- The main loop, for at most `fuel` iterations. `star` is where to resume after the last star:
the pattern after it, and the text at which it was met or last resumed. -/
def matchLoop : ℕ → Bytes → Bytes → Option (Bytes × Bytes) → Bool
  | 0, _, _, _ => false
  | _ + 1, pattern, [], _ => (skipStars pattern).isEmpty
  | fuel + 1, pattern, c :: text, star =>
    if pattern.head? = some 0x2A then
      let rest := skipStars pattern
      rest.isEmpty || matchLoop fuel rest (c :: text) (some (rest, c :: text))
    else
      match tokenMatches c pattern with
      | some rest => matchLoop fuel rest text star
      | none =>
        match star with
        | none => false
        | some (_, []) => false
        | some (resume, _ :: starText) => matchLoop fuel resume starText (some (resume, starText))

/-- `glob_match_bytes`. Every iteration advances the text, or the star, or consumes a star of the
pattern, which bounds their number. -/
def globMatchBytes (pattern text : Bytes) : Bool :=
  if text.isEmpty then pattern.isEmpty
  else matchLoop ((text.length + 2) * (text.length + pattern.length + 2)) pattern text none

/-- The test the scans make: `*` alone matches everything, also the empty text. -/
def matchesPattern (pattern text : Bytes) : Bool := pattern == [0x2A] || globMatchBytes pattern text

-- `a*c` on `abc`, `[a-c]?` on `b1`, `\*` on `*`
example : globMatchBytes [0x61, 0x2A, 0x63] [0x61, 0x62, 0x63] = true := by decide
example : globMatchBytes [0x5B, 0x61, 0x2D, 0x63, 0x5D, 0x3F] [0x62, 0x31] = true := by decide
example : globMatchBytes [0x5C, 0x2A] [0x61] = false := by decide

end Kiwi.Glob
