import Mathlib.Data.List.Basic
import Mathlib.Tactic.Common

/-!
# Streaming parsers

A streaming parser is given what has arrived so far. It may find a complete item and leave the rest,
ask for more, reject the input, or stop because of a limit. It also counts its work, and the count
goes on when it is run again on more input.
-/

/-- What a streaming parser says about its input. -/
inductive Outcome (τ α : Type)
  /-- An item, and the rest of the input. -/
  | ok (a : α) (rest : List τ)
  | incomplete
  | error
  | tooLarge

/-- A streaming parser, with the work before and after it. -/
def Parser (τ α : Type) := ℕ → List τ → Outcome τ α × ℕ

namespace Parser

variable {τ α β : Type}

/-- The item `a` without input. -/
def pure (a : α) : Parser τ α := fun work input ↦ (.ok a input, work)

/-- One parser after another. -/
def bind (p : Parser τ α) (f : α → Parser τ β) : Parser τ β := fun work input ↦
  match p work input with
  | (.ok a rest, work') => f a work' rest
  | (.incomplete, work') => (.incomplete, work')
  | (.error, work') => (.error, work')
  | (.tooLarge, work') => (.tooLarge, work')

instance : Monad (Parser τ) where
  pure := pure
  bind := bind

/-- Malformed input. -/
def fail : Parser τ α := fun work _ ↦ (.error, work)

/-- A limit that was exceeded. -/
def tooLarge : Parser τ α := fun work _ ↦ (.tooLarge, work)

/-- A check of the input against a limit. -/
def within (check : List τ → Bool) : Parser τ PUnit := fun work input ↦
  if check input then (.ok ⟨⟩ input, work) else (.tooLarge, work)

/-- One more unit of work, within a limit. -/
def spend (limit : ℕ) : Parser τ PUnit := fun work input ↦
  if work + 1 > limit then (.tooLarge, work + 1) else (.ok ⟨⟩ input, work + 1)

/-- The given token. -/
def token [DecidableEq τ] (c : τ) : Parser τ PUnit
  | work, [] => (.incomplete, work)
  | work, b :: rest => if b = c then (.ok ⟨⟩ rest, work) else (.error, work)

/-- The next `n` tokens. -/
def take (n : ℕ) : Parser τ (List τ) := fun work input ↦
  if input.length < n then (.incomplete, work) else (.ok (input.take n) (input.drop n), work)

/-- At least one token with a property, up to one without it. -/
def takeWhile1 (q : τ → Bool) : Parser τ (List τ) := fun work input ↦
  if input.dropWhile q = [] then (.incomplete, work)
  else if input.takeWhile q = [] then (.error, work)
  else (.ok (input.takeWhile q) (input.dropWhile q), work)

/-- The parser, `n` times. -/
def times (p : Parser τ α) : ℕ → Parser τ (List α)
  | 0 => Pure.pure []
  | n + 1 => do
    let a ← p
    let as ← times p n
    return a :: as

end Parser
