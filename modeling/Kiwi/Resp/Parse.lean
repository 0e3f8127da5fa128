import Kiwi.Bytes
import Kiwi.Lib.Streaming

/-!
# Parsing of requests

The RESP parser (`resp/parse.rs`): `parseRespData` with all types of both protocol versions, and
`RespParse`, which keeps what has not been parsed yet. The combinators are the streaming ones of
`nom`. A parse charges one unit of work for every node; the work of parses of one frame adds up
until the frame is complete.

Whether the text of a double is one for `f64` is a parameter. `encodeCommand` is the frame of a
command: an array of bulk strings.
-/

namespace Kiwi.Resp

/-- The bytes of an ASCII text. -/
def text (s : String) : Bytes := s.toList.map fun c ↦ UInt8.ofNat c.toNat

inductive RespData
  | simpleString (data : Bytes)
  | error (data : Bytes)
  | integer (n : ℤ)
  | bulkString (data : Option Bytes)
  | array (elements : Option (List RespData))
  | null
  | boolean (value : Bool)
  /-- A double, by its text. -/
  | double (data : Bytes)
  | bigNumber (data : Bytes)
  | bulkError (data : Bytes)
  | verbatimString (format data : Bytes)
  | map (pairs : List (RespData × RespData))
  | set (elements : List RespData)
  | push (elements : List RespData)

structure RespLimits where
  maxInlineLen : ℕ
  maxBulkLen : ℕ
  maxBufferLen : ℕ
  maxAggregateLen : ℕ
  maxNestingDepth : ℕ
  maxDecodedNodes : ℕ
  maxParseWork : ℕ

/-- `RespLimits::default`. -/
def RespLimits.default : RespLimits where
  maxInlineLen := 64 * 1024
  maxBulkLen := 512 * 1024 * 1024
  maxBufferLen := 1024 * 1024 * 1024
  maxAggregateLen := 2 ^ 31 - 1
  maxNestingDepth := 128
  maxDecodedNodes := 64 * 1024
  maxParseWork := 1000000

open Parser

/-- Parsers of bytes. -/
abbrev RespParser (α : Type) := Parser UInt8 α

/-! ### Lines -/

/-- `digit`. -/
def isDigit (b : UInt8) : Bool := (digitValue b).isSome

def lineEnding : RespParser PUnit
  | work, [] => (.incomplete, work)
  | work, 10 :: rest => (.ok ⟨⟩ rest, work)
  | work, [13] => (.incomplete, work)
  | work, 13 :: 10 :: rest => (.ok ⟨⟩ rest, work)
  | work, _ => (.error, work)

/-- `not_line_ending`, after the bytes `line`. -/
def notLineEndingFrom (line : Bytes) : RespParser Bytes
  | work, [] => (.incomplete, work)
  | work, 10 :: rest => (.ok line (10 :: rest), work)
  | work, [13] => (.incomplete, work)
  | work, 13 :: 10 :: rest => (.ok line (13 :: 10 :: rest), work)
  | work, 13 :: _ :: _ => (.error, work)
  | work, b :: rest => notLineEndingFrom (line ++ [b]) work rest

/-- `terminated(not_line_ending, line_ending)`. -/
def line : RespParser Bytes := do
  let data ← notLineEndingFrom []
  lineEnding
  return data

/-- `recognize((opt(char('-')), digit1))`. -/
def integerText : RespParser Bytes
  | work, 0x2D :: rest => (do
      let digits ← takeWhile1 isDigit
      return 0x2D :: digits) work rest
  | work, input => takeWhile1 isDigit work input

/-- The number that a text is, which the `map_res` of a number needs. -/
def parsedI64 (s : Bytes) : RespParser ℤ :=
  match parseI64 s with
  | none => fail
  | some n => return n

/-- The number in the rest of a line. -/
def number (digits : RespParser Bytes) : RespParser ℤ := do
  let s ← digits
  lineEnding
  parsedI64 s

def checkedLength (len : ℤ) (max : ℕ) : RespParser ℕ :=
  if len < 0 ∨ len.toNat > max then tooLarge else return len.toNat

/-- `terminated(take(len), line_ending)`. -/
def takeLine (len : ℕ) : RespParser Bytes := do
  let data ← take len
  lineEnding
  return data

/-- The part of a list of bytes before and after whitespace. -/
def splitWhitespace (part : Bytes) : Bytes → List Bytes
  | [] => [part]
  | b :: rest =>
    -- space, tab, line feed, form feed, carriage return
    if b = 32 ∨ b = 9 ∨ b = 10 ∨ b = 12 ∨ b = 13 then part :: splitWhitespace [] rest
    else splitWhitespace (part ++ [b]) rest

def checkLineLength (limits : RespLimits) : RespParser PUnit :=
  within fun input ↦ (input.takeWhile fun b ↦ b ≠ 13 ∧ b ≠ 10).length ≤ limits.maxInlineLen

/-! ### Types -/

section

variable (limits : RespLimits)

def parseInline : RespParser RespData := do
  let data ← line
  match (splitWhitespace [] data).filter fun part ↦ !part.isEmpty with
  | [] => fail
  | parts => return .array (some (parts.map fun part ↦ .bulkString (some part)))

def parseBulkString : RespParser RespData := do
  token 0x24
  let len ← number integerText
  if len < 0 then return .bulkString none
  else
    let len ← checkedLength len limits.maxBulkLen
    let data ← takeLine len
    return .bulkString (some data)

def parseBulkError : RespParser RespData := do
  token 0x21
  let len ← number integerText
  if len < 0 then return .bulkError []
  else
    let len ← checkedLength len limits.maxBulkLen
    let data ← takeLine len
    return .bulkError data

def parseVerbatimString : RespParser RespData := do
  token 0x3D
  let len ← number (takeWhile1 isDigit)
  if len < 4 then fail
  else
    let len ← checkedLength len limits.maxBulkLen
    let data ← takeLine len
    if data[3]? ≠ some 0x3A then fail
    else return .verbatimString (data.take 3) (data.drop 4)

/-- The head of `parse_array`, `parse_map`, `parse_set` and `parse_push`, and the elements after it.
-/
def parseAggregate {α : Type} (prefixByte : UInt8) (absent : RespData)
    (element : RespParser α) (present : List α → RespData) : RespParser RespData := do
  token prefixByte
  let len ← number integerText
  if len < 0 then return absent
  else
    let len ← checkedLength len limits.maxAggregateLen
    let elements ← times element len
    return present elements

def parseBoolean : RespParser RespData := do
  token 0x23
  let data ← take 1
  if data = [0x74] ∨ data = [0x66] then
    lineEnding
    return .boolean (data = [0x74])
  else fail

def parseDouble (isF64 : Bytes → Bool) : RespParser RespData := do
  token 0x2C
  let data ← line
  if isF64 data then return .double data else fail

/-- The types that hold others. `levels` says how deep the parser may still go. -/
def parseNested (levels : ℕ) (element : RespParser RespData) (b : UInt8) :
    Option (RespParser RespData) :=
  let aggregate : RespParser RespData → Option (RespParser RespData) := fun p ↦
    some (if levels = 0 then tooLarge else p)
  match b with
  | 0x2A => aggregate
      (parseAggregate limits 0x2A (.array none) element fun elements ↦ .array (some elements))
  | 0x25 => aggregate (parseAggregate limits 0x25 (.map []) (do
      let key ← element
      let value ← element
      return (key, value)) .map)
  | 0x7E => aggregate (parseAggregate limits 0x7E (.set []) element .set)
  | 0x3E => aggregate (parseAggregate limits 0x3E (.push []) element .push)
  | _ => none

/-- The types that hold no others. -/
def parseFlat (isF64 : Bytes → Bool) (b : UInt8) : RespParser RespData :=
  match b with
  | 0x2B => do
    token 0x2B
    let data ← line
    return .simpleString data
  | 0x2D => do
    token 0x2D
    let data ← line
    return .error data
  | 0x3A => do
    token 0x3A
    let n ← number integerText
    return .integer n
  | 0x24 => parseBulkString limits
  | 0x5F => do
    token 0x5F
    lineEnding
    return .null
  | 0x23 => parseBoolean
  | 0x2C => parseDouble isF64
  | 0x28 => do
    token 0x28
    let data ← line
    return .bigNumber data
  | 0x21 => parseBulkError limits
  | 0x3D => parseVerbatimString limits
  | _ => parseInline

/-- The match of `parse_resp_data`. -/
def parseTyped (isF64 : Bytes → Bool) (levels : ℕ) (element : RespParser RespData) :
    RespParser RespData
  | work, [] => (.incomplete, work)
  | work, b :: rest =>
    match parseNested limits levels element b with
    | some p => p work (b :: rest)
    | none => parseFlat limits isF64 b work (b :: rest)

/-- An empty input is incomplete. -/
def notEmpty : RespParser PUnit
  | work, [] => (.incomplete, work)
  | work, input => (.ok ⟨⟩ input, work)

/-- `parse_resp_data`, with the levels that are left and the work that is allowed. -/
def parseRespData (isF64 : Bytes → Bool) (budget : ℕ) : ℕ → RespParser RespData
  | 0 => do
    notEmpty
    checkLineLength limits
    spend budget
    parseTyped limits isF64 0 tooLarge
  | levels + 1 => do
    notEmpty
    checkLineLength limits
    spend budget
    parseTyped limits isF64 (levels + 1) (parseRespData isF64 budget levels)

end

/-! ### The parser of a connection -/

/-- `RespParse`, without what is only kept for the older interface. -/
structure RespParse where
  /-- What has arrived and is not parsed. -/
  buffer : Bytes
  /-- The work on the frame at the start of the buffer. -/
  parseWork : ℕ

inductive RespParseResult
  | complete (data : RespData)
  | incomplete
  /-- `Error`, and whether a limit is the reason. -/
  | error (limit : Bool)

def skipEmptyLines : Bytes → Bytes
  | 13 :: 10 :: rest => skipEmptyLines rest
  | 10 :: rest => skipEmptyLines rest
  | buffer => buffer

/-- `process_buffer`. The nodes of one frame and the work of all its parses are limited. -/
def processBuffer (limits : RespLimits) (isF64 : Bytes → Bool) (parser : RespParse) :
    RespParseResult × RespParse :=
  let buffer := skipEmptyLines parser.buffer
  if buffer = [] then (.incomplete, { parser with buffer := [] })
  else
    let budget := min limits.maxParseWork (parser.parseWork + limits.maxDecodedNodes)
    match parseRespData limits isF64 budget limits.maxNestingDepth parser.parseWork buffer with
    | (.ok data rest, _) => (.complete data, ⟨rest, 0⟩)
    | (.incomplete, work) => (.incomplete, ⟨buffer, work⟩)
    | (.error, work) => (.error false, ⟨buffer, work⟩)
    | (.tooLarge, work) => (.error true, ⟨buffer, work⟩)

/-- `RespParse::parse`. -/
def parse (limits : RespLimits) (isF64 : Bytes → Bool) (parser : RespParse) (data : Bytes) :
    RespParseResult × RespParse :=
  if parser.buffer.length + data.length > limits.maxBufferLen then (.error true, parser)
  else processBuffer limits isF64 { parser with buffer := parser.buffer ++ data }

/-! ### Frames of commands -/

/-- A bulk string. -/
def encodeBulk (data : Bytes) : Bytes :=
  [0x24] ++ ((formatI64 data.length ++ [13, 10]) ++ (data ++ [13, 10]))

/-- A command: an array of bulk strings. -/
def encodeCommand (argv : List Bytes) : Bytes :=
  [0x2A] ++ ((formatI64 argv.length ++ [13, 10]) ++ argv.flatMap encodeBulk)

end Kiwi.Resp
