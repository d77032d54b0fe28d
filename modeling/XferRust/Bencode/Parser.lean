import XferRust.Bencode.Value

/-! # The decoder

`Parser` walks the input by position.  Its loops over a list or a dictionary have the number of
bytes left as fuel: every round takes at least one, so a loop never runs dry before the input
does.  The nesting limit is the recursion: `levels` levels of values may still be opened, which is
`MAX_DEPTH + 1 - depth` in terms of the source's `depth`.
-/
namespace XferRust.Bencode

structure Parser where
  input : List UInt8
  pos : Nat

namespace Parser

/-- `Parser::new`. -/
def new (input : List UInt8) : Parser := ⟨input, 0⟩

def peek (p : Parser) : Option UInt8 := p.input[p.pos]?

def advance (p : Parser) (n : Nat) : Parser := { p with pos := p.pos + n }

/-- The bytes from the position on. -/
def rest (p : Parser) : List UInt8 := p.input.drop p.pos

/-- The longest run of bytes with `f` from the position on. -/
def run (p : Parser) (f : UInt8 → Bool) : List UInt8 := p.rest.takeWhile f

end Parser

/-! ## Numbers and strings -/

/-- The digits behind the sign that `str::parse` accepts. -/
def splitSign (text : List UInt8) : Bool × List UInt8 :=
  match text with
  | [] => (false, [])
  | b :: ds => if b = minus then (true, ds) else if b = plus then (false, ds) else (false, text)

/-- `str::parse::<i64>`.  On bytes that are no UTF-8 it fails as `str::from_utf8` does before. -/
def parseI64 (text : List UInt8) : Option Int64 :=
  let neg := (splitSign text).1
  let ds := (splitSign text).2
  if ds.isEmpty || !ds.all Decimal.isDigit then none
  else
    let n := Decimal.value ds
    if neg then if n ≤ 9223372036854775808 then some (Int64.ofInt (-n)) else none
    else if n < 9223372036854775808 then some (Int64.ofInt n) else none

/-- `str::parse::<u64>` of digits. -/
def parseU64 (ds : List UInt8) : Option Nat :=
  if ds.isEmpty then none
  else if Decimal.value ds < 18446744073709551616 then some (Decimal.value ds) else none

/-- No leading zero, and not `-0` or `-`. -/
def intTextValid (text : List UInt8) : Bool :=
  !text.isEmpty && !(text.head? = some zero && text.length > 1) &&
    !(text.take 2 = [minus, zero]) && !(text.head? = some minus && text.length = 1)

def notEnd (b : UInt8) : Bool := b != endTag

/-- `parse_int`. -/
def parseInt (p : Parser) : Except BencodeError (Value × Parser) :=
  let start := p.pos
  let p := p.advance 1
  let text := p.run notEnd
  let p := p.advance text.length
  if p.peek = none then .error (.unexpectedEof p.pos)
  else if !intTextValid text then .error (.invalidInteger start)
  else
    match parseI64 text with
    | none => .error (.invalidInteger start)
    | some i => .ok (.int i, p.advance 1)

/-- `parse_length`. -/
def parseLength (p : Parser) : Except BencodeError (Nat × Parser) :=
  let start := p.pos
  let text := p.run Decimal.isDigit
  let p := p.advance text.length
  match p.peek with
  | none => .error (.unexpectedEof p.pos)
  | some b =>
    if b ≠ colon then .error (.invalidLength p.pos)
    else if text.head? = some zero && text.length > 1 then .error (.invalidLength start)
    else
      match parseU64 text with
      | none => .error (.invalidLength start)
      | some len => .ok (len, p.advance 1)

/-- `parse_raw_bytes`. -/
def parseRawBytes (p : Parser) : Except BencodeError (List UInt8 × Parser) := do
  let (len, p) ← parseLength p
  if len > p.input.length - p.pos then
    .error (.lengthOverflow p.pos len (p.input.length - p.pos))
  else .ok (p.rest.take len, p.advance len)

/-! ## Lists and dictionaries -/

/-- The loop of `parse_list`, with the parser of an item. -/
def listLoop (item : Parser → Except BencodeError (Value × Parser)) :
    Nat → List Value → Parser → Except BencodeError (Value × Parser)
  | 0, _, p => .error (.unexpectedEof p.pos)
  | fuel + 1, items, p =>
    match p.peek with
    | none => .error (.unexpectedEof p.pos)
    | some b =>
      if b = endTag then .ok (.list items, p.advance 1)
      else do
        let (v, p) ← item p
        listLoop item fuel (items ++ [v]) p

/-- The loop of `parse_dict`, with the parser of a value. -/
def dictLoop (item : Parser → Except BencodeError (Value × Parser)) :
    Nat → List (Key × Value) → Parser → Except BencodeError (Value × Parser)
  | 0, _, p => .error (.unexpectedEof p.pos)
  | fuel + 1, map, p =>
    match p.peek with
    | none => .error (.unexpectedEof p.pos)
    | some b =>
      if b = endTag then .ok (.dict map, p.advance 1)
      else if Decimal.isDigit b then do
        let (key, p) ← parseRawBytes p
        let (val, p) ← item p
        dictLoop item fuel (SortedMap.insertEntry key val map) p
      else .error (.invalidToken p.pos b)

/-- `parse_value`, which is `parse_value_full` without the range. -/
def parseValue : Nat → Parser → Except BencodeError (Value × Parser)
  | 0, _ => .error (.depthLimit maxDepth)
  | levels + 1, p =>
    match p.peek with
    | none => .error (.unexpectedEof p.pos)
    | some b =>
      if b = intTag then parseInt p
      else if b = listTag then
        let p := p.advance 1
        listLoop (parseValue levels) p.rest.length [] p
      else if b = dictTag then
        let p := p.advance 1
        dictLoop (parseValue levels) p.rest.length [] p
      else if Decimal.isDigit b then do
        let (b, p) ← parseRawBytes p
        .ok (.bytes b, p)
      else .error (.invalidToken p.pos b)

/-- The levels a value at the top may open. -/
def topLevels : Nat := maxDepth + 1

/-- `decode`. -/
def decode (input : List UInt8) : Except BencodeError Value := do
  let (v, p) ← parseValue topLevels (.new input)
  if p.pos ≠ input.length then .error (.trailingData (input.length - p.pos)) else .ok v

/-- `decode_prefix`. -/
def decodePrefix (input : List UInt8) : Except BencodeError (Value × Nat) := do
  let (v, p) ← parseValue topLevels (.new input)
  .ok (v, p.pos)

/-! ## The top of a torrent -/

/-- A range of bytes, by its two ends. -/
abbrev Range := Nat × Nat

/-- `parse_value_full`. -/
def parseValueFull (levels : Nat) (p : Parser) :
    Except BencodeError ((Value × Range) × Parser) := do
  let (v, q) ← parseValue levels p
  .ok ((v, p.pos, q.pos), q)

/-- The loop of `parse_root`, with the map and the ranges. -/
def rootLoop (item : Parser → Except BencodeError ((Value × Range) × Parser)) :
    Nat → List (Key × Value) → List (Key × Range) → Parser →
    Except BencodeError ((List (Key × Value) × List (Key × Range)) × Parser)
  | 0, _, _, p => .error (.unexpectedEof p.pos)
  | fuel + 1, map, ranges, p =>
    match p.peek with
    | none => .error (.unexpectedEof p.pos)
    | some b =>
      if b = endTag then .ok ((map, ranges), p.advance 1)
      else do
        let (key, p) ← parseRawBytes p
        let ((val, range), p) ← item p
        rootLoop item fuel (SortedMap.insertEntry key val map)
          (SortedMap.insertEntry key range ranges) p

/-- `parse_root`. -/
def parseRoot (input : List UInt8) :
    Except BencodeError (List (Key × Value) × List (Key × Range)) := do
  let p := Parser.new input
  if p.peek ≠ some dictTag then .error (.invalidToken p.pos (p.peek.getD 0))
  else
    let p := p.advance 1
    let (r, p) ← rootLoop (parseValueFull maxDepth) p.rest.length [] [] p
    if p.pos ≠ input.length then .error (.trailingData (input.length - p.pos)) else .ok r

end XferRust.Bencode
