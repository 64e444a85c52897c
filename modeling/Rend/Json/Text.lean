import Rend.Serialize

/-!
# The text form of JSON values

`writeCanonicalValue` renders a value as JSON text and `parse` reads a text back, byte by byte
(`json.rs`). The writer is given as the characters it appends, the reader as functions of the bytes it has
read and of those it has not.

How a float is printed and read is a parameter. The nesting of the reader is bounded by a number that is
counted down at each call; `Stop.fuel` says that it was too small.
-/

namespace Rend.JsonText

open Lib

/-- How `f64` is printed and read (`Display` and `FromStr`). -/
structure FloatText where
  display : U64 → List Char
  read : Bytes → Option U64

/-- Neither infinite nor a NaN (`is_finite`). -/
def isFinite (bits : U64) : Bool := bits >>> 52 &&& 0x7ff#64 ≠ 0x7ff#64

/-! ### The writer -/

/-- A number in lower-case hexadecimal, at least four digits long (`04x`). -/
def hex4 (n : ℕ) : List Char :=
  List.replicate (4 - (Nat.toDigits 16 n).length) '0' ++ Nat.toDigits 16 n

/-- One character of a string literal. -/
def escape (c : Char) : List Char :=
  if c = '"' then ['\\', '"']
  else if c = '\\' then ['\\', '\\']
  else if c = '\n' then ['\\', 'n']
  else if c = '\r' then ['\\', 'r']
  else if c = '\t' then ['\\', 't']
  else if c.toNat < 0x20 then ['\\', 'u'] ++ hex4 c.toNat
  else [c]

def writeString (s : String) : List Char := '"' :: s.toList.flatMap escape ++ ['"']

def writeInt (n : ℤ) : List Char := (toString n).toList

def writeFloat (F : FloatText) (bits : U64) : List Char :=
  if isFinite bits then
    let s := F.display bits
    if '.' ∈ s ∨ 'e' ∈ s ∨ 'E' ∈ s then s else s ++ ['.', '0']
  else "null".toList

mutual

/-- What `write_canonical_value` appends for a value. -/
def writeCanonicalValue (F : FloatText) : Value → List Char
  | .bool b => if b then "true".toList else "false".toList
  | .int n => writeInt n
  | .uint n => writeInt n
  | .float bits => writeFloat F bits
  | .str s => writeString s
  | .json j => writeCanonicalJson F j
  | _ => "null".toList
  termination_by structural x => x

def writeCanonicalJson (F : FloatText) : Json → List Char
  | .null => "null".toList
  | .array [] => ['[', ']']
  | .array (v :: vs) => '[' :: (writeCanonicalValue F v ++ writeItems F vs ++ [']'])
  | .object [] => ['{', '}']
  | .object ((k, v) :: fs) =>
    '{' :: (writeString k ++ ':' :: writeCanonicalValue F v ++ writeFields F fs ++ ['}'])
  termination_by structural x => x

/-- The items of an array after the first. -/
def writeItems (F : FloatText) : List Value → List Char
  | [] => []
  | v :: vs => ',' :: (writeCanonicalValue F v ++ writeItems F vs)
  termination_by structural x => x

/-- The fields of an object after the first. -/
def writeFields (F : FloatText) : List (String × Value) → List Char
  | [] => []
  | (k, v) :: fs => ',' :: (writeString k ++ ':' :: writeCanonicalValue F v ++ writeFields F fs)
  termination_by structural x => x

end

/-- The canonical text of a value. -/
def canonicalText (F : FloatText) (v : Value) : String := String.ofList (writeCanonicalValue F v)

/-! ### The reader -/

/-- A parse error: its text and the position it is found at. -/
structure ParseError where
  msg : String
  pos : ℕ

/-- Why the reader stops without a value. -/
inductive Stop
  | error (e : ParseError)
  | fuel

/-- The bytes that have been read and those that have not. -/
structure Parser where
  done : Bytes
  rest : Bytes

/-- The code of an ASCII character. -/
def ascii (c : Char) : Byte := BitVec.ofNat 8 c.toNat

/-- A byte as a character in a message (`Debug` of `char`). -/
def charDebug (b : Byte) : String :=
  let shown :=
    if b = 0#8 then "\\0"
    else if b = ascii '\t' then "\\t"
    else if b = ascii '\r' then "\\r"
    else if b = ascii '\n' then "\\n"
    else if b = ascii '\'' then "\\'"
    else if b = ascii '\\' then "\\\\"
    else if b < 0x20#8 ∨ 0x7f#8 ≤ b ∧ b ≤ 0xa0#8 ∨ b = 0xad#8 then
      "\\u\x7b" ++ String.ofList (Nat.toDigits 16 b.toNat) ++ "\x7d"
    else String.singleton (Char.ofNat b.toNat)
  "'" ++ shown ++ "'"

namespace Parser

def pos (p : Parser) : ℕ := p.done.length

def peek (p : Parser) : Option Byte := p.rest.head?

def advance (p : Parser) : Option Byte × Parser :=
  match p.rest with
  | [] => (none, p)
  | b :: rest => (some b, ⟨p.done ++ [b], rest⟩)

def err (p : Parser) (msg : String) : Stop := .error ⟨msg, p.pos⟩

/-- Advances over the bytes that satisfy a test. -/
def skipWhile (q : Byte → Bool) (done : Bytes) : Bytes → Parser
  | [] => ⟨done, []⟩
  | b :: rest => if q b then skipWhile q (done ++ [b]) rest else ⟨done, b :: rest⟩

def isWs (b : Byte) : Bool := b = ascii ' ' ∨ b = ascii '\t' ∨ b = ascii '\n' ∨ b = ascii '\r'

def skipWs (p : Parser) : Parser := skipWhile isWs p.done p.rest

/-- `is_ascii_digit` -/
def isDigit (b : Byte) : Bool := ascii '0' ≤ b ∧ b ≤ ascii '9'

def skipDigits (p : Parser) : Parser := skipWhile isDigit p.done p.rest

end Parser

/-- The bytes of a literal, one after the other. -/
def expectAll (lit : String) : Bytes → Parser → Except Stop Parser
  | [], p => .ok p
  | c :: cs, p =>
    let (b, p) := p.advance
    if b ≠ some c then .error (p.err ("expected literal '" ++ lit ++ "'")) else expectAll lit cs p

def parseLit (lit : String) (value : Value) (p : Parser) : Except Stop (Value × Parser) := do
  let p ← expectAll lit (strBytes lit) p
  return (value, p)

/-! ### Strings -/

/-- `char::from_u32` -/
def charFromU32 (n : ℕ) : Option Char :=
  if n < 0xd800 ∨ 0xdfff < n ∧ n < 0x110000 then some (Char.ofNat n) else none

def hexVal (b : Byte) : Option ℕ :=
  if ascii '0' ≤ b ∧ b ≤ ascii '9' then some (b.toNat - (ascii '0').toNat)
  else if ascii 'a' ≤ b ∧ b ≤ ascii 'f' then some (b.toNat - (ascii 'a').toNat + 10)
  else if ascii 'A' ≤ b ∧ b ≤ ascii 'F' then some (b.toNat - (ascii 'A').toNat + 10)
  else none

/-- The hexadecimal digits of an escape. -/
def hexDigits : ℕ → ℕ → Parser → Except Stop (ℕ × Parser)
  | 0, hex, p => .ok (hex, p)
  | n + 1, hex, p =>
    match p.advance with
    | (none, p) => .error (p.err "incomplete \\u escape")
    | (some b, p) =>
      match hexVal b with
      | none => .error (p.err "invalid \\u hex digit")
      | some v => hexDigits n (hex <<< 4 ||| v) p

def unicodeEscape (p : Parser) : Except Stop (Char × Parser) := do
  let (hex, p) ← hexDigits 4 0 p
  match charFromU32 hex with
  | none => .error (p.err "invalid \\u code point (surrogate pairs unsupported)")
  | some c => return (c, p)

/-- What follows a backslash. -/
def parseEscape (p : Parser) : Except Stop (Char × Parser) :=
  match p.advance with
  | (none, p) => .error (p.err "incomplete escape")
  | (some b, p) =>
    if b = ascii '"' then .ok ('"', p)
    else if b = ascii '\\' then .ok ('\\', p)
    else if b = ascii '/' then .ok ('/', p)
    else if b = ascii 'n' then .ok ('\n', p)
    else if b = ascii 'r' then .ok ('\r', p)
    else if b = ascii 't' then .ok ('\t', p)
    else if b = ascii 'b' then .ok ('\x08', p)
    else if b = ascii 'f' then .ok ('\x0c', p)
    else if b = ascii 'u' then unicodeEscape p
    else .error (p.err ("invalid escape \\" ++ charDebug b))

def utf8Len (first : Byte) : ℕ :=
  if first < 0x80#8 then 1
  else if first < 0xc0#8 then 1
  else if first < 0xe0#8 then 2
  else if first < 0xf0#8 then 3
  else 4

def advanceN : ℕ → Parser → Except Stop Parser
  | 0, p => .ok p
  | n + 1, p =>
    match p.advance with
    | (none, p) => .error (p.err "incomplete UTF-8")
    | (some _, p) => advanceN n p

/-- The loop of `parse_string`. The first argument bounds the number of its turns. -/
def stringLoop : ℕ → Parser → String → Except Stop (String × Parser)
  | 0, _, _ => .error .fuel
  | n + 1, p, out =>
    match p.advance with
    | (none, q) => .error (q.err "unterminated string")
    | (some b, q) =>
      if b = ascii '"' then .ok (out, q)
      else if b = ascii '\\' then do
        let (c, q) ← parseEscape q
        stringLoop n q (out.push c)
      else if b < 0x20#8 then .error (q.err "control character in string")
      else do
        let q ← advanceN (utf8Len b - 1) q
        match strOfBytes (q.done.drop p.pos) with
        | none => .error (q.err "invalid UTF-8")
        | some s => stringLoop n q (out ++ s)

def parseString (p : Parser) : Except Stop (String × Parser) :=
  let (b, p) := p.advance
  if b ≠ some (ascii '"') then .error (p.err "expected '\"'") else stringLoop (p.rest.length + 1) p ""

/-! ### Numbers -/

/-- The number a list of decimal digits denotes. -/
def digitsVal (bs : Bytes) : ℕ := bs.foldl (fun acc b => 10 * acc + (b.toNat - (ascii '0').toNat)) 0

/-- `BigInt::from_str` on an optional minus sign and digits. -/
def readInt (bs : Bytes) : Option ℤ :=
  let digits := if bs.head? = some (ascii '-') then bs.tail else bs
  if digits = [] ∨ !digits.all Parser.isDigit then none
  else if bs.head? = some (ascii '-') then some (-(digitsVal digits : ℤ))
  else some (digitsVal digits)

/-- The fraction of a number, if there is one. -/
def skipFraction (p : Parser) : Except Stop (Bool × Parser) :=
  if p.peek = some (ascii '.') then
    let frac := p.advance.2
    let p := frac.skipDigits
    if frac.pos = p.pos then .error (p.err "expected digits after '.'") else .ok (true, p)
  else .ok (false, p)

/-- The exponent of a number, if there is one. -/
def skipExponent (p : Parser) : Except Stop (Bool × Parser) :=
  if p.peek = some (ascii 'e') ∨ p.peek = some (ascii 'E') then
    let p := p.advance.2
    let exp := if p.peek = some (ascii '+') ∨ p.peek = some (ascii '-') then p.advance.2 else p
    let p := exp.skipDigits
    if exp.pos = p.pos then .error (p.err "expected digits in exponent") else .ok (true, p)
  else .ok (false, p)

def parseNumber (F : FloatText) (p : Parser) : Except Stop (Value × Parser) :=
  let int := if p.peek = some (ascii '-') then p.advance.2 else p
  let q := int.skipDigits
  if int.pos = q.pos then .error (q.err "expected digits") else do
    let (isFraction, q) ← skipFraction q
    let (isExponent, q) ← skipExponent q
    let s := q.done.drop p.pos
    match strOfBytes s with
    | none => .error (q.err "invalid number")
    | some _ =>
      if isFraction || isExponent then
        match F.read s with
        | none => .error (q.err "invalid float literal")
        | some f => return (.float f, q)
      else
        match readInt s with
        | none => .error (q.err "invalid integer literal")
        | some n => return (.int n, q)

/-! ### Values -/

def parseArray (loop : Parser → List Value → Except Stop (Json × Parser)) (p : Parser) :
    Except Stop (Json × Parser) :=
  let p := p.advance.2.skipWs
  if p.peek = some (ascii ']') then .ok (.array [], p.advance.2) else loop p []

def parseObject (loop : Parser → List (String × Value) → Except Stop (Json × Parser)) (p : Parser) :
    Except Stop (Json × Parser) :=
  let p := p.advance.2.skipWs
  if p.peek = some (ascii '}') then .ok (.object [], p.advance.2) else loop p []

mutual

def parseValue (F : FloatText) : ℕ → Parser → Except Stop (Value × Parser)
  | 0, _ => .error .fuel
  | n + 1, p =>
    let p := p.skipWs
    match p.peek with
    | none => .error (p.err "unexpected end of input")
    | some b =>
      if b = ascii 'n' then parseLit "null" (.json .null) p
      else if b = ascii 't' then parseLit "true" (.bool true) p
      else if b = ascii 'f' then parseLit "false" (.bool false) p
      else if b = ascii '"' then do
        let (s, p) ← parseString p
        return (.str s, p)
      else if b = ascii '[' then do
        let (j, p) ← parseArray (arrayLoop F n) p
        return (.json j, p)
      else if b = ascii '{' then do
        let (j, p) ← parseObject (objectLoop F n) p
        return (.json j, p)
      else if b = ascii '-' ∨ Parser.isDigit b then parseNumber F p
      else .error (p.err ("unexpected byte " ++ toString b.toNat))
  termination_by structural n => n

/-- The loop of `parse_array`. -/
def arrayLoop (F : FloatText) : ℕ → Parser → List Value → Except Stop (Json × Parser)
  | 0, _, _ => .error .fuel
  | n + 1, p, items => do
    let (v, p) ← parseValue F n p
    match p.skipWs.advance with
    | (none, p) => .error (p.err "unterminated array")
    | (some b, p) =>
      if b = ascii ',' then arrayLoop F n p.skipWs (items ++ [v])
      else if b = ascii ']' then return (.array (items ++ [v]), p)
      else .error (p.err ("expected ',' or ']' in array, got " ++ charDebug b))
  termination_by structural n => n

/-- The loop of `parse_object`. -/
def objectLoop (F : FloatText) : ℕ → Parser → List (String × Value) → Except Stop (Json × Parser)
  | 0, _, _ => .error .fuel
  | n + 1, p, map => do
    let (key, p) ← parseString p.skipWs
    let (colon, p) := p.skipWs.advance
    if colon ≠ some (ascii ':') then .error (p.err "expected ':' after object key") else
      let (value, p) ← parseValue F n p.skipWs
      match p.skipWs.advance with
      | (none, p) => .error (p.err "unterminated object")
      | (some b, p) =>
        if b = ascii ',' then objectLoop F n p (indexInsert map key value)
        else if b = ascii '}' then return (.object (indexInsert map key value), p)
        else .error (p.err ("expected ',' or '\x7d' in object, got " ++ charDebug b))
  termination_by structural n => n

end

/-- Reads a whole text. -/
def parse (F : FloatText) (s : String) : Except Stop Value := do
  let bytes := strBytes s
  let p : Parser := ⟨[], bytes⟩
  let (v, p) ← parseValue F (2 * bytes.length + 1) p.skipWs
  let p := p.skipWs
  if p.pos ≠ bytes.length then .error (p.err ("unexpected trailing data at " ++ toString p.pos)) else return v

end Rend.JsonText
