import Rend.Bytecode
import Rend.Json.Text
import Rend.Syntax.ParseExpr

/-!
# The lexer

`tokenize` cuts a source text into tokens with their places (`lexer.rs`). Whitespace and comments are skipped;
then the first character says what kind of token begins, and each kind is read by a function of its own from the
characters that are left. Places count bytes.
-/

namespace Rend.Syntax

open Lib
open JsonText (FloatText charDebug)

/-- A token and its place in the source. -/
structure Spanned where
  token : Token
  span : Span
  deriving DecidableEq

/-- An error of the lexer: its text and what it is about. -/
structure LexError where
  msg : String
  span : Span
  deriving DecidableEq

/-- Why the lexer stops without tokens. -/
inductive LexStop
  | error (e : LexError)
  | fuel
  deriving DecidableEq

/-- The number of bytes of a text. -/
def byteLen (cs : List Char) : ℕ := (cs.map Char.utf8Size).sum

/-- The first byte of a character. -/
def leadByte (c : Char) : Byte := ((String.utf8EncodeChar c).headD 0).toBitVec

/-- What reads a token gives the token and the characters behind it, or a message and the characters at which it
has stopped. -/
abbrev Lexed : Type := Except (String × List Char) (Token × List Char)

/-! ### Whitespace and comments -/

def isWs (c : Char) : Bool := c = ' ' || c = '\t' || c = '\n' || c = '\r'

/-- Skips to the next token, from inside a comment or from outside. -/
def skip : Bool → List Char → List Char
  | _, [] => []
  | true, c :: cs => if c = '\n' then skip false cs else skip true cs
  | false, c :: cs =>
    if isWs c then skip false cs
    else if c = '/' ∧ cs.head? = some '/' then skip true cs
    else c :: cs

def skipWsAndComments (cs : List Char) : List Char := skip false cs

/-! ### Operators -/

/-- The longer operator if the second character follows. -/
def twoOrOne (second : Char) (both single : Token) (cs : List Char) : Token × List Char :=
  if cs.head? = some second then (both, cs.tail) else (single, cs)

/-- The operator that begins with a character. -/
def lexOperator (c : Char) (cs : List Char) : Option (Token × List Char) :=
  match c with
  | '(' => some (.lParen, cs)
  | ')' => some (.rParen, cs)
  | '\x7b' => some (.lBrace, cs)
  | '\x7d' => some (.rBrace, cs)
  | '[' => some (.lBracket, cs)
  | ']' => some (.rBracket, cs)
  | ',' => some (.comma, cs)
  | ';' => some (.semi, cs)
  | ':' => some (twoOrOne ':' .colonColon .colon cs)
  | '.' =>
    if cs.head? = some '.' then some (twoOrOne '=' .dotDotEq .dotDot cs.tail)
    else some (.dot, cs)
  | '+' => some (.plus, cs)
  | '-' => some (twoOrOne '>' .arrow .minus cs)
  | '*' => some (.star, cs)
  | '/' => some (.slash, cs)
  | '%' => some (.percent, cs)
  | '=' =>
    if cs.head? = some '=' then some (.eqEq, cs.tail)
    else if cs.head? = some '>' then some (.fatArrow, cs.tail)
    else some (.eq, cs)
  | '!' => some (twoOrOne '=' .bangEq .bang cs)
  | '<' =>
    if cs.head? = some '=' then some (.ltEq, cs.tail)
    else if cs.head? = some '<' then some (.shl, cs.tail)
    else some (.lt, cs)
  | '>' =>
    if cs.head? = some '=' then some (.gtEq, cs.tail)
    else if cs.head? = some '>' then some (.shr, cs.tail)
    else some (.gt, cs)
  | '&' => some (twoOrOne '&' .ampAmp .amp cs)
  | '^' => some (.caret, cs)
  | '`' => some (.backtick, cs)
  | '|' =>
    if cs.head? = some '|' then some (.pipePipe, cs.tail)
    else if cs.head? = some '>' then some (.pipeArrow, cs.tail)
    else some (.pipeBar, cs)
  | '$' => some (twoOrOne '$' .dollarDollar .dollar cs)
  | _ => none

/-! ### Strings -/

/-- The character an escape stands for. -/
def unescape : Char → Option Char
  | '"' => some '"'
  | '\\' => some '\\'
  | 'n' => some '\n'
  | 't' => some '\t'
  | 'r' => some '\r'
  | '0' => some '\x00'
  | _ => none

/-- Reads a string up to its closing quote; `s` is what has been read. -/
def lexString (s : List Char) : List Char → Lexed
  | [] => .error ("unterminated string literal", [])
  | c :: cs =>
    if c = '"' then .ok (.str (String.ofList s), cs)
    else if c = '\\' then
      match cs with
      | [] => .error ("string ended after backslash", [])
      | d :: cs =>
        match unescape d with
        | some e => lexString (s ++ [e]) cs
        | none => .error ("unknown escape \\" ++ String.singleton (Char.ofNat (leadByte d).toNat), d :: cs)
    else lexString (s ++ [c]) cs

/-! ### Numbers -/

/-- The literal of some digits with a suffix. -/
def suffixed (digits suffix : List Char) : Except String Token :=
  let n := Nat.ofDigitChars 10 digits 0
  let invalid (kind : String) : String := "invalid " ++ kind ++ " literal '" ++ String.ofList digits ++ "'"
  match String.ofList suffix with
  | "" | "i64" => .ok (.int n)
  | "u" => .ok (.uint n)
  | "i32" => if n < 2 ^ 31 then .ok (.i32 (BitVec.ofNat 32 n)) else .error (invalid "i32")
  | "u32" => if n < 2 ^ 32 then .ok (.u32 (BitVec.ofNat 32 n)) else .error (invalid "u32")
  | "u64" => if n < 2 ^ 64 then .ok (.u64 (BitVec.ofNat 64 n)) else .error (invalid "u64")
  | "u128" => if n < 2 ^ 128 then .ok (.u128 (BitVec.ofNat 128 n)) else .error (invalid "u128")
  | other => .error ("unknown integer suffix '" ++ other ++ "'")

def isExp (c : Char) : Bool := c = 'e' || c = 'E'

def isSign (c : Char) : Bool := c = '+' || c = '-'

/-- The digits behind a point. -/
def sawDot (cs : List Char) : Bool := cs.head? = some '.' && cs.tail.head?.any Char.isDigit

/-- What is behind the fraction of a float. -/
def skipFraction (cs : List Char) : List Char := if sawDot cs then cs.tail.dropWhile Char.isDigit else cs

def skipSign (cs : List Char) : List Char := if cs.head?.any isSign then cs.tail else cs

/-- The digits of an exponent. -/
def skipDigits (cs : List Char) : Except (String × List Char) (List Char) :=
  if cs.head?.any Char.isDigit then .ok (cs.dropWhile Char.isDigit)
  else .error ("expected digits in float exponent", cs)

/-- What is behind the exponent of a float, or where its digits are missing. -/
def skipExponent (cs : List Char) : Except (String × List Char) (List Char) :=
  if cs.head?.any isExp then skipDigits (skipSign cs.tail) else .ok cs

/-- Reads a float on from behind its first digits. -/
def lexFloat (F : FloatText) (cs tail : List Char) : Lexed :=
  match skipExponent (skipFraction tail) with
  | .error e => .error e
  | .ok rest =>
    let text := cs.take (cs.length - rest.length)
    match F.read (text.map JsonText.ascii) with
    | some bits => .ok (.float bits, rest)
    | none => .error ("invalid float literal '" ++ String.ofList text ++ "'", rest)

/-- Reads an integer on from behind its digits. -/
def lexSuffix (digits tail : List Char) : Lexed :=
  match suffixed digits (tail.takeWhile Char.isAlphanum) with
  | .ok t => .ok (t, tail.dropWhile Char.isAlphanum)
  | .error msg => .error (msg, tail.dropWhile Char.isAlphanum)

/-- Reads a number; the flag says that a point stands before it. -/
def lexInt (F : FloatText) (afterDot : Bool) (cs : List Char) : Lexed :=
  let tail := cs.dropWhile Char.isDigit
  if ¬ afterDot ∧ (sawDot tail ∨ tail.head?.any isExp) then lexFloat F cs tail
  else lexSuffix (cs.takeWhile Char.isDigit) tail

/-! ### Names -/

def keywords : List (String × Token) :=
  [("fn", .fnKw), ("let", .letKw), ("if", .ifKw), ("else", .elseKw), ("return", .returnKw), ("true", .trueKw),
    ("false", .falseKw), ("import", .importKw), ("state", .stateKw), ("entry", .entryKw), ("struct", .structKw),
    ("group", .groupKw), ("module", .moduleKw), ("pub", .pubKw), ("emit", .emitKw), ("nore", .noreKw),
    ("modifier", .modifierKw), ("enum", .enumKw), ("match", .matchKw), ("const", .constKw), ("cap", .capKw),
    ("view", .viewKw), ("pure", .pureKw), ("interface", .interfaceKw), ("while", .whileKw),
    ("parallel", .parallelKw), ("for", .forKw), ("in", .inKw), ("break", .breakKw), ("continue", .continueKw),
    ("set", .setKw), ("dict", .dictKw), ("index", .indexKw), ("unique_index", .uniqueIndexKw), ("ASC", .ascKw),
    ("DESC", .descKw), ("on", .onKw), ("delete", .deleteKw), ("reserve", .reserveKw), ("arr", .arrKw)]

def isWordStart (c : Char) : Bool := c.isAlpha || c = '_'

def isWordChar (c : Char) : Bool := c.isAlphanum || c = '_'

/-- The token of a word. -/
def wordToken (s : String) : Token := (keywords.lookup s).getD (.ident s)

def lexIdent (cs : List Char) : Token × List Char :=
  (wordToken (String.ofList (cs.takeWhile isWordChar)), cs.dropWhile isWordChar)

/-! ### The loop -/

/-- The characters that have been read and those that have not. -/
structure Lexer where
  done : List Char
  rest : List Char

namespace Lexer

def pos (l : Lexer) : ℕ := byteLen l.done

/-- The lexer moved on to a later place. -/
def move (l : Lexer) (rest : List Char) : Lexer := ⟨l.done ++ l.rest.take (l.rest.length - rest.length), rest⟩

end Lexer

/-- Reads one token, whose first character is given. An error has the number of bytes it is about. -/
def lexToken (F : FloatText) (afterDot : Bool) (c : Char) (cs : List Char) :
    Except (String × ℕ) (Token × List Char) :=
  let about (e : String × List Char) : String × ℕ := (e.1, byteLen (c :: cs) - byteLen e.2)
  match lexOperator c cs with
  | some r => .ok r
  | none =>
    if c = '"' then (lexString [] cs).mapError about
    else if c.isDigit then (lexInt F afterDot (c :: cs)).mapError about
    else if isWordStart c then .ok (lexIdent (c :: cs))
    else .error ("unexpected character " ++ charDebug (leadByte c), 1)

/-- The loop of `tokenize`. -/
def tokenizeFrom (F : FloatText) : ℕ → Lexer → Except LexStop (List Spanned)
  | 0, _ => .error .fuel
  | n + 1, l =>
    let l := l.move (skipWsAndComments l.rest)
    match l.rest with
    | [] => .ok [⟨.eof, ⟨l.pos, l.pos⟩⟩]
    | c :: cs =>
      match lexToken F (l.done.getLast? = some '.') c cs with
      | .error (msg, width) => .error (.error ⟨msg, ⟨l.pos, l.pos + width⟩⟩)
      | .ok (t, rest) => do
        let out ← tokenizeFrom F n (l.move rest)
        .ok (⟨t, ⟨l.pos, (l.move rest).pos⟩⟩ :: out)

/-- Each token takes a character at least. -/
def tokenize (F : FloatText) (src : List Char) : Except LexStop (List Spanned) :=
  tokenizeFrom F (src.length + 1) ⟨[], src⟩

end Rend.Syntax
