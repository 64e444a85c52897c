import Rend.Bytecode

/-!
# The parser of expressions

`parser.rs` reads an expression from the tokens of the lexer by binding powers: a prefix, then operators as
long as they bind at least as tightly as the caller asks. Indexing, fields and JSON paths follow a primary;
a primary that is an identifier may be a call, a variant of an enum or a struct literal, the last only
where struct literals are allowed.

The forms that open with a token of their own (`match`, `if`, blocks, `arr`, `set`, `dict`, arrays,
`reserve`, dynamic calls and quoted literals) are read by a parameter. Spans are left out: an error carries
the position of its token. The calls of the parser nest as deep as the expression does, so the model counts
them down, and `Stop.fuel` says that the count was too small.
-/

namespace Rend.Syntax

/-- The tokens of the lexer (`token.rs`). A keyword has `Kw` after its name. -/
inductive Token
  | int (n : ℤ)
  | uint (n : ℤ)
  | float (bits : U64)
  | i32 (n : BitVec 32)
  | u32 (n : BitVec 32)
  | u64 (n : U64)
  | u128 (n : U128)
  | str (s : String)
  | ident (s : String)
  | fnKw | letKw | returnKw | ifKw | elseKw | trueKw | falseKw | importKw | stateKw | entryKw | structKw
  | groupKw | pubKw | moduleKw | emitKw | noreKw | modifierKw | enumKw | matchKw | constKw | capKw | viewKw
  | pureKw | interfaceKw
  | dollar
  | whileKw | parallelKw | forKw | inKw | breakKw | continueKw | setKw | dictKw | indexKw | uniqueIndexKw
  | ascKw | descKw | onKw | deleteKw | reserveKw | arrKw
  | lParen | rParen | lBrace | rBrace | lBracket | rBracket
  | comma | semi | colon | arrow | fatArrow | dotDot | dotDotEq | eq
  | amp | caret | shl | shr | pipeBar | dot | colonColon | pipeArrow | dollarDollar
  | plus | minus | star | slash | percent | eqEq | bangEq | lt | gt | ltEq | gtEq | ampAmp | pipePipe | bang
  | backtick
  | eof
  deriving DecidableEq

/-- The expressions (`ast::ExprKind`). The forms the parameter of the parser reads are the type `Form`. -/
inductive Expr (Form : Type)
  | int (n : ℤ)
  | uint (n : ℤ)
  | float (bits : U64)
  | i32 (n : BitVec 32)
  | u32 (n : BitVec 32)
  | u64 (n : U64)
  | u128 (n : U128)
  | bool (b : Bool)
  | str (s : String)
  | ident (name : String)
  | prev
  | unary (op : UnOp) (operand : Expr Form)
  | binary (op : BinOp) (lhs rhs : Expr Form)
  | pipe (head step : Expr Form)
  | index (target key : Expr Form)
  | field (target : Expr Form) (name : String)
  | tupleIndex (target : Expr Form) (index : U64)
  | call (module : Option String) (name : String) (args : List (Expr Form))
  | tupleLit (elems : List (Expr Form))
  | enumCtor (enumName variant : String) (args : List (Expr Form))
  | structLit (name : String) (fields : List (String × Expr Form))
  | form (f : Form)

/-! ### The cursor -/

/-- A parse error: its text and the position of the token it is about. -/
structure ParseError where
  msg : String
  pos : ℕ

/-- Why the parser stops without an expression. -/
inductive Stop
  | error (e : ParseError)
  | fuel

/-- The tokens from the cursor on, how many are before it, and whether struct literals are suppressed. -/
structure Parser where
  rest : List Token
  pos : ℕ
  noStructLiteral : Bool

/-- What does not change while an expression is read: the names the first pass over the tokens collects,
the text of a token in a message (`Debug`), and the reader of the other forms. -/
structure Context (Form : Type) where
  structNames : List String
  enumNames : List String
  debug : Token → String
  parseForm : Parser → Except Stop (Form × Parser)

namespace Parser

/-- The token at the cursor. The last one is `eof`, which the cursor does not leave. -/
def peek (p : Parser) : Token := p.rest.headD .eof

def advance (p : Parser) : Parser :=
  match p.rest with
  | _ :: t :: rest => ⟨t :: rest, p.pos + 1, p.noStructLiteral⟩
  | _ => p

/-- The parser with the flag on struct literals set. -/
def withFlag (p : Parser) (flag : Bool) : Parser := ⟨p.rest, p.pos, flag⟩

def err (p : Parser) (msg : String) : Stop := .error ⟨msg, p.pos⟩

end Parser

variable {Form : Type} (C : Context Form)

def expect (t : Token) (msg : String) (p : Parser) : Except Stop Parser :=
  if p.peek = t then .ok p.advance else .error (p.err (msg ++ " (got " ++ C.debug p.peek ++ ")"))

def expectIdent (p : Parser) : Except Stop (String × Parser) :=
  match p.peek with
  | .ident s => .ok (s, p.advance)
  | other => .error (p.err ("expected identifier, got " ++ C.debug other))

/-- The operator of a token with its binding powers to the left and to the right. -/
def infixOf : Token → Option (BinOp × ℕ × ℕ)
  | .pipePipe => some (.or, 1, 2)
  | .ampAmp => some (.and, 3, 4)
  | .eqEq => some (.eq, 5, 6)
  | .bangEq => some (.notEq, 5, 6)
  | .lt => some (.lt, 7, 8)
  | .gt => some (.gt, 7, 8)
  | .ltEq => some (.ltEq, 7, 8)
  | .gtEq => some (.gtEq, 7, 8)
  | .pipeBar => some (.bitOr, 9, 10)
  | .caret => some (.bitXor, 11, 12)
  | .amp => some (.bitAnd, 13, 14)
  | .shl => some (.shl, 15, 16)
  | .shr => some (.shr, 15, 16)
  | .plus => some (.add, 17, 18)
  | .minus => some (.sub, 17, 18)
  | .star => some (.mul, 19, 20)
  | .slash => some (.div, 19, 20)
  | .percent => some (.mod, 19, 20)
  | _ => none

/-- The index of a tuple as a machine word (`to_usize`). -/
def toUsize (n : ℤ) : Option U64 := if 0 ≤ n ∧ n.toNat < 2 ^ 64 then some (BitVec.ofNat 64 n.toNat) else none

/-- The primary of one token: a literal or the previous value (`$$`). -/
def atomOf : Token → Option (Expr Form)
  | .int i => some (.int i)
  | .uint i => some (.uint i)
  | .float bits => some (.float bits)
  | .i32 i => some (.i32 i)
  | .u32 i => some (.u32 i)
  | .u64 i => some (.u64 i)
  | .u128 i => some (.u128 i)
  | .dollarDollar => some .prev
  | .str s => some (.str s)
  | .trueKw => some (.bool true)
  | .falseKw => some (.bool false)
  | _ => none

/-- A form of its own begins with the token. -/
def opensForm : Token → Bool
  | .dollar | .backtick | .reserveKw | .arrKw | .setKw | .dictKw | .matchKw | .lBrace | .ifKw | .lBracket => true
  | _ => false

/-! ### Expressions -/

mutual

/-- Reads an expression whose operators bind at least as tightly as `minBp`. -/
def parseExprBp : ℕ → ℕ → Parser → Except Stop (Expr Form × Parser)
  | 0, _, _ => .error .fuel
  | n + 1, minBp, p => do
    let (lhs, p) ← parsePrefix n p
    infixLoop n minBp lhs p

/-- The loop of `parse_expr_bp`: a pipe or an operator, and then its right side. -/
def infixLoop : ℕ → ℕ → Expr Form → Parser → Except Stop (Expr Form × Parser)
  | 0, _, _, _ => .error .fuel
  | n + 1, minBp, lhs, p =>
    if p.peek = .pipeArrow then
      if 1 < minBp then .ok (lhs, p)
      else do
        let (rhs, p) ← parseExprBp n 2 p.advance
        infixLoop n minBp (.pipe lhs rhs) p
    else
      match infixOf p.peek with
      | none => .ok (lhs, p)
      | some (op, lbp, rbp) =>
        if lbp < minBp then .ok (lhs, p)
        else do
          let (rhs, p) ← parseExprBp n rbp p.advance
          infixLoop n minBp (.binary op lhs rhs) p

def parsePrefix : ℕ → Parser → Except Stop (Expr Form × Parser)
  | 0, _ => .error .fuel
  | n + 1, p =>
    match p.peek with
    | .minus => do
      let (operand, p) ← parsePrefix n p.advance
      .ok (.unary .neg operand, p)
    | .bang => do
      let (operand, p) ← parsePrefix n p.advance
      .ok (.unary .not operand, p)
    | _ => parsePostfix n p

def parsePostfix : ℕ → Parser → Except Stop (Expr Form × Parser)
  | 0, _ => .error .fuel
  | n + 1, p => do
    let (e, p) ← parsePrimary n p
    postfixLoop n e p

/-- The loop of `parse_postfix`: an index, a JSON path, the component of a tuple or a field. -/
def postfixLoop : ℕ → Expr Form → Parser → Except Stop (Expr Form × Parser)
  | 0, _, _ => .error .fuel
  | n + 1, e, p =>
    match p.peek with
    | .lBracket => do
      let (key, q) ← parseExprBp n 0 (p.advance.withFlag false)
      let q ← expect C .rBracket "expected ']'" (q.withFlag p.noStructLiteral)
      postfixLoop n (.index e key) q
    | .arrow =>
      match p.advance.peek with
      | .lBracket => do
        let (idx, q) ← parseExprBp n 0 p.advance.advance
        let q ← expect C .rBracket "expected ']' after JSON array index" q
        postfixLoop n (.call none "json_get_index" [e, idx]) q
      | .str s => postfixLoop n (.call none "json_get_field" [e, .str s]) p.advance.advance
      | .ident name => postfixLoop n (.call none "json_get_field" [e, .str name]) p.advance.advance
      | other => .error (p.advance.err
          ("expected ident, string literal, or '[' after '->', got " ++ C.debug other))
    | .dot =>
      match p.advance.peek with
      | .int i =>
        match toUsize i with
        | none => .error (p.advance.err "tuple index out of range or negative")
        | some idx => postfixLoop n (.tupleIndex e idx) p.advance.advance
      | _ => do
        let (name, q) ← expectIdent C p.advance
        postfixLoop n (.field e name) q
    | _ => .ok (e, p)

/-- Arguments up to the closing parenthesis, which stays at the cursor. -/
def argsLoop (msg : String) : ℕ → List (Expr Form) → Parser → Except Stop (List (Expr Form) × Parser)
  | 0, _, _ => .error .fuel
  | n + 1, args, p =>
    if p.peek = .rParen then .ok (args, p)
    else do
      let (a, p) ← parseExprBp n 0 p
      if p.peek = .rParen then argsLoop msg n (args ++ [a]) p
      else do
        let p ← expect C .comma msg p
        argsLoop msg n (args ++ [a]) p

/-- The fields of a struct literal up to the closing brace, which stays at the cursor. -/
def fieldsLoop : ℕ → List (String × Expr Form) → Parser → Except Stop (List (String × Expr Form) × Parser)
  | 0, _, _ => .error .fuel
  | n + 1, fields, p =>
    if p.peek = .rBrace then .ok (fields, p)
    else do
      let (fname, p) ← expectIdent C p
      let p ← expect C .colon "expected ':' in struct literal" p
      let (fval, p) ← parseExprBp n 0 p
      if p.peek = .rBrace then fieldsLoop n (fields ++ [(fname, fval)]) p
      else do
        let p ← expect C .comma "expected ',' between struct fields" p
        fieldsLoop n (fields ++ [(fname, fval)]) p

/-- The elements of a tuple after the first. A comma may follow the last. -/
def tupleLoop : ℕ → List (Expr Form) → Parser → Except Stop (List (Expr Form) × Parser)
  | 0, _, _ => .error .fuel
  | n + 1, elems, p =>
    if p.peek = .comma then
      if p.advance.peek = .rParen then .ok (elems, p.advance)
      else do
        let (e, p) ← parseExprBp n 0 p.advance
        tupleLoop n (elems ++ [e]) p
    else .ok (elems, p)

/-- What follows an identifier that has been read: a path, a call, a struct literal or nothing. -/
def identTail : ℕ → String → Parser → Except Stop (Expr Form × Parser)
  | 0, _, _ => .error .fuel
  | n + 1, name, p =>
    match p.peek with
    | .colonColon => do
      let (callee, p) ← expectIdent C p.advance
      if name ∈ C.enumNames then
        if p.peek = .lParen then do
          let (args, q) ← argsLoop "expected ',' between variant args" n [] (p.advance.withFlag false)
          let q ← expect C .rParen "expected ')'" q
          .ok (.enumCtor name callee args, q.withFlag p.noStructLiteral)
        else .ok (.enumCtor name callee [], p)
      else do
        let p ← expect C .lParen "expected '(' after '::name'" p
        let (args, q) ← argsLoop "expected ',' between args" n [] (p.withFlag false)
        let q ← expect C .rParen "expected ')'" q
        .ok (.call (some name) callee args, q.withFlag p.noStructLiteral)
    | .lParen => do
      let (args, q) ← argsLoop "expected ',' between args" n [] (p.withFlag false).advance
      let q ← expect C .rParen "expected ')'" q
      .ok (.call none name args, q.withFlag p.noStructLiteral)
    | .lBrace =>
      if ¬ p.noStructLiteral ∧ name ∈ C.structNames then do
        let (fields, q) ← fieldsLoop n [] (p.withFlag false).advance
        let q ← expect C .rBrace "expected '\x7d'" q
        .ok (.structLit name fields, q.withFlag p.noStructLiteral)
      else .ok (.ident name, p)
    | _ => .ok (.ident name, p)

def parsePrimary : ℕ → Parser → Except Stop (Expr Form × Parser)
  | 0, _ => .error .fuel
  | n + 1, p =>
    match atomOf p.peek with
    | some atom => .ok (atom, p.advance)
    | none =>
    match p.peek with
    | .ident name => identTail n name p.advance
    | .lParen => do
      let (first, p) ← parseExprBp n 0 p.advance
      if p.peek = .comma then do
        let (elems, p) ← tupleLoop n [first] p
        let p ← expect C .rParen "expected ')' to close tuple" p
        .ok (.tupleLit elems, p)
      else do
        let p ← expect C .rParen "expected ')'" p
        .ok (first, p)
    | other =>
      if opensForm other then do
        let (f, p) ← C.parseForm p
        .ok (.form f, p)
      else .error (p.err ("unexpected token " ++ C.debug other))

end

def parseExpr (n : ℕ) (p : Parser) : Except Stop (Expr Form × Parser) := parseExprBp C n 0 p

end Rend.Syntax
