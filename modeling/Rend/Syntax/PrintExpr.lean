import Rend.Lib.Enough
import Rend.Syntax.ParseExpr

/-!
# Printing operators with the fewest parentheses

An expression made of operators is printed with parentheses only around an operand that binds less tightly
than its place asks for: the left side of a binary operator is asked for the power of the operator, the right
side for one more, a unary operator asks for an operand that is unary or tighter, and an index or a field for
one that is tighter than that.

The parser reads back what is printed. Operands are read at three depths (after a primary, after a prefix and
inside the loop on operators); `ReadsPostfix`, `ReadsPrefix` and `ReadsAt` say what each depth does on the
tokens of an expression, whatever follows them and whatever is done with the expression next.
-/

namespace Rend.Syntax

open Lib

variable {Form : Type} {C : Context Form}

/-! ### The printer -/

/-- The token of a binary operator. -/
def opToken : BinOp → Token
  | .or => .pipePipe
  | .and => .ampAmp
  | .eq => .eqEq
  | .notEq => .bangEq
  | .lt => .lt
  | .gt => .gt
  | .ltEq => .ltEq
  | .gtEq => .gtEq
  | .bitOr => .pipeBar
  | .bitXor => .caret
  | .bitAnd => .amp
  | .shl => .shl
  | .shr => .shr
  | .add => .plus
  | .sub => .minus
  | .mul => .star
  | .div => .slash
  | .mod => .percent

def unToken : UnOp → Token
  | .neg => .minus
  | .not => .bang

/-- The binding power of an operator to the left. -/
def leftBp (op : BinOp) : ℕ := ((infixOf (opToken op)).map fun row => row.2.1).getD 0

/-- The level of a unary operator, and the one of what follows it: primaries with what is behind them. -/
def unaryLevel : ℕ := 21

def postLevel : ℕ := 23

/-- How tightly an expression binds. -/
def level : Expr Form → ℕ
  | .binary op _ _ => leftBp op
  | .pipe _ _ => 1
  | .unary _ _ => unaryLevel
  | _ => postLevel

/-- Parentheses, where they are needed. -/
def parens (needed : Bool) (ts : List Token) : List Token := if needed then .lParen :: (ts ++ [.rParen]) else ts

/-- The token of a literal. -/
def literalToken : Expr Form → Option Token
  | .int i => some (.int i)
  | .uint i => some (.uint i)
  | .float bits => some (.float bits)
  | .i32 i => some (.i32 i)
  | .u32 i => some (.u32 i)
  | .u64 i => some (.u64 i)
  | .u128 i => some (.u128 i)
  | .str s => some (.str s)
  | .bool b => some (if b then .trueKw else .falseKw)
  | _ => none

mutual

/-- The tokens of an expression. -/
def print : Expr Form → List Token
  | .ident name => [.ident name]
  | .unary op e => unToken op :: parens (level e < unaryLevel) (print e)
  | .binary op l r =>
    parens (level l < leftBp op) (print l) ++ opToken op :: parens (level r < leftBp op + 1) (print r)
  | .pipe h s => parens (level h < 1) (print h) ++ .pipeArrow :: parens (level s < 2) (print s)
  | .index e key => parens (level e < postLevel) (print e) ++ .lBracket :: (print key ++ [.rBracket])
  | .field e name => parens (level e < postLevel) (print e) ++ [.dot, .ident name]
  | .tupleIndex e i => parens (level e < postLevel) (print e) ++ [.dot, .int i.toNat]
  | .call none name args => .ident name :: .lParen :: (printArgs args ++ [.rParen])
  | .call (some m) name args => .ident m :: .colonColon :: .ident name :: .lParen :: (printArgs args ++ [.rParen])
  | e => (literalToken e).toList

/-- The tokens of arguments, with a comma between each two. -/
def printArgs : List (Expr Form) → List Token
  | [] => []
  | a :: args => print a ++ printMore args

def printMore : List (Expr Form) → List Token
  | [] => []
  | a :: args => .comma :: (print a ++ printMore args)

end

section Print

variable (e e' : Expr Form) (name : String) (args : List (Expr Form))

theorem print_ident : print (.ident name : Expr Form) = [.ident name] := rfl

theorem print_unary (op : UnOp) : print (.unary op e) = unToken op :: parens (level e < unaryLevel) (print e) := rfl

theorem print_binary (op : BinOp) : print (.binary op e e') =
    parens (level e < leftBp op) (print e) ++ opToken op :: parens (level e' < leftBp op + 1) (print e') := rfl

theorem print_pipe : print (.pipe e e') =
    parens (level e < 1) (print e) ++ .pipeArrow :: parens (level e' < 2) (print e') := rfl

theorem print_index : print (.index e e') =
    parens (level e < postLevel) (print e) ++ .lBracket :: (print e' ++ [.rBracket]) := rfl

theorem print_field : print (.field e name) =
    parens (level e < postLevel) (print e) ++ [.dot, .ident name] := rfl

theorem print_tupleIndex (i : U64) : print (.tupleIndex e i) =
    parens (level e < postLevel) (print e) ++ [.dot, .int i.toNat] := rfl

theorem print_call : print (.call none name args) =
    .ident name :: .lParen :: (printArgs args ++ [.rParen]) := rfl

theorem print_qualified (m : String) : print (.call (some m) name args) =
    .ident m :: .colonColon :: .ident name :: .lParen :: (printArgs args ++ [.rParen]) := rfl

end Print

/-- The trees the printer is for: identifiers, literals and operators. The qualifier of a call is the name of
a module; the parser takes the name of an enum for the enum of a variant. -/
inductive Operators (C : Context Form) : Expr Form → Prop
  | literal {e : Expr Form} {t : Token} (h : literalToken e = some t) : Operators C e
  | ident (name : String) : Operators C (.ident name)
  | unary (op : UnOp) {e : Expr Form} (h : Operators C e) : Operators C (.unary op e)
  | binary (op : BinOp) {l r : Expr Form} (hl : Operators C l) (hr : Operators C r) : Operators C (.binary op l r)
  | pipe {h s : Expr Form} (hh : Operators C h) (hs : Operators C s) : Operators C (.pipe h s)
  | index {e key : Expr Form} (he : Operators C e) (hk : Operators C key) : Operators C (.index e key)
  | field {e : Expr Form} (name : String) (he : Operators C e) : Operators C (.field e name)
  | tupleIndex {e : Expr Form} (i : U64) (he : Operators C e) : Operators C (.tupleIndex e i)
  | call {module : Option String} (name : String) {args : List (Expr Form)}
      (hm : ∀ m, module = some m → m ∉ C.enumNames) (ha : ∀ a ∈ args, Operators C a) :
      Operators C (.call module name args)

/-! ### What follows an expression -/

/-- The identifier an expression ends in, when it is a primary of its own. -/
def lastIdent : Expr Form → Option String
  | .ident name => some name
  | .unary _ e => if level e < unaryLevel then none else lastIdent e
  | .binary op _ r => if level r < leftBp op + 1 then none else lastIdent r
  | .pipe _ s => if level s < 2 then none else lastIdent s
  | _ => none

/-- The token would be taken for a part of the identifier's primary. -/
def ExtendsIdent (C : Context Form) (flag : Bool) (name : String) : Token → Prop
  | .lParen | .colonColon => True
  | .lBrace => flag = false ∧ name ∈ C.structNames
  | _ => False

/-- The token follows a primary. -/
def IsPost : Token → Prop
  | .lBracket | .arrow | .dot => True
  | _ => False

/-- How tightly a token binds to its left. -/
def tokenBp (t : Token) : Option ℕ := if t = .pipeArrow then some 1 else (infixOf t).map fun row => row.2.1

/-- The token goes on with the expression. -/
def Continues (C : Context Form) (flag : Bool) (e : Expr Form) (t : Token) : Prop :=
  (∃ name, lastIdent e = some name ∧ ExtendsIdent C flag name t) ∨ IsPost t ∨ (tokenBp t).isSome

/-- The token leaves the identifier an expression ends in alone. -/
def EndsBefore (C : Context Form) (flag : Bool) (last : Option String) (t : Token) : Prop :=
  ∀ name, last = some name → ¬ ExtendsIdent C flag name t

theorem endsBefore_of_ne {t : Token} (hparen : t ≠ .lParen) (hpath : t ≠ .colonColon) (hbrace : t ≠ .lBrace)
    (flag : Bool) (last : Option String) : EndsBefore C flag last t := by
  intro name _ hext
  unfold ExtendsIdent at hext
  split at hext
  · exact hparen rfl
  · exact hpath rfl
  · exact hbrace rfl
  · exact hext

@[simp] theorem infixOf_opToken (op : BinOp) : infixOf (opToken op) = some (op, leftBp op, leftBp op + 1) := by
  cases op <;> rfl

theorem leftBp_bounds (op : BinOp) : 1 ≤ leftBp op ∧ leftBp op < unaryLevel := by
  cases op <;> decide

theorem opToken_ne_pipe (op : BinOp) : opToken op ≠ .pipeArrow := by
  cases op <;> simp [opToken]

@[simp] theorem tokenBp_opToken (op : BinOp) : tokenBp (opToken op) = some (leftBp op) := by
  rw [tokenBp, if_neg (opToken_ne_pipe op), infixOf_opToken]
  rfl

theorem not_isPost_opToken (op : BinOp) : ¬ IsPost (opToken op) := by
  cases op <;> exact id

theorem endsBefore_opToken (op : BinOp) (flag : Bool) (last : Option String) :
    EndsBefore C flag last (opToken op) := by
  refine endsBefore_of_ne ?_ ?_ ?_ flag last <;> cases op <;> simp [opToken]

/-! ### The cursor on the tokens of an expression -/

@[simp] theorem peek_cons (t : Token) (rest : List Token) (pos : ℕ) (flag : Bool) :
    Parser.peek ⟨t :: rest, pos, flag⟩ = t := rfl

@[simp] theorem advance_cons (a t : Token) (rest : List Token) (pos : ℕ) (flag : Bool) :
    Parser.advance ⟨a :: t :: rest, pos, flag⟩ = ⟨t :: rest, pos + 1, flag⟩ := rfl

/-- The cursor moves on to what is behind a token. -/
theorem advance_of_ne_nil {r : List Token} (h : r ≠ []) (a : Token) (pos : ℕ) (flag : Bool) :
    Parser.advance ⟨a :: r, pos, flag⟩ = ⟨r, pos + 1, flag⟩ := by
  obtain ⟨t, rest, rfl⟩ := List.exists_cons_of_ne_nil h
  rfl

@[simp] theorem advance_append (a t : Token) (ts rest : List Token) (pos : ℕ) (flag : Bool) :
    Parser.advance ⟨a :: (ts ++ t :: rest), pos, flag⟩ = ⟨ts ++ t :: rest, pos + 1, flag⟩ :=
  advance_of_ne_nil (by simp) a pos flag

@[simp] theorem withFlag_mk (rest : List Token) (pos : ℕ) (flag flag' : Bool) :
    Parser.withFlag ⟨rest, pos, flag⟩ flag' = ⟨rest, pos, flag'⟩ := rfl

@[simp] theorem expect_cons (a t : Token) (msg : String) (rest : List Token) (pos : ℕ) (flag : Bool) :
    expect C a msg ⟨a :: t :: rest, pos, flag⟩ = .ok ⟨t :: rest, pos + 1, flag⟩ := by
  simp [expect]

/-! ### The loops stop -/

theorem postfixLoop_stop {t : Token} (ht : ¬ IsPost t) (e : Expr Form) (rest : List Token) (pos : ℕ) (flag : Bool) :
    Enough (fun n => postfixLoop C n e ⟨t :: rest, pos, flag⟩) (e, ⟨t :: rest, pos, flag⟩) := by
  refine .done fun n => ?_
  rw [postfixLoop, peek_cons]
  split
  · exact absurd trivial ht
  · exact absurd trivial ht
  · exact absurd trivial ht
  · rfl

theorem infixLoop_stop {t : Token} {minBp : ℕ} (ht : ∀ b, tokenBp t = some b → b < minBp) (e : Expr Form)
    (rest : List Token) (pos : ℕ) (flag : Bool) :
    Enough (fun n => infixLoop C n minBp e ⟨t :: rest, pos, flag⟩) (e, ⟨t :: rest, pos, flag⟩) := by
  refine .done fun n => ?_
  rw [infixLoop, peek_cons]
  by_cases hpipe : t = .pipeArrow
  · rw [if_pos hpipe, if_pos (ht 1 (if_pos hpipe))]
  · rw [if_neg hpipe]
    cases hop : infixOf t with
    | none => rfl
    | some row =>
      have hlt := ht row.2.1 (by rw [tokenBp, if_neg hpipe, hop]; rfl)
      exact if_pos hlt

/-! ### Reading at each depth -/

/-- After the tokens, the loop of `parse_postfix` goes on with the expression. -/
def ReadsPostfix (C : Context Form) (ts : List Token) (e : Expr Form) (last : Option String) : Prop :=
  ∀ (rest : List Token) (pos : ℕ) ⦃t flag x⦄, EndsBefore C flag last t →
    Enough (fun n => postfixLoop C n e ⟨t :: rest, pos + ts.length, flag⟩) x →
    Enough (fun n => parsePostfix C n ⟨ts ++ t :: rest, pos, flag⟩) x

/-- The tokens are an operand of a unary operator. -/
def ReadsPrefix (C : Context Form) (ts : List Token) (e : Expr Form) (last : Option String) : Prop :=
  ∀ (rest : List Token) (pos : ℕ) ⦃t flag⦄, EndsBefore C flag last t → ¬ IsPost t →
    Enough (fun n => parsePrefix C n ⟨ts ++ t :: rest, pos, flag⟩) (e, ⟨t :: rest, pos + ts.length, flag⟩)

/-- After the tokens, the loop on operators goes on with the expression, when it is asked for nothing tighter
and what follows does not bind tighter either. -/
def ReadsAt (C : Context Form) (L : ℕ) (ts : List Token) (e : Expr Form) (last : Option String) : Prop :=
  ∀ (rest : List Token) (pos : ℕ) ⦃minBp t flag x⦄, minBp ≤ L → EndsBefore C flag last t → ¬ IsPost t →
    (∀ b, tokenBp t = some b → b ≤ L) →
    Enough (fun n => infixLoop C n minBp e ⟨t :: rest, pos + ts.length, flag⟩) x →
    Enough (fun n => parseExprBp C n minBp ⟨ts ++ t :: rest, pos, flag⟩) x

/-- The tokens of an expression of a level are read at each depth the level allows. -/
structure Reads (C : Context Form) (L : ℕ) (ts : List Token) (e : Expr Form) (last : Option String) : Prop where
  afterPrimary : postLevel ≤ L → ReadsPostfix C ts e last
  afterUnary : unaryLevel ≤ L → ReadsPrefix C ts e last
  inLoop : ReadsAt C L ts e last

/-- An operand of a unary operator is an operand of any operator. -/
theorem ReadsPrefix.readsAt {ts : List Token} {e : Expr Form} {last : Option String} (h : ReadsPrefix C ts e last)
    (L : ℕ) : ReadsAt C L ts e last := by
  intro rest pos minBp t flag x _ hend hpost _ hx
  refine (h rest pos hend hpost).next hx fun n hn => ?_
  rw [parseExprBp, hn]
  rfl

/-- The tokens of an expression of a level do not begin as what closes arguments, nor as a unary operator
unless the level allows it. -/
def Opens (L : ℕ) (ts : List Token) : Prop :=
  ∃ a ts', ts = a :: ts' ∧ a ≠ .rParen ∧ (postLevel ≤ L → a ≠ .minus ∧ a ≠ .bang)

theorem Opens.append {L : ℕ} {ts : List Token} (h : Opens L ts) (ts' : List Token) : Opens L (ts ++ ts') := by
  obtain ⟨a, tail, rfl, ha⟩ := h
  exact ⟨a, tail ++ ts', rfl, ha⟩

/-- A primary with what is behind it is an operand of a unary operator. -/
theorem ReadsPostfix.readsPrefix {ts : List Token} {e : Expr Form} {last : Option String}
    (h : ReadsPostfix C ts e last) (hopen : Opens postLevel ts) : ReadsPrefix C ts e last := by
  obtain ⟨a, ts, rfl, -, hunary⟩ := hopen
  obtain ⟨hminus, hbang⟩ := hunary le_rfl
  intro rest pos t flag hend hpost
  refine .call (fun n => ?_) (h rest pos hend (postfixLoop_stop hpost _ _ _ _))
  rw [parsePrefix, List.cons_append, peek_cons]
  split
  · exact absurd rfl hminus
  · exact absurd rfl hbang
  · rfl

theorem Reads.of_post {ts : List Token} {e : Expr Form} {last : Option String}
    (h : ReadsPostfix C ts e last) (hopen : Opens postLevel ts) : Reads C postLevel ts e last :=
  ⟨fun _ => h, fun _ => h.readsPrefix hopen, (h.readsPrefix hopen).readsAt _⟩

theorem Reads.of_unary {ts : List Token} {e : Expr Form} {last : Option String} (h : ReadsPrefix C ts e last) :
    Reads C unaryLevel ts e last :=
  ⟨fun hle => absurd hle (by decide), fun _ => h, h.readsAt _⟩

theorem Reads.of_loop {L : ℕ} {ts : List Token} {e : Expr Form} {last : Option String} (h : ReadsAt C L ts e last)
    (hL : L < unaryLevel) : Reads C L ts e last :=
  ⟨fun hle => absurd (hle.trans_lt hL) (by decide), fun hle => absurd hL (not_lt.mpr hle), h⟩

/-- The whole of an operand, before a token that does not go on with it. -/
theorem Reads.whole {L minBp : ℕ} {ts : List Token} {e : Expr Form} {last : Option String} (h : Reads C L ts e last)
    (hle : minBp ≤ L) {t : Token} {flag : Bool} (hend : EndsBefore C flag last t) (hpost : ¬ IsPost t)
    (hbp : ∀ b, tokenBp t = some b → b < minBp) (rest : List Token) (pos : ℕ) :
    Enough (fun n => parseExprBp C n minBp ⟨ts ++ t :: rest, pos, flag⟩) (e, ⟨t :: rest, pos + ts.length, flag⟩) :=
  h.inLoop rest pos hle hend hpost (fun b hb => (hbp b hb).le.trans hle) (infixLoop_stop hbp _ _ _ _)

/-- A token that ends an expression between brackets. -/
def Closer (t : Token) : Prop := t = .rParen ∨ t = .rBracket ∨ t = .comma

theorem Reads.enclosed {L : ℕ} {ts : List Token} {e : Expr Form} {last : Option String} (h : Reads C L ts e last)
    {t : Token} (ht : Closer t) (rest : List Token) (pos : ℕ) (flag : Bool) :
    Enough (fun n => parseExprBp C n 0 ⟨ts ++ t :: rest, pos, flag⟩) (e, ⟨t :: rest, pos + ts.length, flag⟩) := by
  refine h.whole (Nat.zero_le L) ?_ ?_ ?_ rest pos
  · refine endsBefore_of_ne ?_ ?_ ?_ flag last <;> rcases ht with rfl | rfl | rfl <;> simp
  · rcases ht with rfl | rfl | rfl <;> exact id
  · rcases ht with rfl | rfl | rfl <;> simp [tokenBp, infixOf]

/-- A primary, which what is behind it goes on with. -/
theorem readsPostfix_of_primary {ts : List Token} {e : Expr Form} {last : Option String}
    (h : ∀ (rest : List Token) (pos : ℕ) ⦃t flag⦄, EndsBefore C flag last t →
      Enough (fun n => parsePrimary C n ⟨ts ++ t :: rest, pos, flag⟩) (e, ⟨t :: rest, pos + ts.length, flag⟩)) :
    ReadsPostfix C ts e last := by
  intro rest pos t flag x hend hx
  refine (h rest pos hend).next hx fun n hn => ?_
  rw [parsePostfix, hn]
  rfl

/-! ### Parentheses -/

theorem opens_paren (L : ℕ) (ts : List Token) : Opens L (.lParen :: ts) :=
  ⟨_, _, rfl, by simp, fun _ => ⟨by simp, by simp⟩⟩

theorem Opens.operand {e : Expr Form} (h : Opens (level e) (print e)) (m : ℕ) :
    Opens m (parens (level e < m) (print e)) := by
  by_cases hlt : level e < m
  · simpa [parens, hlt] using opens_paren m _
  · obtain ⟨a, ts, heq, hne, hunary⟩ := h
    refine ⟨a, ts, ?_, hne, fun hm => hunary (hm.trans (not_lt.mp hlt))⟩
    simp [parens, hlt, heq]

/-- An expression in parentheses is a primary. -/
theorem Reads.parenthesised {L : ℕ} {ts : List Token} {e : Expr Form} {last : Option String}
    (h : Reads C L ts e last) : Reads C postLevel (.lParen :: (ts ++ [.rParen])) e none := by
  refine .of_post (readsPostfix_of_primary fun rest pos t flag _ => ?_) (opens_paren _ _)
  refine (h.enclosed (.inl rfl) (t :: rest) (pos + 1) flag).last fun n hn => ?_
  have hpos : pos + (Token.lParen :: (ts ++ [.rParen])).length = pos + 1 + ts.length + 1 := by
    simp
    omega
  have hatom : (atomOf .lParen : Option (Expr Form)) = none := rfl
  rw [List.cons_append, List.append_assoc, List.singleton_append, parsePrimary, peek_cons, hpos, hatom]
  simp [hn, bind, Except.bind]

/-- An operand that is asked to bind as tightly as `m` is read at a level that does. -/
theorem Reads.operand {e : Expr Form} (h : Reads C (level e) (print e) e (lastIdent e)) {m : ℕ} (hm : m ≤ postLevel) :
    ∃ L, m ≤ L ∧
      Reads C L (parens (level e < m) (print e)) e (if level e < m then none else lastIdent e) := by
  by_cases hlt : level e < m
  · refine ⟨postLevel, hm, ?_⟩
    simpa [parens, hlt] using h.parenthesised
  · refine ⟨level e, not_lt.mp hlt, ?_⟩
    simpa [parens, hlt] using h

/-! ### Each form -/

theorem atomOf_of_literal {e : Expr Form} {t : Token} (h : literalToken e = some t) : atomOf t = some e := by
  unfold literalToken at h
  split at h <;> cases h
  case h_9 b => cases b <;> rfl
  all_goals rfl

theorem print_literal {e : Expr Form} {t : Token} (h : literalToken e = some t) :
    print e = [t] ∧ level e = postLevel ∧ lastIdent e = none := by
  unfold literalToken at h
  split at h <;> cases h <;> exact ⟨rfl, rfl, rfl⟩

theorem literal_opens {e : Expr Form} {t : Token} (h : literalToken e = some t) (L : ℕ) : Opens L [t] := by
  refine ⟨t, [], rfl, ?_, fun _ => ⟨?_, ?_⟩⟩ <;> rintro rfl <;> cases atomOf_of_literal h

theorem literal_reads {e : Expr Form} {t : Token} (h : literalToken e = some t) :
    Reads C (level e) (print e) e (lastIdent e) := by
  obtain ⟨hprint, hlevel, hlast⟩ := print_literal h
  rw [hprint, hlevel, hlast]
  refine .of_post (readsPostfix_of_primary fun rest pos t' flag _ => .done fun n => ?_) (literal_opens h _)
  rw [List.singleton_append, parsePrimary, peek_cons, atomOf_of_literal h]
  rfl

/-- An identifier that what follows leaves alone. -/
theorem ident_reads (name : String) : Reads C postLevel [.ident name] (.ident name) (some name) := by
  refine .of_post (readsPostfix_of_primary fun rest pos t flag hend => ?_) ⟨_, _, rfl, by simp, by simp⟩
  refine .call (g := fun n => identTail C n name ⟨t :: rest, pos + 1, flag⟩) (fun n => ?_) (.done fun n => ?_)
  · have hatom : (atomOf (.ident name) : Option (Expr Form)) = none := rfl
    rw [List.singleton_append, parsePrimary, peek_cons, hatom]
    rfl
  · have hstop := hend name rfl
    rw [identTail, peek_cons]
    split
    · exact absurd trivial hstop
    · exact absurd trivial hstop
    · exact if_neg fun hstruct => hstop ⟨by simpa using hstruct.1, hstruct.2⟩
    · rfl

/-- A unary operator before what is read as its operand. -/
theorem readsPrefix_unary (op : UnOp) {ts : List Token} {e : Expr Form} {last : Option String}
    (h : ReadsPrefix C ts e last) : ReadsPrefix C (unToken op :: ts) (.unary op e) last := by
  intro rest pos t flag hend hpost
  refine (h rest (pos + 1) hend hpost).last fun n hn => ?_
  have hpos : pos + (unToken op :: ts).length = pos + 1 + ts.length := by
    simp
    omega
  rw [List.cons_append, parsePrefix, peek_cons, hpos]
  cases op <;> simp [unToken, hn, bind, Except.bind]

theorem unary_reads (op : UnOp) {e : Expr Form} (h : Reads C (level e) (print e) e (lastIdent e)) :
    Reads C unaryLevel (print (.unary op e)) (.unary op e) (lastIdent (.unary op e)) := by
  obtain ⟨L, hL, hoperand⟩ := h.operand (m := unaryLevel) (by decide)
  rw [print_unary, lastIdent]
  exact .of_unary (readsPrefix_unary op (hoperand.afterUnary hL))

/-- One turn of the loop on operators: what stands at the cursor is `sep`, an operator or a pipe that binds as
tightly as `b`, and the expression is the left side of `node`. -/
theorem reads_operator {b : ℕ} {sep : Token} {node : Expr Form → Expr Form → Expr Form}
    (hturn : ∀ {n minBp : ℕ} {lhs rhs : Expr Form} {p p' : Parser}, p.peek = sep → minBp ≤ b →
      parseExprBp C n (b + 1) p.advance = .ok (rhs, p') →
        infixLoop C (n + 1) minBp lhs p = infixLoop C n minBp (node lhs rhs) p')
    (hsep : ∀ flag last, EndsBefore C flag last sep) (hpost : ¬ IsPost sep) (hbp : tokenBp sep = some b)
    {l r : Expr Form} {tsl tsr : List Token} {Ll Lr : ℕ} {lastl last : Option String} (hl : Reads C Ll tsl l lastl)
    (hr : Reads C Lr tsr r last) (hLl : b ≤ Ll) (hLr : b + 1 ≤ Lr) :
    ReadsAt C b (tsl ++ sep :: tsr) (node l r) last := by
  intro rest pos minBp t flag x hmin hend htpost htbp hx
  have hpos : pos + (tsl ++ sep :: tsr).length = pos + tsl.length + 1 + tsr.length := by
    simp
    omega
  rw [hpos] at hx
  rw [List.append_assoc, List.cons_append]
  refine hl.inLoop _ pos (hmin.trans hLl) (hsep flag lastl) hpost (fun b' hb' => ?_) ?_
  · rw [hbp] at hb'
    exact Option.some.inj hb' ▸ hLl
  · have hright := hr.whole hLr hend htpost (fun b' hb' => Nat.lt_succ_of_le (htbp b' hb')) rest (pos + tsl.length + 1)
    refine hright.next hx fun n hn => hturn rfl hmin ?_
    rw [advance_append]
    exact hn

theorem binary_reads (op : BinOp) {l r : Expr Form} (hl : Reads C (level l) (print l) l (lastIdent l))
    (hr : Reads C (level r) (print r) r (lastIdent r)) :
    Reads C (leftBp op) (print (.binary op l r)) (.binary op l r) (lastIdent (.binary op l r)) := by
  obtain ⟨hone, hlt⟩ := leftBp_bounds op
  have hle : leftBp op + 1 ≤ postLevel := Nat.le_trans hlt (by decide)
  obtain ⟨Ll, hLl, hleft⟩ := hl.operand (Nat.le_of_succ_le hle)
  obtain ⟨Lr, hLr, hright⟩ := hr.operand hle
  rw [print_binary, lastIdent]
  refine .of_loop (reads_operator (fun hpeek hmin hn => ?_) (fun flag last => endsBefore_opToken op flag last)
    (not_isPost_opToken op) (tokenBp_opToken op) hleft hright hLl hLr) hlt
  rw [infixLoop, hpeek, if_neg (opToken_ne_pipe op), infixOf_opToken]
  dsimp only
  rw [if_neg (not_lt.mpr hmin), hn]
  rfl

theorem pipe_reads {h s : Expr Form} (hh : Reads C (level h) (print h) h (lastIdent h))
    (hs : Reads C (level s) (print s) s (lastIdent s)) :
    Reads C 1 (print (.pipe h s)) (.pipe h s) (lastIdent (.pipe h s)) := by
  obtain ⟨Ll, hLl, hleft⟩ := hh.operand (m := 1) (by decide)
  obtain ⟨Lr, hLr, hright⟩ := hs.operand (m := 2) (by decide)
  rw [print_pipe, lastIdent]
  refine .of_loop (reads_operator (fun hpeek hmin hn => ?_) (fun flag last => ?_) id rfl hleft hright hLl hLr) (by decide)
  · rw [infixLoop, hpeek, if_pos rfl, if_neg (not_lt.mpr hmin), hn]
    rfl
  · exact endsBefore_of_ne (by simp) (by simp) (by simp) flag last

/-- What stands behind a primary: the tokens that begin with `sep` make `e` into `node`. -/
theorem reads_post {sep : Token} {ts tail : List Token} {e node : Expr Form} {L : ℕ} {last : Option String}
    (h : Reads C L ts e last) (hL : postLevel ≤ L) (hsep : ∀ flag last, EndsBefore C flag last sep)
    (hopen : Opens postLevel ts)
    (hturn : ∀ (rest : List Token) (pos : ℕ) ⦃t flag x⦄,
      Enough (fun n => postfixLoop C n node ⟨t :: rest, pos + (sep :: tail).length, flag⟩) x →
        Enough (fun n => postfixLoop C n e ⟨sep :: (tail ++ t :: rest), pos, flag⟩) x) :
    Reads C postLevel (ts ++ sep :: tail) node none := by
  refine .of_post (fun rest pos t flag x _ hx => ?_) (hopen.append _)
  rw [List.append_assoc, List.cons_append]
  refine h.afterPrimary hL _ pos (hsep flag last) (hturn rest _ ?_)
  rwa [Nat.add_assoc, ← List.length_append]

theorem index_reads {e key : Expr Form} (he : Reads C (level e) (print e) e (lastIdent e))
    (hopen : Opens (level e) (print e)) (hk : Reads C (level key) (print key) key (lastIdent key)) :
    Reads C postLevel (print (.index e key)) (.index e key) none := by
  obtain ⟨L, hL, htarget⟩ := he.operand (m := postLevel) le_rfl
  rw [print_index]
  refine reads_post htarget hL (fun flag last => ?_) (hopen.operand _) fun rest pos t flag x hx => ?_
  · exact endsBefore_of_ne (by simp) (by simp) (by simp) flag last
  · have hpos : pos + (Token.lBracket :: (print key ++ [.rBracket])).length = pos + 1 + (print key).length + 1 := by
      simp
      omega
    rw [hpos] at hx
    refine (hk.enclosed (.inr (.inl rfl)) (t :: rest) (pos + 1) false).next hx fun n hn => ?_
    rw [List.append_assoc, List.singleton_append, postfixLoop, peek_cons]
    simp [hn, bind, Except.bind]

theorem field_reads {e : Expr Form} (name : String) (he : Reads C (level e) (print e) e (lastIdent e))
    (hopen : Opens (level e) (print e)) :
    Reads C postLevel (print (.field e name)) (.field e name) none := by
  obtain ⟨L, hL, htarget⟩ := he.operand (m := postLevel) le_rfl
  rw [print_field]
  refine reads_post htarget hL (fun flag last => ?_) (hopen.operand _) fun rest pos t flag x hx => ?_
  · exact endsBefore_of_ne (by simp) (by simp) (by simp) flag last
  · refine .call (fun n => ?_) hx
    rw [List.singleton_append, postfixLoop, peek_cons]
    simp [expectIdent, bind, Except.bind]

theorem toUsize_toNat (i : U64) : toUsize i.toNat = some i := by
  rw [toUsize, Int.toNat_natCast, if_pos ⟨Int.natCast_nonneg _, i.isLt⟩, BitVec.ofNat_toNat, BitVec.setWidth_eq]

theorem tupleIndex_reads {e : Expr Form} (i : U64) (he : Reads C (level e) (print e) e (lastIdent e))
    (hopen : Opens (level e) (print e)) :
    Reads C postLevel (print (.tupleIndex e i)) (.tupleIndex e i) none := by
  obtain ⟨L, hL, htarget⟩ := he.operand (m := postLevel) le_rfl
  rw [print_tupleIndex]
  refine reads_post htarget hL (fun flag last => ?_) (hopen.operand _) fun rest pos t flag x hx => ?_
  · exact endsBefore_of_ne (by simp) (by simp) (by simp) flag last
  · refine .call (fun n => ?_) hx
    rw [List.singleton_append, postfixLoop, peek_cons]
    simp [toUsize_toNat]

/-! ### Calls -/

/-- The loop on arguments, from an argument on. -/
theorem argsLoop_more (msg : String) {args : List (Expr Form)}
    (hargs : ∀ a ∈ args, Reads C (level a) (print a) a (lastIdent a) ∧ Opens (level a) (print a))
    (a : Expr Form) (ha : Reads C (level a) (print a) a (lastIdent a) ∧ Opens (level a) (print a))
    (acc : List (Expr Form)) (t : Token) (rest : List Token) (pos : ℕ) (flag : Bool) :
    Enough (fun n => argsLoop C msg n acc ⟨print a ++ (printMore args ++ .rParen :: t :: rest), pos, flag⟩)
      (acc ++ a :: args, ⟨.rParen :: t :: rest, pos + (print a ++ printMore args).length, flag⟩) := by
  induction args generalizing a acc pos with
  | nil =>
    obtain ⟨hread, b, ts, hb, hne, -⟩ := ha
    have hstop : Enough (fun n => argsLoop C msg n (acc ++ [a]) ⟨.rParen :: t :: rest, pos + (print a).length, flag⟩)
        (acc ++ [a], ⟨.rParen :: t :: rest, pos + (print a).length, flag⟩) := .done fun n => by simp [argsLoop]
    rw [printMore, List.nil_append, List.append_nil]
    refine (hread.enclosed (.inl rfl) (t :: rest) pos flag).next hstop fun n hn => ?_
    have hpeek : Parser.peek ⟨print a ++ .rParen :: t :: rest, pos, flag⟩ = b := by rw [hb]; rfl
    rw [argsLoop, hpeek, if_neg hne, hn]
    simp [bind, Except.bind]
  | cons a' args ih =>
    obtain ⟨hread, b, ts, hb, hne, -⟩ := ha
    have hmore := ih (fun x hx => hargs x (List.mem_cons_of_mem _ hx)) a' (hargs a' List.mem_cons_self) (acc ++ [a])
      (pos + (print a).length + 1)
    have hpos : pos + (print a).length + 1 + (print a' ++ printMore args).length =
        pos + (print a ++ printMore (a' :: args)).length := by
      simp [printMore]
      omega
    rw [hpos, List.append_assoc, List.singleton_append] at hmore
    refine (hread.enclosed (.inr (.inr rfl)) (print a' ++ (printMore args ++ .rParen :: t :: rest)) pos flag).next
      hmore fun n hn => ?_
    have hpeek : Parser.peek ⟨print a ++ (printMore (a' :: args) ++ .rParen :: t :: rest), pos, flag⟩ = b := by
      rw [hb]
      rfl
    rw [argsLoop, hpeek, if_neg hne, printMore, List.cons_append, List.append_assoc, hn]
    have hadvance := advance_of_ne_nil (r := print a' ++ (printMore args ++ .rParen :: t :: rest)) (by simp) .comma
      (pos + (print a).length) flag
    simp [expect, bind, Except.bind, hadvance]

theorem argsLoop_reads (msg : String) {args : List (Expr Form)}
    (hargs : ∀ a ∈ args, Reads C (level a) (print a) a (lastIdent a) ∧ Opens (level a) (print a))
    (t : Token) (rest : List Token) (pos : ℕ) (flag : Bool) :
    Enough (fun n => argsLoop C msg n [] ⟨printArgs args ++ .rParen :: t :: rest, pos, flag⟩)
      (args, ⟨.rParen :: t :: rest, pos + (printArgs args).length, flag⟩) := by
  cases args with
  | nil =>
    rw [printArgs]
    exact .done fun n => by simp [argsLoop]
  | cons a args =>
    rw [printArgs, List.append_assoc]
    exact argsLoop_more msg (fun x hx => hargs x (List.mem_cons_of_mem _ hx)) a (hargs a List.mem_cons_self) [] t rest
      pos flag

/-- A call, when its qualifier is not the name of an enum. -/
theorem call_reads {module : Option String} (name : String) {args : List (Expr Form)}
    (hm : ∀ m, module = some m → m ∉ C.enumNames)
    (hargs : ∀ a ∈ args, Reads C (level a) (print a) a (lastIdent a) ∧ Opens (level a) (print a)) :
    Reads C postLevel (print (.call module name args)) (.call module name args) none := by
  cases module with
  | none =>
    rw [print_call]
    refine .of_post (readsPostfix_of_primary fun rest pos t flag _ => ?_) ⟨_, _, rfl, by simp, by simp⟩
    have hpos : pos + (Token.ident name :: .lParen :: (printArgs args ++ [.rParen])).length =
        pos + 1 + 1 + (printArgs args).length + 1 := by
      simp
      omega
    rw [hpos]
    refine .call (g := fun n => identTail C n name
      ⟨.lParen :: (printArgs args ++ .rParen :: t :: rest), pos + 1, flag⟩) (fun n => ?_) ?_
    · have hatom : (atomOf (.ident name) : Option (Expr Form)) = none := rfl
      rw [List.cons_append, List.cons_append, List.append_assoc, parsePrimary, peek_cons, hatom]
      rfl
    · refine (argsLoop_reads "expected ',' between args" hargs t rest (pos + 1 + 1) false).last fun n hn => ?_
      rw [identTail, peek_cons]
      simp [hn, bind, Except.bind]
  | some m =>
    rw [print_qualified]
    refine .of_post (readsPostfix_of_primary fun rest pos t flag _ => ?_) ⟨_, _, rfl, by simp, by simp⟩
    have hpos : pos + (Token.ident m :: .colonColon :: .ident name :: .lParen :: (printArgs args ++ [.rParen])).length =
        pos + 1 + 1 + 1 + 1 + (printArgs args).length + 1 := by
      simp
      omega
    rw [hpos]
    refine .call (g := fun n => identTail C n m
      ⟨.colonColon :: .ident name :: .lParen :: (printArgs args ++ .rParen :: t :: rest), pos + 1, flag⟩)
      (fun n => ?_) ?_
    · have hatom : (atomOf (.ident m) : Option (Expr Form)) = none := rfl
      rw [List.cons_append, List.cons_append, List.cons_append, List.cons_append, List.append_assoc, parsePrimary,
        peek_cons, hatom]
      rfl
    · refine (argsLoop_reads "expected ',' between args" hargs t rest (pos + 1 + 1 + 1 + 1) false).last fun n hn => ?_
      rw [identTail, peek_cons]
      simp [expectIdent, expect, hm m rfl, hn, bind, Except.bind]

/-! ### The round trip -/

theorem print_opens {e : Expr Form} (h : Operators C e) : Opens (level e) (print e) := by
  induction h with
  | literal h =>
    rw [(print_literal h).1]
    exact literal_opens h _
  | ident name => exact ⟨_, _, print_ident name, by simp, by simp⟩
  | unary op _ _ =>
    rw [print_unary]
    refine ⟨_, _, rfl, ?_, fun hle => absurd hle (by simp [level, unaryLevel, postLevel])⟩
    cases op <;> simp [unToken]
  | binary op _ _ ihl _ =>
    rw [print_binary]
    obtain ⟨a, ts, heq, hne, _⟩ := (ihl.operand (leftBp op)).append _
    refine ⟨a, ts, heq, hne, fun hle => absurd hle ?_⟩
    have hlt := (leftBp_bounds op).2
    simp only [level, unaryLevel, postLevel] at hlt ⊢
    omega
  | pipe _ _ ihh _ =>
    rw [print_pipe]
    obtain ⟨a, ts, heq, hne, _⟩ := (ihh.operand 1).append _
    exact ⟨a, ts, heq, hne, fun hle => absurd hle (by simp [level, postLevel])⟩
  | index _ _ ihe _ =>
    rw [print_index]
    exact (ihe.operand postLevel).append _
  | field _ _ ihe =>
    rw [print_field]
    exact (ihe.operand postLevel).append _
  | tupleIndex _ _ ihe =>
    rw [print_tupleIndex]
    exact (ihe.operand postLevel).append _
  | @call module name args _ _ _ =>
    cases module with
    | none => exact ⟨_, _, print_call name args, by simp, by simp⟩
    | some m => exact ⟨_, _, print_qualified name args m, by simp, by simp⟩

/-- **The parser reads each form back** at the depths of its level. -/
theorem print_reads {e : Expr Form} (h : Operators C e) : Reads C (level e) (print e) e (lastIdent e) := by
  induction h with
  | literal h => exact literal_reads h
  | ident name =>
    rw [print_ident, lastIdent]
    exact ident_reads name
  | unary op _ ih => exact unary_reads op ih
  | binary op _ _ ihl ihr => exact binary_reads op ihl ihr
  | pipe _ _ ihh ihs => exact pipe_reads ihh ihs
  | index he _ ihe ihk => exact index_reads ihe (print_opens he) ihk
  | field name he ihe => exact field_reads name ihe (print_opens he)
  | tupleIndex i he ihe => exact tupleIndex_reads i ihe (print_opens he)
  | call name hm ha ih => exact call_reads name hm fun a hmem => ⟨ih a hmem, print_opens (ha a hmem)⟩

/-- **Parsing is the inverse of printing.** On the tokens of an expression made of operators, before a token
that does not go on with it, the parser gives that expression and stops right behind it. -/
theorem parseExpr_print {e : Expr Form} (h : Operators C e) {t : Token} {flag : Bool} (ht : ¬ Continues C flag e t)
    (rest : List Token) (pos : ℕ) :
    Enough (fun n => parseExpr C n ⟨print e ++ t :: rest, pos, flag⟩)
      (e, ⟨t :: rest, pos + (print e).length, flag⟩) := by
  refine (print_reads h).whole (Nat.zero_le _) (fun name hlast hext => ?_) (fun hpost => ?_) (fun b hb => ?_) rest pos
  · exact ht (.inl ⟨name, hlast, hext⟩)
  · exact ht (.inr (.inl hpost))
  · exact absurd (.inr (.inr (by rw [hb]; rfl))) ht

/-- The names of a module that declares one enum. -/
def oneEnum : Context Unit where
  structNames := []
  enumNames := ["Shape"]
  debug := fun _ => ""
  parseForm := fun p => .error (p.err "")

/-- `(a + -b) * c(x.0)` before the end of the tokens. -/
theorem parseExpr_print_product :
    let product : Expr Unit := .binary .mul (.binary .add (.ident "a") (.unary .neg (.ident "b")))
      (.call none "c" [.tupleIndex (.ident "x") 0#64])
    Enough (fun n => parseExpr oneEnum n ⟨print product ++ [.eof], 0, false⟩)
      (product, ⟨[.eof], 0 + (print product).length, false⟩) := by
  intro product
  have hproduct : Operators oneEnum product :=
    .binary _ (.binary _ (.ident _) (.unary _ (.ident _))) (.call _ (by simp) (by
      simp only [List.mem_singleton, forall_eq]
      exact .tupleIndex _ (.ident _)))
  refine parseExpr_print hproduct ?_ [] 0
  rintro (⟨name, hlast, -⟩ | hpost | hbp)
  · cases hlast
  · exact hpost
  · cases hbp

/-- A qualified call is read as a variant when the qualifier is an enum. -/
theorem variant_of_call :
    let area : Expr Unit := .call (some "Shape") "area" []
    ¬ Enough (fun n => parseExpr oneEnum n ⟨print area ++ [.eof], 0, false⟩)
      (area, ⟨[.eof], 0 + (print area).length, false⟩) := by
  intro area hcall
  have hvariant : Enough (fun n => parseExpr oneEnum n ⟨print area ++ [.eof], 0, false⟩)
      (.enumCtor "Shape" "area" [], ⟨[.eof], 5, false⟩) := by
    refine ⟨6, fun n hn => ?_⟩
    obtain ⟨m, rfl⟩ := Nat.exists_eq_add_of_le' hn
    rfl
  have heq := congrArg Prod.fst (hcall.unique hvariant)
  exact absurd heq (by simp [area])

end Rend.Syntax
