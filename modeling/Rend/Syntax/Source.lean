import Rend.Syntax.Layout
import Rend.Syntax.PrintExpr

/-!
# From an expression to its source text and back

The tokens of an expression are written with a space behind each; the lexer and then the parser give the
expression again (`parse_source`). An error of the lexer is about a range inside the text (`tokenize_error`).
-/

namespace Rend.Syntax

open Lib
open JsonText (FloatText)

variable {F : FloatText}

/-! ### Writing tokens -/

/-- One character of a string literal. -/
def quoted (c : Char) : List Char := if c = '"' ∨ c = '\\' then ['\\', c] else [c]

/-- The text of a keyword or of an operator. -/
def tableText (t : Token) : List Char :=
  ((keywords.find? fun row => row.2 = t).map fun row => row.1.toList).getD (operatorText t)

def spell (F : FloatText) : Token → List Char
  | .int n => Nat.toDigits 10 n.toNat
  | .uint n => Nat.toDigits 10 n.toNat ++ ['u']
  | .float bits => F.display bits
  | .i32 n => Nat.toDigits 10 n.toNat ++ ['i', '3', '2']
  | .u32 n => Nat.toDigits 10 n.toNat ++ ['u', '3', '2']
  | .u64 n => Nat.toDigits 10 n.toNat ++ ['u', '6', '4']
  | .u128 n => Nat.toDigits 10 n.toNat ++ ['u', '1', '2', '8']
  | .str s => '"' :: (s.toList.flatMap quoted ++ ['"'])
  | .ident s => s.toList
  | t => tableText t

/-- The text of the tokens, with a space behind each. -/
def render (F : FloatText) (ts : List Token) : List Char := ts.flatMap fun t => spell F t ++ [' ']

/-- The float is printed as a literal that is read back. -/
def FloatLiteral (F : FloatText) (bits : U64) : Prop :=
  ∃ whole frac exp, Digits whole ∧ Fraction frac ∧ Exponent exp ∧ (frac = [] → exp ≠ []) ∧
    F.display bits = whole ++ frac ++ exp ∧ F.read ((whole ++ frac ++ exp).map JsonText.ascii) = some bits

/-- The token has a spelling: a number has no sign, and a name is no keyword. -/
def Writable (F : FloatText) : Token → Prop
  | .int n | .uint n => 0 ≤ n
  | .float bits => FloatLiteral F bits
  | .i32 n => n.toNat < 2 ^ 31
  | .ident s => ∃ c cs, s.toList = c :: cs ∧ isWordStart c ∧ (∀ d ∈ cs, isWordChar d) ∧ keywords.lookup s = none
  | .eof => False
  | _ => True

/-! ### What is written is a spelling -/

theorem escapes_quoted (s : List Char) : Escapes (s.flatMap quoted) s := by
  induction s with
  | nil => exact .nil
  | cons c s ih =>
    rw [List.flatMap_cons, quoted]
    split_ifs with hc
    · exact .escape (by rcases hc with rfl | rfl <;> rfl) ih
    · exact .plain (fun h => hc (.inl h)) (fun h => hc (.inr h)) ih

theorem digits_toDigits (n : ℕ) : Digits (Nat.toDigits 10 n) :=
  ⟨Nat.toDigits_ne_nil, fun _ hc => Nat.isDigit_of_mem_toDigits (by decide) (by decide) hc⟩

section Spell

variable {afterDot : Bool} {rest : List Char} {t : Token}

theorem lexeme_number {n : ℕ} {suffix : List Char} (ht : suffixed (Nat.toDigits 10 n) suffix = .ok t) :
    Lexeme F afterDot t (Nat.toDigits 10 n ++ suffix) (' ' :: rest) :=
  .int (digits_toDigits n) ht (by simp) fun _ _ => by simp [sawDot]

theorem lexeme_keyword {s : String} (h : (s, t) ∈ keywords) : Lexeme F afterDot t s.toList (' ' :: rest) := by
  have hall : ∀ row ∈ keywords, row.1.toList.head?.any isWordStart ∧ row.1.toList.tail.all isWordChar ∧
      wordToken row.1 = row.2 := by
    decide +kernel
  obtain ⟨hfirst, hevery, ht⟩ := hall _ h
  obtain ⟨c, hhead, hc⟩ := (Option.any_eq_true _ _).mp hfirst
  have hcs : ∀ d ∈ s.toList.tail, isWordChar d := List.all_eq_true.mp hevery
  have hcons : s.toList = c :: s.toList.tail := (List.cons_head?_tail hhead).symm
  have hlex : Lexeme F afterDot (wordToken (String.ofList (c :: s.toList.tail))) (c :: s.toList.tail) (' ' :: rest) :=
    .word hc hcs (show ¬ isWordChar ' ' by decide)
  rwa [← hcons, String.ofList_toList, show wordToken s = t from ht] at hlex

theorem lexeme_operator {text : List Char} (h : (text, t) ∈ operators) : Lexeme F afterDot t text (' ' :: rest) := by
  have hall : ∀ row ∈ operators, ' ' ∉ follows row.1 := by decide
  refine .operator h (longest_of_follows fun f hf hspace => hall _ h ?_) fun _ => by simp
  rwa [Option.some.inj hspace]

theorem lexeme_table (h : (keywords.find? fun row => row.2 = t).isSome ∨
    (keywords.find? fun row => row.2 = t) = none ∧ (operatorText t, t) ∈ operators) :
    Lexeme F afterDot t (tableText t) (' ' :: rest) := by
  unfold tableText
  rcases h with h | ⟨hnone, h⟩
  · obtain ⟨row, hrow⟩ := Option.isSome_iff_exists.mp h
    have ht : row.2 = t := by simpa using List.find?_some hrow
    rw [hrow]
    exact lexeme_keyword (ht ▸ List.mem_of_find?_eq_some hrow)
  · rw [hnone]
    exact lexeme_operator h

theorem suffixed_plain (digits : List Char) : suffixed digits [] = .ok (.int (Nat.ofDigitChars 10 digits 0)) := rfl

theorem suffixed_u (digits : List Char) : suffixed digits ['u'] = .ok (.uint (Nat.ofDigitChars 10 digits 0)) := rfl

theorem suffixed_i32 {n : BitVec 32} (h : n.toNat < 2 ^ 31) :
    suffixed (Nat.toDigits 10 n.toNat) ['i', '3', '2'] = .ok (.i32 n) := by
  have hn : Nat.ofDigitChars 10 (Nat.toDigits 10 n.toNat) 0 < 2 ^ 31 := by rwa [Nat.ofDigitChars_ten_toDigits]
  refine (if_pos hn).trans ?_
  rw [Nat.ofDigitChars_ten_toDigits, BitVec.ofNat_toNat, BitVec.setWidth_eq]

theorem suffixed_u32 (n : BitVec 32) : suffixed (Nat.toDigits 10 n.toNat) ['u', '3', '2'] = .ok (.u32 n) := by
  have hn : Nat.ofDigitChars 10 (Nat.toDigits 10 n.toNat) 0 < 2 ^ 32 := by
    rw [Nat.ofDigitChars_ten_toDigits]
    exact n.isLt
  refine (if_pos hn).trans ?_
  rw [Nat.ofDigitChars_ten_toDigits, BitVec.ofNat_toNat, BitVec.setWidth_eq]

theorem suffixed_u64 (n : U64) : suffixed (Nat.toDigits 10 n.toNat) ['u', '6', '4'] = .ok (.u64 n) := by
  have hn : Nat.ofDigitChars 10 (Nat.toDigits 10 n.toNat) 0 < 2 ^ 64 := by
    rw [Nat.ofDigitChars_ten_toDigits]
    exact n.isLt
  refine (if_pos hn).trans ?_
  rw [Nat.ofDigitChars_ten_toDigits, BitVec.ofNat_toNat, BitVec.setWidth_eq]

theorem suffixed_u128 (n : U128) : suffixed (Nat.toDigits 10 n.toNat) ['u', '1', '2', '8'] = .ok (.u128 n) := by
  have hn : Nat.ofDigitChars 10 (Nat.toDigits 10 n.toNat) 0 < 2 ^ 128 := by
    rw [Nat.ofDigitChars_ten_toDigits]
    exact n.isLt
  refine (if_pos hn).trans ?_
  rw [Nat.ofDigitChars_ten_toDigits, BitVec.ofNat_toNat, BitVec.setWidth_eq]

theorem lexeme_spell (h : Writable F t) : Lexeme F false t (spell F t) (' ' :: rest) := by
  cases t with
  | int n =>
    obtain ⟨n, rfl⟩ := Int.eq_ofNat_of_zero_le h
    have hlex : Lexeme F false (.int n) (Nat.toDigits 10 n ++ []) (' ' :: rest) :=
      lexeme_number (by rw [suffixed_plain, Nat.ofDigitChars_ten_toDigits])
    rwa [List.append_nil] at hlex
  | uint n =>
    obtain ⟨n, rfl⟩ := Int.eq_ofNat_of_zero_le h
    exact lexeme_number (by rw [Int.toNat_natCast, suffixed_u, Nat.ofDigitChars_ten_toDigits])
  | float bits => 
    obtain ⟨whole, frac, exp, hwhole, hfrac, hexp, hfloat, hdisplay, hread⟩ := h
    rw [spell, hdisplay]
    exact .float (by simp) hwhole hfrac hexp hfloat hread (show ¬ Char.isDigit ' ' by decide)
      fun _ => show ¬ isExp ' ' by decide
  | i32 n => exact lexeme_number (suffixed_i32 h)
  | u32 n => exact lexeme_number (suffixed_u32 n)
  | u64 n => exact lexeme_number (suffixed_u64 n)
  | u128 n => exact lexeme_number (suffixed_u128 n)
  | str s =>
    have hlex : Lexeme F false (.str (String.ofList s.toList)) (spell F (.str s)) (' ' :: rest) :=
      .string (escapes_quoted s.toList)
    rwa [String.ofList_toList] at hlex
  | ident s =>
    obtain ⟨c, cs, hs, hc, hcs, hlookup⟩ := h
    have hlex : Lexeme F false (wordToken (String.ofList (c :: cs))) (c :: cs) (' ' :: rest) :=
      .word hc hcs (show ¬ isWordChar ' ' by decide)
    rwa [← hs, String.ofList_toList, wordToken, hlookup] at hlex
  | eof => exact absurd h id
  | _ => exact lexeme_table (by decide)

end Spell

/-! ### Reading it back -/

section RoundTrip

variable {ts : List Token}

theorem laid_render (h : ∀ t ∈ ts, Writable F t) {done gap : List Char} (hgap : Gap gap)
    (hdot : (done ++ gap).getLast? ≠ some '.') :
    ∃ out, Laid F done (gap ++ render F ts) out ∧ out.map Spanned.token = ts ++ [.eof] := by
  induction ts generalizing done gap with
  | nil => exact ⟨_, by rw [render, List.flatMap_nil, List.append_nil]; exact .eof (.inl hgap), rfl⟩
  | cons t ts ih =>
    have hlex : Lexeme F ((done ++ gap).getLast? = some '.') t (spell F t) (' ' :: render F ts) := by
      rw [decide_eq_false hdot]
      exact lexeme_spell (h t List.mem_cons_self)
    have hrest : ∃ out, Laid F (done ++ gap ++ spell F t) ([' '] ++ render F ts) out ∧
        out.map Spanned.token = ts ++ [.eof] :=
      ih (fun t ht => h t (List.mem_cons_of_mem _ ht)) (.ws rfl .nil) (by simp)
    obtain ⟨out, hout, htokens⟩ := hrest
    have hrender : gap ++ render F (t :: ts) = gap ++ spell F t ++ ' ' :: render F ts := by simp [render]
    rw [hrender]
    exact ⟨_, .token hgap hlex hout, by rw [List.map_cons, htokens, List.cons_append]⟩

/-- The tokens are read back. -/
theorem tokenize_render (h : ∀ t ∈ ts, Writable F t) :
    ∃ out, tokenize F (render F ts) = .ok out ∧ out.map Spanned.token = ts ++ [.eof] := by
  have hlaid : ∃ out, Laid F [] ([] ++ render F ts) out ∧ out.map Spanned.token = ts ++ [.eof] :=
    laid_render h .nil (by simp)
  obtain ⟨out, hout, htokens⟩ := hlaid
  exact ⟨out, tokenizeFrom_of_laid hout (Nat.lt_succ_self _), htokens⟩

end RoundTrip

section Parse

variable {Form : Type} {C : Context Form} {e : Expr Form}

/-- **An expression is read back from its text.** The parser gives it from any text with its tokens, whatever the
whitespace and the comments are, and it has such a text. -/
theorem parse_source (h : Operators C e) (hw : ∀ t ∈ print e, Writable F t) (flag : Bool) :
    (∃ src out, src = render F (print e) ∧ tokenize F src = .ok out ∧ out.map Spanned.token = print e ++ [.eof]) ∧
    ∀ src out, tokenize F src = .ok out → out.map Spanned.token = print e ++ [.eof] →
      Enough (fun n => parseExpr C n ⟨out.map Spanned.token, 0, flag⟩)
        (e, ⟨[.eof], (print e).length, flag⟩) := by
  refine ⟨?_, fun src out _ htokens => ?_⟩
  · obtain ⟨out, hout, htokens⟩ := tokenize_render hw
    exact ⟨_, out, rfl, hout, htokens⟩
  · have hread : Enough (fun n => parseExprBp C n 0 ⟨print e ++ .eof :: [], 0, flag⟩)
        (e, ⟨.eof :: [], 0 + (print e).length, flag⟩) :=
      (print_reads h).whole (Nat.zero_le _) (endsBefore_of_ne (by simp) (by simp) (by simp) _ _) id
        (fun b hb => by cases hb) [] 0
    rw [Nat.zero_add] at hread
    rw [htokens]
    exact hread

end Parse

/-- No float has a text. -/
def noFloats : FloatText := ⟨fun _ => [], fun _ => none⟩

/-- `("a\"b" + x)[7u]`. -/
theorem parse_source_index :
    let e : Expr Unit := .index (.binary .add (.str "a\"b") (.ident "x")) (.uint 7)
    (∃ src out, src = render noFloats (print e) ∧ tokenize noFloats src = .ok out ∧
      out.map Spanned.token = print e ++ [.eof]) ∧
    ∀ src out, tokenize noFloats src = .ok out → out.map Spanned.token = print e ++ [.eof] →
      Enough (fun n => parseExpr oneEnum n ⟨out.map Spanned.token, 0, false⟩)
        (e, ⟨[.eof], (print e).length, false⟩) := by
  intro e
  have he : Operators oneEnum e := .index (.binary _ (.literal rfl) (.ident _)) (.literal rfl)
  refine parse_source he ?_ false
  have htokens : print e = [.lParen, .str "a\"b", .plus, .ident "x", .rParen, .lBracket, .uint 7, .rBracket] := by
    decide
  rw [htokens]
  simp only [List.mem_cons, List.not_mem_nil, or_false, forall_eq_or_imp, forall_eq]
  refine ⟨trivial, trivial, trivial, ⟨'x', [], rfl, by decide, List.forall_mem_nil _, by decide⟩, trivial, trivial, ?_, trivial⟩
  exact show (0 : ℤ) ≤ 7 by decide

/-! ### Errors -/

section Errors

variable {cs rest : List Char} {msg : String}

theorem byteLen_append (cs ds : List Char) : byteLen (cs ++ ds) = byteLen cs + byteLen ds := by
  rw [byteLen, List.map_append, List.sum_append, ← byteLen, ← byteLen]

theorem byteLen_cons (c : Char) (cs : List Char) : byteLen (c :: cs) = c.utf8Size + byteLen cs := by
  rw [byteLen, List.map_cons, List.sum_cons, ← byteLen]

theorem byteLen_suffix (h : rest <:+ cs) : byteLen rest ≤ byteLen cs := by
  obtain ⟨text, rfl⟩ := h
  rw [byteLen_append]
  omega

theorem lexString_error {s : List Char} (h : lexString s cs = .error (msg, rest)) : rest <:+ cs := by
  fun_induction lexString s cs with
  | case1 => cases h; exact List.suffix_refl _
  | case2 => cases h
  | case3 => cases h; exact List.nil_suffix
  | case4 s d cs e he _ ih => exact (ih h).trans ((List.suffix_cons d cs).trans (List.suffix_cons _ _))
  | case5 s d cs => cases h; exact List.suffix_cons _ _
  | case6 s c cs _ _ ih => exact (ih h).trans (List.suffix_cons c cs)

theorem skipExponent_error (h : skipExponent cs = .error (msg, rest)) : rest <:+ cs := by
  unfold skipExponent skipDigits at h
  split_ifs at h
  cases h
  obtain ⟨sign, -, hsign⟩ := skipSign_spec cs.tail
  exact (show skipSign cs.tail <:+ cs.tail from ⟨sign, hsign.symm⟩).trans (List.tail_suffix cs)

theorem skipExponent_ok (h : skipExponent cs = .ok rest) : rest <:+ cs := by
  obtain ⟨exp, hexp, -⟩ := skipExponent_spec h
  exact ⟨exp, hexp.symm⟩

theorem skipFraction_suffix (cs : List Char) : skipFraction cs <:+ cs := by
  obtain ⟨frac, hfrac, -⟩ := skipFraction_spec cs
  exact ⟨frac, hfrac.symm⟩

/-- A number is found wrong behind its first digits. -/
theorem lexInt_error {F : FloatText} {afterDot : Bool} (h : lexInt F afterDot cs = .error (msg, rest)) :
    rest <:+ cs.dropWhile Char.isDigit := by
  unfold lexInt at h
  dsimp only at h
  split_ifs at h with hfloat
  · unfold lexFloat at h
    split at h
    · rename_i e he
      rw [Except.error.inj h] at he
      exact (skipExponent_error he).trans (skipFraction_suffix _)
    · rename_i rest' hskip
      dsimp only at h
      split at h
      · cases h
      · cases h
        exact (skipExponent_ok hskip).trans (skipFraction_suffix _)
  · unfold lexSuffix at h
    split at h
    · cases h
    · cases h
      exact List.dropWhile_suffix _

theorem lexToken_error {F : FloatText} {afterDot : Bool} {c : Char} {width : ℕ}
    (h : lexToken F afterDot c cs = .error (msg, width)) : 0 < width ∧ width ≤ byteLen (c :: cs) := by
  have hpos := c.utf8Size_pos
  have habout : ∀ rest, rest <:+ cs → 0 < byteLen (c :: cs) - byteLen rest := fun rest hrest => by
    have hle := byteLen_suffix hrest
    rw [byteLen_cons]
    omega
  unfold lexToken at h
  dsimp only at h
  split at h
  · cases h
  · split_ifs at h with hquote hdigit hword
    · cases hs : lexString [] cs with
      | error e =>
        rw [hs] at h
        cases h
        exact ⟨habout _ (lexString_error hs), Nat.sub_le _ _⟩
      | ok r => rw [hs] at h; cases h
    · cases hs : lexInt F afterDot (c :: cs) with
      | error e =>
        rw [hs] at h
        cases h
        have hsuffix := lexInt_error hs
        rw [List.dropWhile_cons_of_pos hdigit] at hsuffix
        exact ⟨habout _ (hsuffix.trans (List.dropWhile_suffix _)), Nat.sub_le _ _⟩
      | ok r => rw [hs] at h; cases h
    · cases h
      rw [byteLen_cons]
      omega

/-- What stops the loop is an error of a token that begins inside the text. -/
theorem tokenizeFrom_error {F : FloatText} {n : ℕ} {done src : List Char} {e : LexStop}
    (h : tokenizeFrom F n ⟨done, src⟩ = .error e) (hn : src.length < n) :
    ∃ x, e = .error x ∧ byteLen done ≤ x.span.start ∧ x.span.start < x.span.end ∧
      x.span.end ≤ byteLen (done ++ src) := by
  induction n generalizing done src with
  | zero => exact absurd hn (Nat.not_lt_zero _)
  | succ n ih =>
    rw [tokenizeFrom] at h
    rcases gapThen_skip src with ⟨hskip, hgap⟩ | ⟨gap, c, cs, hgap, hat, rfl, hskip⟩
    · have hmove : Lexer.move ⟨done, src⟩ [] = ⟨done ++ src, []⟩ := by
        have hall := move_append done src []
        rwa [List.append_nil] at hall
      simp only [hskip, hmove] at h
      cases h
    · simp only [hskip, move_append] at h
      cases ht : lexToken F ((done ++ gap).getLast? = some '.') c cs with
      | error e' =>
        obtain ⟨msg, width⟩ := e'
        simp only [ht] at h
        obtain ⟨hpos, hle⟩ := lexToken_error ht
        refine ⟨_, (Except.error.inj h).symm, ?_, ?_, ?_⟩
        · simp only [Lexer.pos, byteLen_append]
          omega
        · exact Nat.lt_add_of_pos_right hpos
        · rw [← List.append_assoc, byteLen_append (done ++ gap)]
          exact Nat.add_le_add_left hle _
      | ok r =>
        obtain ⟨t, rest⟩ := r
        obtain ⟨text, htext, hlex⟩ := lexeme_of_lexToken hat ht
        simp only [ht, htext, move_append] at h
        cases hrest : tokenizeFrom F n ⟨done ++ gap ++ text, rest⟩ with
        | ok out => rw [hrest] at h; cases h
        | error e' =>
          rw [hrest] at h
          have hlen : rest.length < n := by
            obtain ⟨d, ds, rfl, -⟩ := hlex.start
            have hcs := congrArg List.length htext
            simp only [List.length_append, List.length_cons] at hn hcs
            omega
          obtain rfl : e' = e := Except.error.inj h
          obtain ⟨x, hx, hstart, hrange, hend⟩ := ih hrest hlen
          refine ⟨x, hx, ?_, hrange, ?_⟩
          · rw [List.append_assoc, byteLen_append] at hstart
            omega
          · rw [htext, ← List.append_assoc, ← List.append_assoc]
            exact hend

/-- **An error of the lexer is about a range inside the text, and the lexer always comes to an end.** -/
theorem tokenize_error {F : FloatText} {src : List Char} {e : LexStop} (h : tokenize F src = .error e) :
    ∃ x, e = .error x ∧ x.span.start < x.span.end ∧ x.span.end ≤ byteLen src := by
  obtain ⟨x, hx, -, hrange, hend⟩ := tokenizeFrom_error h (Nat.lt_succ_self _)
  exact ⟨x, hx, hrange, hend⟩

/-- `"ab` is not closed. -/
theorem tokenize_error_open : ∃ x, LexStop.error ⟨"unterminated string literal", ⟨0, 3⟩⟩ = .error x ∧
    x.span.start < x.span.end ∧ x.span.end ≤ byteLen ['"', 'a', 'b'] := by
  have h : tokenize noFloats ['"', 'a', 'b'] = .error (.error ⟨"unterminated string literal", ⟨0, 3⟩⟩) := by
    decide +kernel
  exact tokenize_error h

end Errors

end Rend.Syntax
