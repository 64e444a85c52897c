import Mathlib.Data.List.TakeWhile
import Rend.Syntax.Lex

/-!
# What the lexer accepts

A text is laid out as tokens when it is made of their spellings with whitespace and comments between them, and
each spelling ends where no longer one would go on (`Laid`). The lexer gives tokens exactly for such a text, and
gives their places in it (`tokenize_iff`).
-/

namespace Rend.Syntax

open Lib
open JsonText (FloatText)

/-! ### Spellings -/

/-- The operators with their texts. -/
def operators : List (List Char × Token) :=
  [(['('], .lParen), ([')'], .rParen), (['\x7b'], .lBrace), (['\x7d'], .rBrace), (['['], .lBracket),
    ([']'], .rBracket), ([','], .comma), ([';'], .semi), ([':'], .colon), ([':', ':'], .colonColon),
    (['.'], .dot), (['.', '.'], .dotDot), (['.', '.', '='], .dotDotEq), (['+'], .plus), (['-'], .minus),
    (['-', '>'], .arrow), (['*'], .star), (['/'], .slash), (['%'], .percent), (['='], .eq), (['=', '='], .eqEq),
    (['=', '>'], .fatArrow), (['!'], .bang), (['!', '='], .bangEq), (['<'], .lt), (['<', '='], .ltEq),
    (['<', '<'], .shl), (['>'], .gt), (['>', '='], .gtEq), (['>', '>'], .shr), (['&'], .amp),
    (['&', '&'], .ampAmp), (['^'], .caret), (['`'], .backtick), (['|'], .pipeBar), (['|', '|'], .pipePipe),
    (['|', '>'], .pipeArrow), (['$'], .dollar), (['$', '$'], .dollarDollar)]

/-- The text of an operator. -/
def operatorText (t : Token) : List Char := ((operators.find? fun row => row.2 = t).map Prod.fst).getD []

/-- No longer operator goes on with the characters behind. -/
def Longest (text rest : List Char) : Prop := ∀ c ∈ rest.head?, text ++ [c] ∉ operators.map Prod.fst

/-- What stands between the quotes of a string and the characters it is for. -/
inductive Escapes : List Char → List Char → Prop
  | nil : Escapes [] []
  | plain {c : Char} {body s : List Char} (hquote : c ≠ '"') (hslash : c ≠ '\\') (h : Escapes body s) :
      Escapes (c :: body) (c :: s)
  | escape {c d : Char} {body s : List Char} (hc : unescape c = some d) (h : Escapes body s) :
      Escapes ('\\' :: c :: body) (d :: s)

/-- Digits, and one at least. -/
def Digits (cs : List Char) : Prop := cs ≠ [] ∧ ∀ c ∈ cs, c.isDigit

/-- The fraction of a float, if it has one. -/
def Fraction (cs : List Char) : Prop := cs = [] ∨ ∃ ds, Digits ds ∧ cs = '.' :: ds

/-- The sign of an exponent, if it has one. -/
def Sign (cs : List Char) : Prop := cs = [] ∨ ∃ c, isSign c ∧ cs = [c]

/-- The exponent of a float, if it has one. -/
def Exponent (cs : List Char) : Prop := cs = [] ∨ ∃ e sign ds, isExp e ∧ Sign sign ∧ Digits ds ∧ cs = e :: (sign ++ ds)

/-- The text is the spelling of a token, and the characters behind it do not go on with it. The flag says that a
point stands before it, where a number is not a float. -/
inductive Lexeme (F : FloatText) (afterDot : Bool) : Token → List Char → List Char → Prop
  | operator {t : Token} {text rest : List Char} (h : (text, t) ∈ operators) (hlong : Longest text rest)
      (hcomment : text = ['/'] → rest.head? ≠ some '/') : Lexeme F afterDot t text rest
  | string {body s rest : List Char} (h : Escapes body s) :
      Lexeme F afterDot (.str (String.ofList s)) ('"' :: (body ++ ['"'])) rest
  | word {c : Char} {cs rest : List Char} (hc : isWordStart c) (hcs : ∀ d ∈ cs, isWordChar d)
      (hnext : ¬ rest.head?.any isWordChar) : Lexeme F afterDot (wordToken (String.ofList (c :: cs))) (c :: cs) rest
  | int {t : Token} {digits suffix rest : List Char} (hdigits : Digits digits) (ht : suffixed digits suffix = .ok t)
      (hnext : ¬ rest.head?.any Char.isAlphanum) (hdot : suffix = [] → ¬ afterDot → ¬ sawDot rest) :
      Lexeme F afterDot t (digits ++ suffix) rest
  | float {bits : U64} {whole frac exp rest : List Char} (hdot : ¬ afterDot) (hwhole : Digits whole)
      (hfrac : Fraction frac) (hexp : Exponent exp) (hfloat : frac = [] → exp ≠ [])
      (hread : F.read ((whole ++ frac ++ exp).map JsonText.ascii) = some bits)
      (hnext : ¬ rest.head?.any Char.isDigit) (hmore : exp = [] → ¬ rest.head?.any isExp) :
      Lexeme F afterDot (.float bits) (whole ++ frac ++ exp) rest

/-! ### Layouts -/

/-- Whitespace and comments that are closed. -/
inductive Gap : List Char → Prop
  | nil : Gap []
  | ws {c : Char} {cs : List Char} (hc : isWs c) (h : Gap cs) : Gap (c :: cs)
  | comment {text cs : List Char} (htext : '\n' ∉ text) (h : Gap cs) : Gap ('/' :: '/' :: (text ++ '\n' :: cs))

/-- Whitespace and comments, the last one of which may be open. -/
def LastGap (cs : List Char) : Prop := Gap cs ∨ ∃ gap text, Gap gap ∧ '\n' ∉ text ∧ cs = gap ++ '/' :: '/' :: text

/-- The text behind what has been read is laid out as tokens at their places. -/
inductive Laid (F : FloatText) : List Char → List Char → List Spanned → Prop
  | eof {done gap : List Char} (h : LastGap gap) :
      Laid F done gap [⟨.eof, ⟨byteLen (done ++ gap), byteLen (done ++ gap)⟩⟩]
  | token {done gap text rest : List Char} {t : Token} {ts : List Spanned} (hgap : Gap gap)
      (ht : Lexeme F ((done ++ gap).getLast? = some '.') t text rest) (h : Laid F (done ++ gap ++ text) rest ts) :
      Laid F done (gap ++ text ++ rest)
        (⟨t, ⟨byteLen (done ++ gap), byteLen (done ++ gap ++ text)⟩⟩ :: ts)

/-! ### Gaps are skipped -/

theorem skip_comment {text : List Char} (h : '\n' ∉ text) (cs : List Char) :
    skip true (text ++ '\n' :: cs) = skip false cs := by
  induction text with
  | nil => simp [skip]
  | cons c text ih =>
    obtain ⟨hc, htext⟩ := List.ne_and_not_mem_of_not_mem_cons h
    rw [List.cons_append, skip, if_neg hc.symm, ih htext]

theorem skip_open {text : List Char} (h : '\n' ∉ text) : skip true text = [] := by
  induction text with
  | nil => rfl
  | cons c text ih =>
    obtain ⟨hc, htext⟩ := List.ne_and_not_mem_of_not_mem_cons h
    rw [skip, if_neg hc.symm, ih htext]

theorem skip_slashes (cs : List Char) : skip false ('/' :: '/' :: cs) = skip true cs := by
  rw [skip, if_neg (by decide), if_pos ⟨rfl, rfl⟩, skip, if_neg (by decide)]

theorem Gap.skip {gap : List Char} (h : Gap gap) (rest : List Char) :
    Syntax.skip false (gap ++ rest) = Syntax.skip false rest := by
  induction h with
  | nil => rfl
  | ws hc _ ih => rw [List.cons_append, Syntax.skip, if_pos hc, ih]
  | comment htext _ ih =>
    rw [List.cons_append, List.cons_append, List.append_assoc, List.cons_append, skip_slashes, skip_comment htext, ih]

theorem LastGap.skip {gap : List Char} (h : LastGap gap) : skipWsAndComments gap = [] := by
  rcases h with h | ⟨gap, text, h, htext, rfl⟩
  · have hskip := h.skip []
    rwa [List.append_nil] at hskip
  · rw [skipWsAndComments, h.skip, skip_slashes, skip_open htext]

/-- No gap begins here. -/
def AtToken (c : Char) (cs : List Char) : Prop := ¬ isWs c ∧ ¬ (c = '/' ∧ cs.head? = some '/')

theorem AtToken.skip {c : Char} {cs : List Char} (h : AtToken c cs) : Syntax.skip false (c :: cs) = c :: cs := by
  rw [Syntax.skip, if_neg h.1, if_neg h.2]

/-- A comment goes to the end of its line. -/
theorem comment_ends (cs : List Char) : ∃ text, '\n' ∉ text ∧
    (cs = text ∧ skip true cs = [] ∨ ∃ rest, cs = text ++ '\n' :: rest ∧ skip true cs = skip false rest) := by
  induction cs with
  | nil => exact ⟨[], List.not_mem_nil, .inl ⟨rfl, rfl⟩⟩
  | cons c cs ih =>
    by_cases hc : c = '\n'
    · exact ⟨[], List.not_mem_nil, .inr ⟨cs, by rw [hc]; rfl, by rw [skip, if_pos hc]⟩⟩
    · obtain ⟨text, htext, hcs⟩ := ih
      refine ⟨c :: text, List.not_mem_cons_of_ne_of_not_mem (Ne.symm hc) htext, ?_⟩
      rw [skip, if_neg hc]
      rcases hcs with ⟨rfl, hskip⟩ | ⟨rest, rfl, hskip⟩
      · exact .inl ⟨rfl, hskip⟩
      · exact .inr ⟨rest, rfl, hskip⟩

/-- The characters are a gap, or a gap and what is skipped to. -/
def GapThen (cs rest : List Char) : Prop :=
  rest = [] ∧ LastGap cs ∨ ∃ gap c tail, Gap gap ∧ AtToken c tail ∧ cs = gap ++ c :: tail ∧ rest = c :: tail

/-- A gap in front of a gap. -/
theorem GapThen.before {gap cs rest : List Char} (h : GapThen cs rest)
    (hgap : ∀ {cs : List Char}, Gap cs → Gap (gap ++ cs)) : GapThen (gap ++ cs) rest := by
  rcases h with ⟨hrest, hlast | ⟨gap', text, hgap', htext, rfl⟩⟩ | ⟨gap', c, tail, hgap', hc, rfl, hrest⟩
  · exact .inl ⟨hrest, .inl (hgap hlast)⟩
  · exact .inl ⟨hrest, .inr ⟨gap ++ gap', text, hgap hgap', htext, by rw [List.append_assoc]⟩⟩
  · exact .inr ⟨gap ++ gap', c, tail, hgap hgap', hc, by rw [List.append_assoc], hrest⟩

/-- What is skipped is a gap, and a token begins behind it if anything is left. -/
theorem gapThen_skip (cs : List Char) : GapThen cs (skipWsAndComments cs) := by
  induction hn : cs.length using Nat.strong_induction_on generalizing cs with
  | _ n ih =>
    subst hn
    rcases cs with _ | ⟨c, cs⟩
    · exact .inl ⟨rfl, .inl .nil⟩
    · by_cases hws : isWs c
      · have hrest := ih cs.length (by simp) cs rfl
        rw [skipWsAndComments, skip, if_pos hws]
        have hgap : GapThen ([c] ++ cs) (skipWsAndComments cs) := hrest.before fun h => .ws hws h
        exact hgap
      · by_cases hslash : c = '/' ∧ cs.head? = some '/'
        · obtain ⟨rfl, hcs⟩ := hslash
          obtain ⟨cs, rfl⟩ : ∃ cs', cs = '/' :: cs' := by
            rcases cs with _ | ⟨d, cs⟩
            · cases hcs
            · exact ⟨cs, by rw [Option.some.inj hcs]⟩
          rw [skipWsAndComments, skip_slashes]
          obtain ⟨text, htext, ⟨rfl, hskip⟩ | ⟨rest, rfl, hskip⟩⟩ := comment_ends cs
          · exact .inl ⟨hskip, .inr ⟨[], cs, .nil, htext, rfl⟩⟩
          · have hrest := ih rest.length (by simp; omega) rest rfl
            rw [hskip]
            have hgap : GapThen ('/' :: '/' :: (text ++ ['\n']) ++ rest) (skipWsAndComments rest) :=
              hrest.before fun {cs} h => by
                have hcomment := Gap.comment htext h
                simpa using hcomment
            simpa [skipWsAndComments] using hgap
        · exact .inr ⟨[], c, cs, .nil, ⟨hws, hslash⟩, rfl, AtToken.skip ⟨hws, hslash⟩⟩

/-! ### Operators -/

/-- The characters that make a longer operator of a text. -/
def follows (text : List Char) : List Char :=
  operators.filterMap fun row => if row.1.dropLast = text then row.1.getLast? else none

theorem longest_of_follows {text rest : List Char} (h : ∀ f ∈ follows text, rest.head? ≠ some f) :
    Longest text rest := by
  intro c hc hmem
  obtain ⟨row, hrow, htext⟩ := List.mem_map.mp hmem
  have hf : c ∈ follows text := by
    refine List.mem_filterMap.mpr ⟨row, hrow, ?_⟩
    rw [htext, List.dropLast_concat, if_pos rfl, List.getLast?_concat]
  exact h c hf hc

/-- The result is an operator of the table, and no longer one goes on behind it. -/
def IsOperator (cs : List Char) (r : Token × List Char) : Prop :=
  ∃ text, (text, r.1) ∈ operators ∧ Longest text r.2 ∧ cs = text ++ r.2

section IsOperator

variable {cs : List Char} {t both single : Token} {c d e : Char}

theorem isOperator_text (text : List Char) (h : (text, t) ∈ operators)
    (hf : ∀ f ∈ follows text, cs.head? ≠ some f) : IsOperator (text ++ cs) (t, cs) :=
  ⟨text, h, longest_of_follows hf, rfl⟩

theorem isOperator_alone (text : List Char) (h : (text, t) ∈ operators) (hf : follows text = []) :
    IsOperator (text ++ cs) (t, cs) :=
  isOperator_text text h (by simp [hf])

theorem isOperator_next (text : List Char) (h : (text ++ [d], t) ∈ operators) (hf : follows (text ++ [d]) = [])
    (hd : cs.head? = some d) : IsOperator (text ++ cs) (t, cs.tail) := by
  refine ⟨text ++ [d], h, longest_of_follows (by simp [hf]), ?_⟩
  rw [List.append_assoc, List.singleton_append, List.cons_head?_tail hd]

theorem isOperator_twoOrOne (text : List Char) (h : (text, single) ∈ operators) (h' : (text ++ [d], both) ∈ operators)
    (hf : follows text = [d]) (hf' : follows (text ++ [d]) = []) :
    IsOperator (text ++ cs) (twoOrOne d both single cs) := by
  unfold twoOrOne
  split_ifs with hd
  · exact isOperator_next text h' hf' hd
  · exact isOperator_text text h (by simpa [hf] using hd)

/-- One of two longer operators, or none of them. -/
theorem isOperator_three (text : List Char) {td te : Token} {r : Token × List Char} (h : (text, t) ∈ operators)
    (hd : (text ++ [d], td) ∈ operators) (he : (text ++ [e], te) ∈ operators) (hf : follows text = [d, e])
    (hfd : follows (text ++ [d]) = []) (hfe : follows (text ++ [e]) = [])
    (hr : (if cs.head? = some d then some (td, cs.tail) else if cs.head? = some e then some (te, cs.tail)
      else some (t, cs)) = some r) : IsOperator (text ++ cs) r := by
  split_ifs at hr with h₁ h₂
  · exact Option.some.inj hr ▸ isOperator_next text hd hfd h₁
  · exact Option.some.inj hr ▸ isOperator_next text he hfe h₂
  · exact Option.some.inj hr ▸ isOperator_text text h (by simp [hf, h₁, h₂])

/-- The range operators, and the point. -/
theorem isOperator_dots {r : Token × List Char}
    (hr : (if cs.head? = some '.' then some (twoOrOne '=' .dotDotEq .dotDot cs.tail) else some (.dot, cs)) = some r) :
    IsOperator ('.' :: cs) r := by
  split_ifs at hr with hdot
  · rw [← List.cons_head?_tail hdot]
    exact Option.some.inj hr ▸ isOperator_twoOrOne ['.', '.'] (by decide) (by decide) (by decide) (by decide)
  · exact Option.some.inj hr ▸ isOperator_text ['.'] (by decide) (by simpa [follows, operators] using hdot)

theorem isOperator_of_lexOperator {r : Token × List Char} (h : lexOperator c cs = some r) :
    IsOperator (c :: cs) r := by
  unfold lexOperator at h
  split at h
  all_goals
    first
    | exact Option.some.inj h ▸ isOperator_alone [_] (by decide) (by decide)
    | exact Option.some.inj h ▸ isOperator_twoOrOne [_] (by decide) (by decide) (by decide) (by decide)
    | exact isOperator_three [_] (by decide) (by decide) (by decide) (by decide) (by decide) (by decide) h
    | exact isOperator_dots h
    | cases h

/-- The longest operator is the one that is read. -/
theorem lexOperator_of_longest {rest : List Char} {row : List Char × Token} (h : row ∈ operators)
    (hlong : Longest row.1 rest) (htext : c :: cs = row.1 ++ rest) : lexOperator c cs = some (row.2, rest) := by
  rcases rest with _ | ⟨d, rest⟩
  · have hall : ∀ row ∈ operators, lexOperator (row.1.headD ' ') row.1.tail = some (row.2, []) := by decide
    have hrow := hall row h
    rw [List.append_nil] at htext
    rwa [← htext] at hrow
  · have hnext : row.1 ++ [d] ∉ operators.map Prod.fst := hlong d rfl
    fin_cases h <;>
    · simp only [List.cons_append, List.nil_append, List.cons.injEq] at htext
      obtain ⟨rfl, rfl⟩ := htext
      simp [operators] at hnext
      simp [lexOperator, twoOrOne, hnext]

/-- No operator begins with the character. -/
theorem lexOperator_eq_none (h : ∀ row ∈ operators, row.1.head? ≠ some c) (cs : List Char) : lexOperator c cs = none := by
  by_contra hsome
  obtain ⟨r, hr⟩ := Option.ne_none_iff_exists'.mp hsome
  obtain ⟨text, hmem, -, htext⟩ := isOperator_of_lexOperator hr
  refine h _ hmem ?_
  have hne : ∀ row ∈ operators, row.1 ≠ [] := by decide
  obtain ⟨d, ds, rfl⟩ := List.exists_cons_of_ne_nil (hne _ hmem)
  rw [List.cons_append, List.cons.injEq] at htext
  rw [htext.1]
  rfl

end IsOperator

/-! ### Strings -/

theorem lexString_quote (s cs : List Char) : lexString s ('"' :: cs) = .ok (.str (String.ofList s), cs) := by
  rw [lexString.eq_def]
  exact if_pos rfl

theorem lexString_escape {c d : Char} (h : unescape c = some d) (s cs : List Char) :
    lexString s ('\\' :: c :: cs) = lexString (s ++ [d]) cs := by
  rw [lexString.eq_def]
  simp [h]

theorem lexString_plain {c : Char} (hquote : c ≠ '"') (hslash : c ≠ '\\') (s cs : List Char) :
    lexString s (c :: cs) = lexString (s ++ [c]) cs := by
  rw [lexString.eq_def]
  simp [hquote, hslash]

/-- A string is read up to the quote that closes it. -/
theorem lexString_iff {s cs : List Char} {r : Token × List Char} : lexString s cs = .ok r ↔
    ∃ body s' rest, Escapes body s' ∧ cs = body ++ '"' :: rest ∧ r = (.str (String.ofList (s ++ s')), rest) := by
  constructor
  · intro h
    fun_induction lexString s cs with
    | case1 => cases h
    | case2 s cs =>
      exact ⟨[], [], cs, .nil, rfl, by rw [List.append_nil]; exact (Except.ok.inj h).symm⟩
    | case3 => cases h
    | case4 s d cs e he _ ih =>
      obtain ⟨body, s', rest, hbody, rfl, rfl⟩ := ih h
      exact ⟨'\\' :: d :: body, e :: s', rest, .escape he hbody, rfl, by simp⟩
    | case5 => cases h
    | case6 s c cs hquote hslash ih =>
      obtain ⟨body, s', rest, hbody, rfl, rfl⟩ := ih h
      exact ⟨c :: body, c :: s', rest, .plain hquote hslash hbody, rfl, by simp⟩
  · rintro ⟨body, s', rest, hbody, rfl, rfl⟩
    induction hbody generalizing s with
    | nil => rw [List.nil_append, lexString_quote, List.append_nil]
    | plain hquote hslash _ ih => rw [List.cons_append, lexString_plain hquote hslash, ih, List.append_assoc]; rfl
    | escape hc _ ih => rw [List.cons_append, List.cons_append, lexString_escape hc, ih, List.append_assoc]; rfl

/-! ### Words and numbers -/

section Runs

variable {p : Char → Bool} {cs rest : List Char}

theorem takeWhile_run (h : ∀ c ∈ cs, p c) (hnext : ¬ rest.head?.any p) : (cs ++ rest).takeWhile p = cs := by
  rw [List.takeWhile_append_of_pos h]
  rcases rest with _ | ⟨c, rest⟩
  · simp
  · rw [List.takeWhile_cons_of_neg (by simpa using hnext), List.append_nil]

theorem dropWhile_run (h : ∀ c ∈ cs, p c) (hnext : ¬ rest.head?.any p) : (cs ++ rest).dropWhile p = rest := by
  rw [List.dropWhile_append_of_pos h]
  rcases rest with _ | ⟨c, rest⟩
  · simp
  · rw [List.dropWhile_cons_of_neg (by simpa using hnext)]

theorem dropWhile_stops (p : Char → Bool) (cs : List Char) : ¬ (cs.dropWhile p).head?.any p := by
  have h := List.head?_dropWhile_not p cs
  cases hhead : (cs.dropWhile p).head? with
  | none => simp
  | some c =>
    rw [hhead] at h
    simpa using h

theorem not_any_mono {q : Char → Bool} (h : ∀ c, q c → p c) (hn : ¬ cs.head?.any p) : ¬ cs.head?.any q := by
  cases hhead : cs.head? with
  | none => simp
  | some c =>
    rw [hhead] at hn
    exact fun hq => hn (h c hq)

end Runs

theorem isAlphanum_of_isExp (c : Char) (h : isExp c) : c.isAlphanum := by
  simp only [isExp, Bool.or_eq_true, decide_eq_true_eq] at h
  rcases h with rfl | rfl <;> decide

theorem isAlphanum_of_isDigit (c : Char) (h : c.isDigit) : c.isAlphanum := by
  rw [Char.isAlphanum, h, Bool.or_true]

theorem not_isDigit_of_isExp (c : Char) (h : isExp c) : ¬ c.isDigit := by
  simp only [isExp, Bool.or_eq_true, decide_eq_true_eq] at h
  rcases h with rfl | rfl <;> decide

theorem lexIdent_run {c : Char} {cs rest : List Char} (hc : isWordStart c) (hcs : ∀ d ∈ cs, isWordChar d)
    (hnext : ¬ rest.head?.any isWordChar) :
    lexIdent (c :: cs ++ rest) = (wordToken (String.ofList (c :: cs)), rest) := by
  have hall : ∀ d ∈ c :: cs, isWordChar d := by
    refine List.forall_mem_cons.mpr ⟨?_, hcs⟩
    simp only [isWordStart, isWordChar, Char.isAlphanum, Bool.or_eq_true] at hc ⊢
    exact hc.imp .inl id
  rw [lexIdent, takeWhile_run hall hnext, dropWhile_run hall hnext]

/-- The suffixes of a number. -/
def suffixes : List (List Char) :=
  [[], ['i', '6', '4'], ['u'], ['i', '3', '2'], ['u', '3', '2'], ['u', '6', '4'], ['u', '1', '2', '8']]

theorem suffix_mem {digits suffix : List Char} {t : Token} (h : suffixed digits suffix = .ok t) :
    suffix ∈ suffixes := by
  have hlist : ∀ {s : String}, String.ofList suffix = s → suffix = s.toList := fun hs => by
    rw [← hs, String.toList_ofList]
  unfold suffixed at h
  dsimp only at h
  split at h
  · rename_i hs; rw [hlist hs]; decide
  · rename_i hs; rw [hlist hs]; decide
  · rename_i hs; rw [hlist hs]; decide
  · rename_i hs; rw [hlist hs]; decide
  · rename_i hs; rw [hlist hs]; decide
  · rename_i hs; rw [hlist hs]; decide
  · rename_i hs; rw [hlist hs]; decide
  · cases h

/-- What is behind the digits of an integer makes no float of it. -/
theorem suffix_behind {suffix rest : List Char} (h : suffix ∈ suffixes) (hnext : ¬ rest.head?.any Char.isAlphanum) :
    ¬ (suffix ++ rest).head?.any isExp ∧ ¬ (suffix ++ rest).head?.any Char.isDigit ∧
      (∀ c ∈ suffix, c.isAlphanum) ∧ (suffix ≠ [] → ¬ sawDot (suffix ++ rest)) := by
  by_cases hnil : suffix = []
  · subst hnil
    exact ⟨not_any_mono isAlphanum_of_isExp hnext, not_any_mono isAlphanum_of_isDigit hnext,
      List.forall_mem_nil _, fun hne => absurd rfl hne⟩
  · have hall : ∀ s ∈ suffixes, s ≠ [] → (s.head? = some 'i' ∨ s.head? = some 'u') ∧ s.all Char.isAlphanum := by
      decide
    obtain ⟨hhead, hevery⟩ := hall suffix h hnil
    have halnum : ∀ c ∈ suffix, c.isAlphanum := List.all_eq_true.mp hevery
    have hsome : (suffix ++ rest).head? = suffix.head? := List.head?_append_of_ne_nil _ hnil
    refine ⟨?_, ?_, halnum, fun _ => ?_⟩ <;> rcases hhead with hhead | hhead <;> simp [sawDot, hsome, hhead] <;> decide

/-! ### Floats -/

theorem digits_takeWhile {cs : List Char} (h : cs.head?.any Char.isDigit) :
    Digits (cs.takeWhile Char.isDigit) := by
  refine ⟨fun hnil => ?_, fun c hc => List.mem_takeWhile_imp hc⟩
  rcases cs with _ | ⟨c, cs⟩
  · simp at h
  · rw [List.takeWhile_cons_of_pos (by simpa using h)] at hnil
    cases hnil

/-- A point with a digit behind it. -/
theorem sawDot_iff {cs : List Char} : sawDot cs ↔ ∃ d ds, d.isDigit ∧ cs = '.' :: d :: ds := by
  rcases cs with _ | ⟨c, _ | ⟨d, ds⟩⟩
  · simp [sawDot]
  · simp [sawDot]
  · simp only [sawDot, List.head?_cons, Option.some.injEq, List.tail_cons, Option.any_some, Bool.and_eq_true,
      decide_eq_true_eq, List.cons.injEq]
    constructor
    · rintro ⟨rfl, hd⟩
      exact ⟨d, ds, hd, rfl, rfl, rfl⟩
    · rintro ⟨d', ds', hd, rfl, rfl, rfl⟩
      exact ⟨rfl, hd⟩

/-- The fraction is skipped. -/
theorem skipFraction_spec (cs : List Char) : ∃ frac, cs = frac ++ skipFraction cs ∧ Fraction frac ∧
    (frac = [] ↔ ¬ sawDot cs) ∧ (frac ≠ [] → ¬ (skipFraction cs).head?.any Char.isDigit) := by
  by_cases hdot : sawDot cs
  · obtain ⟨d, ds, hd, rfl⟩ := sawDot_iff.mp hdot
    have hskip : skipFraction ('.' :: d :: ds) = (d :: ds).dropWhile Char.isDigit := if_pos hdot
    refine ⟨'.' :: (d :: ds).takeWhile Char.isDigit, ?_, .inr ⟨_, digits_takeWhile (by simpa using hd), rfl⟩, ?_, ?_⟩
    · rw [hskip, List.cons_append, List.takeWhile_append_dropWhile]
    · exact iff_of_false (List.cons_ne_nil _ _) (not_not_intro hdot)
    · rw [hskip]
      exact fun _ => dropWhile_stops _ _
  · have hskip : skipFraction cs = cs := if_neg hdot
    exact ⟨[], by rw [hskip]; rfl, .inl rfl, iff_of_true rfl hdot, fun h => absurd rfl h⟩

theorem skipFraction_run {frac rest : List Char} (h : Fraction frac) (hnone : frac = [] → ¬ sawDot rest)
    (hnext : ¬ rest.head?.any Char.isDigit) : skipFraction (frac ++ rest) = rest ∧ (sawDot (frac ++ rest) ↔ frac ≠ []) := by
  rcases h with rfl | ⟨ds, ⟨hne, hds⟩, rfl⟩
  · rw [List.nil_append]
    exact ⟨if_neg (hnone rfl), iff_of_false (hnone rfl) (not_not_intro rfl)⟩
  · obtain ⟨d, ds, rfl⟩ := List.exists_cons_of_ne_nil hne
    have hdot : sawDot ('.' :: d :: ds ++ rest) := sawDot_iff.mpr ⟨d, ds ++ rest, hds d List.mem_cons_self, rfl⟩
    refine ⟨?_, iff_of_true hdot (List.cons_ne_nil _ _)⟩
    rw [skipFraction, if_pos hdot]
    exact dropWhile_run hds hnext

theorem skipSign_spec (cs : List Char) : ∃ sign, Sign sign ∧ cs = sign ++ skipSign cs := by
  unfold skipSign
  split_ifs with hs
  · rcases cs with _ | ⟨c, cs⟩
    · simp at hs
    · exact ⟨[c], .inr ⟨c, by simpa using hs, rfl⟩, rfl⟩
  · exact ⟨[], .inl rfl, rfl⟩

theorem skipSign_run {sign cs : List Char} (h : Sign sign) (hcs : cs.head?.any Char.isDigit) :
    skipSign (sign ++ cs) = cs := by
  unfold skipSign
  rcases h with rfl | ⟨c, hc, rfl⟩
  · refine if_neg fun hs => ?_
    rcases cs with _ | ⟨d, cs⟩
    · simp at hcs
    · simp only [List.nil_append, List.head?_cons, Option.any_some, isSign, Bool.or_eq_true, decide_eq_true_eq] at hs hcs
      rcases hs with rfl | rfl <;> exact absurd hcs (by decide)
  · exact if_pos (by simpa using hc)

/-- The exponent is skipped. -/
theorem skipExponent_spec {cs rest : List Char} (h : skipExponent cs = .ok rest) : ∃ exp, cs = exp ++ rest ∧
    Exponent exp ∧ (exp = [] ↔ ¬ cs.head?.any isExp) ∧ (exp ≠ [] → ¬ rest.head?.any Char.isDigit) := by
  unfold skipExponent skipDigits at h
  split_ifs at h with hexp hdigit
  · rcases cs with _ | ⟨e, cs⟩
    · simp at hexp
    · rw [List.tail_cons] at h hdigit
      obtain ⟨sign, hsign, hcs⟩ := skipSign_spec cs
      have hrest : (skipSign cs).dropWhile Char.isDigit = rest := Except.ok.inj h
      refine ⟨e :: (sign ++ (skipSign cs).takeWhile Char.isDigit), ?_,
        .inr ⟨e, sign, _, by simpa using hexp, hsign, digits_takeWhile hdigit, rfl⟩,
        iff_of_false (List.cons_ne_nil _ _) (not_not_intro hexp), fun _ => ?_⟩
      · rw [← hrest, List.cons_append, List.append_assoc, List.takeWhile_append_dropWhile, ← hcs]
      · rw [← hrest]
        exact dropWhile_stops _ _
  · rw [← Except.ok.inj h]
    exact ⟨[], rfl, .inl rfl, iff_of_true rfl hexp, fun hne => absurd rfl hne⟩

theorem skipExponent_run {exp rest : List Char} (h : Exponent exp) (hnone : exp = [] → ¬ rest.head?.any isExp)
    (hnext : ¬ rest.head?.any Char.isDigit) : skipExponent (exp ++ rest) = .ok rest := by
  rcases h with rfl | ⟨e, sign, ds, he, hsign, ⟨hne, hds⟩, rfl⟩
  · rw [skipExponent, List.nil_append, if_neg (hnone rfl)]
  · obtain ⟨d, ds, rfl⟩ := List.exists_cons_of_ne_nil hne
    have hd : (d :: ds ++ rest).head?.any Char.isDigit := hds d List.mem_cons_self
    rw [skipExponent, List.cons_append, List.head?_cons, Option.any_some, if_pos he, List.tail_cons, List.append_assoc,
      skipSign_run hsign hd, skipDigits, if_pos hd, dropWhile_run hds hnext]

/-! ### Numbers -/

section Number

variable {F : FloatText} {afterDot : Bool} {cs rest : List Char} {t : Token}

theorem lexFloat_ok {tail : List Char} {r : Token × List Char} (h : lexFloat F cs tail = .ok r) :
    ∃ rest bits, skipExponent (skipFraction tail) = .ok rest ∧
      F.read ((cs.take (cs.length - rest.length)).map JsonText.ascii) = some bits ∧ r = (.float bits, rest) := by
  unfold lexFloat at h
  split at h
  · cases h
  · rename_i rest hskip
    dsimp only at h
    split at h
    · rename_i bits hread
      exact ⟨rest, bits, hskip, hread, (Except.ok.inj h).symm⟩
    · cases h

theorem lexSuffix_ok {digits tail : List Char} {r : Token × List Char} (h : lexSuffix digits tail = .ok r) :
    ∃ t, suffixed digits (tail.takeWhile Char.isAlphanum) = .ok t ∧ r = (t, tail.dropWhile Char.isAlphanum) := by
  unfold lexSuffix at h
  split at h
  · rename_i t ht
    exact ⟨t, ht, (Except.ok.inj h).symm⟩
  · cases h

theorem take_read (text rest : List Char) : (text ++ rest).take ((text ++ rest).length - rest.length) = text := by
  rw [List.length_append, Nat.add_sub_cancel, List.take_left' rfl]

/-- A number is read as one of its spellings. -/
theorem lexeme_of_lexInt (hdigit : cs.head?.any Char.isDigit) (h : lexInt F afterDot cs = .ok (t, rest)) :
    ∃ text, cs = text ++ rest ∧ Lexeme F afterDot t text rest := by
  have hdigits := digits_takeWhile hdigit
  have hcs : cs = cs.takeWhile Char.isDigit ++ cs.dropWhile Char.isDigit := (List.takeWhile_append_dropWhile).symm
  have hstop := dropWhile_stops Char.isDigit cs
  unfold lexInt at h
  generalize cs.takeWhile Char.isDigit = digits at h hdigits hcs
  generalize cs.dropWhile Char.isDigit = tail at h hcs hstop
  dsimp only at h
  split_ifs at h with hfloat
  · obtain ⟨hdot, hfloat⟩ := hfloat
    obtain ⟨rest, bits, hskip, hread, hr⟩ := lexFloat_ok h
    cases hr
    obtain ⟨frac, htail, hfrac, hnofrac, hfracnext⟩ := skipFraction_spec tail
    obtain ⟨exp, hafter, hexp, hnoexp, hexpnext⟩ := skipExponent_spec hskip
    have htext : cs = digits ++ frac ++ exp ++ rest := by
      rw [hcs, htail, hafter]
      simp only [List.append_assoc]
    rw [htext, take_read] at hread
    have hnone : frac = [] → skipFraction tail = tail := fun hnil => if_neg (hnofrac.mp hnil)
    refine ⟨_, htext, .float hdot hdigits hfrac hexp (fun hnil hnil' => ?_) hread ?_ fun hnil => ?_⟩
    · rw [hnone hnil] at hnoexp
      exact hfloat.elim (hnofrac.mp hnil) (hnoexp.mp hnil')
    · by_cases hnil : exp = []
      · rw [hnil, List.nil_append] at hafter
        by_cases hnil' : frac = []
        · rw [← hafter, hnone hnil']
          exact hstop
        · rw [← hafter]
          exact hfracnext hnil'
      · exact hexpnext hnil
    · rw [hnil, List.nil_append] at hafter
      rw [← hafter]
      exact hnoexp.mp hnil
  · obtain ⟨t', ht, hr⟩ := lexSuffix_ok h
    cases hr
    refine ⟨digits ++ tail.takeWhile Char.isAlphanum, ?_, .int hdigits ht (dropWhile_stops _ _) fun hnil hdot hsaw => ?_⟩
    · rw [List.append_assoc, List.takeWhile_append_dropWhile, hcs]
    · refine hfloat ⟨hdot, .inl ?_⟩
      have htail : tail.dropWhile Char.isAlphanum = tail := by
        have happ := List.takeWhile_append_dropWhile (p := Char.isAlphanum) (l := tail)
        rwa [hnil, List.nil_append] at happ
      rwa [htail] at hsaw

/-- The float is read. -/
theorem lexInt_float {whole frac exp : List Char} {bits : U64} (hdot : ¬ afterDot) (hwhole : Digits whole)
    (hfrac : Fraction frac) (hexp : Exponent exp) (hfloat : frac = [] → exp ≠ [])
    (hread : F.read ((whole ++ frac ++ exp).map JsonText.ascii) = some bits)
    (hnext : ¬ rest.head?.any Char.isDigit) (hmore : exp = [] → ¬ rest.head?.any isExp) :
    lexInt F afterDot (whole ++ frac ++ exp ++ rest) = .ok (.float bits, rest) := by
  have hexphead : exp ≠ [] → (exp ++ rest).head?.any isExp := fun hne => by
    rcases hexp with rfl | ⟨e, sign, ds, he, -, -, rfl⟩
    · exact absurd rfl hne
    · exact he
  have hexpdigit : ¬ (exp ++ rest).head?.any Char.isDigit := by
    by_cases hnil : exp = []
    · rwa [hnil]
    · have hhead := hexphead hnil
      cases hc : (exp ++ rest).head? with
      | none => simp
      | some c =>
        rw [hc] at hhead
        exact not_isDigit_of_isExp c hhead
  have hnodot : frac = [] → ¬ sawDot (exp ++ rest) := fun hnil hsaw => by
    obtain ⟨d, ds, -, hcs⟩ := sawDot_iff.mp hsaw
    have hhead := hexphead (hfloat hnil)
    rw [hcs] at hhead
    exact absurd (show isExp '.' = true from hhead) (by decide)
  obtain ⟨hskip, hsaw⟩ := skipFraction_run hfrac hnodot hexpdigit
  have hstop : ¬ (frac ++ (exp ++ rest)).head?.any Char.isDigit := by
    rcases hfrac with rfl | ⟨ds, -, rfl⟩
    · exact hexpdigit
    · exact show ¬ Char.isDigit '.' = true by decide
  have hcs : whole ++ frac ++ exp ++ rest = whole ++ (frac ++ (exp ++ rest)) := by simp only [List.append_assoc]
  have htail : (whole ++ frac ++ exp ++ rest).dropWhile Char.isDigit = frac ++ (exp ++ rest) := by
    rw [hcs, dropWhile_run hwhole.2 hstop]
  have hisfloat : sawDot (frac ++ (exp ++ rest)) ∨ (frac ++ (exp ++ rest)).head?.any isExp := by
    by_cases hnil : frac = []
    · right
      rw [hnil]
      exact hexphead (hfloat hnil)
    · exact .inl (hsaw.mpr hnil)
  unfold lexInt
  dsimp only
  rw [htail, if_pos ⟨hdot, hisfloat⟩, lexFloat, hskip, skipExponent_run hexp hmore hnext]
  dsimp only
  rw [take_read, hread]

/-- The integer is read. -/
theorem lexInt_int {digits suffix : List Char} (hdigits : Digits digits) (ht : suffixed digits suffix = .ok t)
    (hnext : ¬ rest.head?.any Char.isAlphanum) (hdot : suffix = [] → ¬ afterDot → ¬ sawDot rest) :
    lexInt F afterDot (digits ++ suffix ++ rest) = .ok (t, rest) := by
  obtain ⟨hexp, hdigit, halnum, hsaw⟩ := suffix_behind (suffix_mem ht) hnext
  have htail : (digits ++ suffix ++ rest).dropWhile Char.isDigit = suffix ++ rest := by
    rw [List.append_assoc, dropWhile_run hdigits.2 hdigit]
  have hread : (digits ++ suffix ++ rest).takeWhile Char.isDigit = digits := by
    rw [List.append_assoc, takeWhile_run hdigits.2 hdigit]
  have hint : ¬ (¬ afterDot ∧ (sawDot (suffix ++ rest) ∨ (suffix ++ rest).head?.any isExp)) := by
    rintro ⟨hafter, hfloat⟩
    refine hfloat.elim (fun hfloat => ?_) hexp
    by_cases hnil : suffix = []
    · rw [hnil] at hfloat
      exact hdot hnil hafter hfloat
    · exact hsaw hnil hfloat
  unfold lexInt
  dsimp only
  rw [htail, if_neg hint, hread, lexSuffix, takeWhile_run halnum hnext, dropWhile_run halnum hnext, ht]

end Number

/-! ### Tokens -/

section Tokens

variable {F : FloatText} {afterDot : Bool} {c : Char} {cs text rest : List Char} {t : Token}

/-- How the operators begin. -/
theorem operator_head : ∀ row ∈ operators, ∃ d ds, row.1 = d :: ds ∧ ¬ isWs d ∧ d ≠ '"' ∧ ¬ d.isDigit ∧
    ¬ isWordStart d ∧ (d = '/' → ds = []) := by
  intro row hrow
  have hall : ∀ row ∈ operators, row.1 ≠ [] ∧ ¬ row.1.head?.any isWs ∧ row.1.head? ≠ some '"' ∧
      ¬ row.1.head?.any Char.isDigit ∧ ¬ row.1.head?.any isWordStart ∧ (row.1.head? = some '/' → row.1.tail = []) := by
    decide
  obtain ⟨hne, hall⟩ := hall row hrow
  obtain ⟨d, ds, hcons⟩ := List.exists_cons_of_ne_nil hne
  rw [hcons] at hall
  exact ⟨d, ds, hcons, by simpa using hall⟩

theorem no_operator (h : c = '"' ∨ c.isDigit ∨ isWordStart c) (cs : List Char) : lexOperator c cs = none := by
  refine lexOperator_eq_none (fun row hrow hhead => ?_) cs
  obtain ⟨d, ds, hcons, -, hquote, hdigit, hword, -⟩ := operator_head row hrow
  rw [hcons, List.head?_cons, Option.some.injEq] at hhead
  subst hhead
  rcases h with h | h | h
  · exact hquote h
  · exact hdigit h
  · exact hword h

theorem not_isWordStart_of_isDigit (h : c.isDigit) : ¬ isWordStart c := by
  have halpha : c.isAlpha = (decide (c.val ≥ 65 ∧ c.val ≤ 90) || (c.val ≥ 97 && c.val ≤ 122)) := rfl
  simp only [isWordStart, halpha, Char.isDigit, Bool.or_eq_true, Bool.and_eq_true, decide_eq_true_eq,
    UInt32.le_iff_toNat_le, ge_iff_le] at h ⊢
  rintro ((⟨hlow, -⟩ | ⟨hlow, -⟩) | rfl)
  · exact absurd (hlow.trans h.2) (by decide)
  · exact absurd (hlow.trans h.2) (by decide)
  · exact absurd h.2 (by decide)

theorem Digits.head {digits : List Char} (h : Digits digits) (htext : c :: cs = digits ++ rest) : c.isDigit := by
  obtain ⟨d, ds, rfl⟩ := List.exists_cons_of_ne_nil h.1
  rw [List.cons_append, List.cons.injEq] at htext
  exact htext.1 ▸ h.2 d List.mem_cons_self

/-- What is read is the spelling of the token. -/
theorem lexeme_of_lexToken (hat : AtToken c cs) (h : lexToken F afterDot c cs = .ok (t, rest)) :
    ∃ text, c :: cs = text ++ rest ∧ Lexeme F afterDot t text rest := by
  unfold lexToken at h
  dsimp only at h
  split at h
  · rename_i r hop
    rw [Except.ok.inj h] at hop
    obtain ⟨text, hmem, hlong, htext⟩ := isOperator_of_lexOperator hop
    refine ⟨text, htext, .operator hmem hlong fun hslash hnext => hat.2 ?_⟩
    rw [hslash, List.singleton_append, List.cons.injEq] at htext
    exact ⟨htext.1, by rw [htext.2]; exact hnext⟩
  · split_ifs at h with hquote hdigit hword
    · cases hs : lexString [] cs with
      | error e => rw [hs] at h; cases h
      | ok r =>
        rw [hs] at h
        obtain ⟨body, s, rest', hbody, rfl, hr⟩ := lexString_iff.mp hs
        rw [hr] at h
        cases h
        exact ⟨'"' :: (body ++ ['"']), by simp [hquote], .string hbody⟩
    · cases hs : lexInt F afterDot (c :: cs) with
      | error e => rw [hs] at h; cases h
      | ok r =>
        rw [hs] at h
        cases h
        exact lexeme_of_lexInt (by simpa using hdigit) hs
    · have hr := Except.ok.inj h
      rw [lexIdent, Prod.mk.injEq] at hr
      have hcs : isWordChar c := by
        simp only [isWordStart, isWordChar, Char.isAlphanum, Bool.or_eq_true] at hword ⊢
        exact hword.imp .inl id
      rw [List.takeWhile_cons_of_pos hcs, List.dropWhile_cons_of_pos hcs] at hr
      obtain ⟨rfl, rfl⟩ := hr
      refine ⟨c :: cs.takeWhile isWordChar, ?_, .word hword (fun d hd => List.mem_takeWhile_imp hd) (dropWhile_stops _ _)⟩
      rw [List.cons_append, List.takeWhile_append_dropWhile]

/-- A spelling is read as its token. -/
theorem Lexeme.read (h : Lexeme F afterDot t text rest) (htext : c :: cs = text ++ rest) :
    lexToken F afterDot c cs = .ok (t, rest) := by
  unfold lexToken
  dsimp only
  cases h with
  | operator h hlong _ => rw [lexOperator_of_longest h hlong htext]
  | string h =>
    rename_i body s
    rw [List.cons_append, List.cons.injEq] at htext
    obtain ⟨rfl, rfl⟩ := htext
    have hs : lexString [] (body ++ ['"'] ++ rest) = .ok (.str (String.ofList s), rest) :=
      lexString_iff.mpr ⟨body, s, rest, h, by simp, rfl⟩
    rw [no_operator (.inl rfl), hs]
    rfl
  | word hc hcs hnext =>
    rename_i d ds
    rw [List.cons_append, List.cons.injEq] at htext
    obtain ⟨rfl, rfl⟩ := htext
    have hword := lexIdent_run hc hcs hnext
    have hquote : c ≠ '"' := fun hq => by rw [hq] at hc; exact absurd hc (by decide)
    have hdigit : ¬ c.isDigit := fun hd => not_isWordStart_of_isDigit hd hc
    rw [no_operator (.inr (.inr hc))]
    dsimp only
    rw [if_neg hquote, if_neg hdigit, if_pos hc, ← List.cons_append, hword]
  | int hdigits ht hnext hdot =>
    have hc : c.isDigit := hdigits.head (by rw [htext, List.append_assoc])
    have hquote : c ≠ '"' := fun hq => by rw [hq] at hc; exact absurd hc (by decide)
    rw [no_operator (.inr (.inl hc))]
    dsimp only
    rw [if_neg hquote, if_pos hc, htext, lexInt_int hdigits ht hnext hdot]
    rfl
  | float hdot hwhole hfrac hexp hfloat hread hnext hmore =>
    have hc : c.isDigit := hwhole.head (by rw [htext, List.append_assoc, List.append_assoc])
    have hquote : c ≠ '"' := fun hq => by rw [hq] at hc; exact absurd hc (by decide)
    rw [no_operator (.inr (.inl hc))]
    dsimp only
    rw [if_neg hquote, if_pos hc, htext, lexInt_float hdot hwhole hfrac hexp hfloat hread hnext hmore]
    rfl

/-- A spelling begins as a token does. -/
theorem Lexeme.start (h : Lexeme F afterDot t text rest) :
    ∃ c cs, text = c :: cs ∧ AtToken c (cs ++ rest) := by
  have hplain : ∀ {d : Char} (ds : List Char), d.isDigit ∨ isWordStart d ∨ d = '"' → AtToken d ds := by
    intro d ds hd
    constructor
    · intro hws
      simp only [isWs, Bool.or_eq_true, decide_eq_true_eq] at hws
      rcases hws with ((rfl | rfl) | rfl) | rfl <;> revert hd <;> decide
    · rintro ⟨rfl, -⟩
      revert hd
      decide
  cases h with
  | operator h _ hcomment =>
    obtain ⟨d, ds, hcons, hws, -, -, -, hslash⟩ := operator_head _ h
    dsimp only at hcons
    subst hcons
    refine ⟨d, ds, rfl, hws, ?_⟩
    rintro ⟨hd, hnext⟩
    rw [hslash hd] at hnext
    exact hcomment (by rw [hd, hslash hd]) hnext
  | string h => exact ⟨'"', _, rfl, hplain _ (.inr (.inr rfl))⟩
  | word hc _ _ => exact ⟨_, _, rfl, hplain _ (.inr (.inl hc))⟩
  | int hdigits _ _ _ =>
    obtain ⟨d, ds, rfl⟩ := List.exists_cons_of_ne_nil hdigits.1
    exact ⟨d, _, rfl, hplain _ (.inl (hdigits.2 d List.mem_cons_self))⟩
  | float _ hwhole _ _ _ _ _ _ =>
    obtain ⟨d, ds, rfl⟩ := List.exists_cons_of_ne_nil hwhole.1
    exact ⟨d, _, rfl, hplain _ (.inl (hwhole.2 d List.mem_cons_self))⟩

end Tokens

/-! ### The loop -/

section Loop

variable {F : FloatText} {done src : List Char} {ts : List Spanned}

theorem move_append (done text rest : List Char) : Lexer.move ⟨done, text ++ rest⟩ rest = ⟨done ++ text, rest⟩ := by
  rw [Lexer.move, take_read]

theorem laid_of_tokenizeFrom {n : ℕ} (h : tokenizeFrom F n ⟨done, src⟩ = .ok ts) : Laid F done src ts := by
  induction n generalizing done src ts with
  | zero => cases h
  | succ n ih =>
    rw [tokenizeFrom] at h
    rcases gapThen_skip src with ⟨hskip, hgap⟩ | ⟨gap, c, cs, hgap, hat, rfl, hskip⟩
    · have hmove : Lexer.move ⟨done, src⟩ [] = ⟨done ++ src, []⟩ := by
        have hall := move_append done src []
        rwa [List.append_nil] at hall
      simp only [hskip, hmove] at h
      rw [← Except.ok.inj h]
      exact .eof hgap
    · simp only [hskip, move_append] at h
      cases ht : lexToken F ((done ++ gap).getLast? = some '.') c cs with
      | error e => simp only [ht] at h; cases h
      | ok r =>
        obtain ⟨t, rest⟩ := r
        obtain ⟨text, htext, hlex⟩ := lexeme_of_lexToken hat ht
        simp only [ht, htext, move_append] at h
        cases hrest : tokenizeFrom F n ⟨done ++ gap ++ text, rest⟩ with
        | error e => rw [hrest] at h; cases h
        | ok out =>
          rw [hrest] at h
          rw [htext, ← Except.ok.inj h, ← List.append_assoc]
          exact .token hgap hlex (ih hrest)

theorem tokenizeFrom_of_laid {n : ℕ} (h : Laid F done src ts) (hn : src.length < n) :
    tokenizeFrom F n ⟨done, src⟩ = .ok ts := by
  induction h generalizing n with
  | @eof done gap hgap =>
    obtain ⟨n, rfl⟩ := Nat.exists_eq_succ_of_ne_zero (Nat.ne_of_gt (Nat.zero_lt_of_lt hn))
    have hmove : Lexer.move ⟨done, gap⟩ [] = ⟨done ++ gap, []⟩ := by
      have hall := move_append done gap []
      rwa [List.append_nil] at hall
    simp only [tokenizeFrom, hgap.skip, hmove]
    rfl
  | @token done gap text rest t ts hgap ht _ ih =>
    obtain ⟨n, rfl⟩ := Nat.exists_eq_succ_of_ne_zero (Nat.ne_of_gt (Nat.zero_lt_of_lt hn))
    obtain ⟨c, cs, rfl, hat⟩ := ht.start
    have hskip : skipWsAndComments (gap ++ (c :: cs) ++ rest) = c :: (cs ++ rest) := by
      rw [skipWsAndComments, List.append_assoc, hgap.skip, List.cons_append, hat.skip]
    have hlen : rest.length < n := by
      simp only [List.length_append, List.length_cons] at hn
      omega
    simp only [tokenizeFrom, hskip]
    rw [List.append_assoc, List.cons_append, move_append]
    have hread := ht.read (rfl : c :: (cs ++ rest) = c :: cs ++ rest)
    simp only [hread, ← List.cons_append, move_append, ih hlen]
    rfl

/-- **The lexer gives tokens at their places exactly for a text that is laid out as those.** -/
theorem tokenize_iff : tokenize F src = .ok ts ↔ Laid F [] src ts :=
  ⟨laid_of_tokenizeFrom, fun h => tokenizeFrom_of_laid h (Nat.lt_succ_self _)⟩

end Loop

end Rend.Syntax
