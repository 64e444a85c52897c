import Rend.Json.Image

/-!
# Reading back the canonical text

Each piece of text that the writer appends is read back by the part of the reader that meets it:
characters of strings, whether escaped or not, numbers, and then values by induction on their structure. A
number ends where a comma or a closing bracket follows, and so does every value.

`parse_canonicalText` is the round trip for the values of JSON texts without floats.
-/

namespace Rend.JsonText

open Lib

/-! ### Characters as bytes -/

/-- The bytes of a character. -/
def charBytes (c : Char) : Bytes := (String.utf8EncodeChar c).map UInt8.toBitVec

/-- The bytes of some characters. -/
def bytesOf (cs : List Char) : Bytes := cs.flatMap charBytes

@[simp] theorem bytesOf_nil : bytesOf [] = [] := rfl

@[simp] theorem bytesOf_cons (c : Char) (cs : List Char) : bytesOf (c :: cs) = charBytes c ++ bytesOf cs := rfl

@[simp] theorem bytesOf_append (cs cs' : List Char) : bytesOf (cs ++ cs') = bytesOf cs ++ bytesOf cs' :=
  List.flatMap_append

theorem strBytes_ofList (cs : List Char) : strBytes (String.ofList cs) = bytesOf cs := by
  have hencode : (String.ofList cs).toUTF8 = cs.utf8Encode := by
    rw [String.toUTF8_eq_toByteArray, String.toByteArray_ofList]
  have hdata : cs.utf8Encode.data.toList = cs.flatMap String.utf8EncodeChar := by
    simp [List.utf8Encode]
  rw [strBytes, hencode, hdata, List.map_flatMap]
  rfl

theorem strOfBytes_bytesOf (cs : List Char) : strOfBytes (bytesOf cs) = some (String.ofList cs) := by
  rw [← strBytes_ofList, strOfBytes_strBytes]

/-- An ASCII character is one byte. -/
theorem charBytes_ascii {c : Char} (h : c.toNat < 0x80) : charBytes c = [ascii c] := by
  have hle : c.val.toNat ≤ 0x7f := Nat.le_of_lt_succ h
  unfold charBytes String.utf8EncodeChar
  rw [if_pos hle]
  rfl

theorem toNat_toBitVec (n : ℕ) (h : n < 256) : (UInt8.ofNat n).toBitVec.toNat = n := by
  change n % 256 = n
  omega

theorem utf8Len_of_range {b : Byte} {n : ℕ} (h : n = 2 ∧ 0xc0 ≤ b.toNat ∧ b.toNat < 0xe0 ∨
    n = 3 ∧ 0xe0 ≤ b.toNat ∧ b.toNat < 0xf0 ∨ n = 4 ∧ 0xf0 ≤ b.toNat) : utf8Len b = n := by
  unfold utf8Len
  simp only [BitVec.lt_def, BitVec.toNat_ofNat]
  split_ifs <;> omega

/-- The first byte of any other character tells how many follow. -/
theorem charBytes_multi {c : Char} (h : 0x80 ≤ c.toNat) :
    ∃ b tail, charBytes c = b :: tail ∧ 0xc0 ≤ b.toNat ∧ utf8Len b = tail.length + 1 := by
  have hval : c.val.toNat = c.toNat := rfl
  unfold charBytes String.utf8EncodeChar
  rw [if_neg (by omega)]
  split_ifs
  · have hb := toNat_toBitVec (c.val.toNat / 64 % 0x20 + 0xc0) (by omega)
    exact ⟨_, _, rfl, by omega, utf8Len_of_range (.inl ⟨rfl, by omega, by omega⟩)⟩
  · have hb := toNat_toBitVec (c.val.toNat / 4096 % 0x10 + 0xe0) (by omega)
    exact ⟨_, _, rfl, by omega, utf8Len_of_range (.inr (.inl ⟨rfl, by omega, by omega⟩))⟩
  · have hb := toNat_toBitVec (c.val.toNat / 262144 % 0x08 + 0xf0) (by omega)
    exact ⟨_, _, rfl, by omega, utf8Len_of_range (.inr (.inr ⟨rfl, by omega⟩))⟩

/-! ### The pieces of a string -/

@[simp] theorem advance_cons (d r : Bytes) (b : Byte) : Parser.advance ⟨d, b :: r⟩ = (some b, ⟨d ++ [b], r⟩) := rfl

@[simp] theorem peek_cons (d r : Bytes) (b : Byte) : Parser.peek ⟨d, b :: r⟩ = some b := rfl

theorem advanceN_append (tail d r : Bytes) : advanceN tail.length ⟨d, tail ++ r⟩ = .ok ⟨d ++ tail, r⟩ := by
  induction tail generalizing d with
  | nil => simp [advanceN]
  | cons b tail ih =>
    rw [List.length_cons, advanceN, List.cons_append, advance_cons]
    dsimp only
    rw [ih, List.append_assoc]
    rfl

theorem push_eq_append (s : String) (c : Char) : s ++ String.ofList [c] = s.push c := by
  apply String.toList_inj.mp
  simp

/-- The bytes of one character are a string of it. -/
theorem strOfBytes_charBytes (c : Char) : strOfBytes (charBytes c) = some (String.ofList [c]) := by
  have hone := strOfBytes_bytesOf [c]
  rwa [bytesOf_cons, bytesOf_nil, List.append_nil] at hone

theorem toNat_ascii {c : Char} (h : c.toNat < 0x80) : (ascii c).toNat = c.toNat := by
  rw [ascii, BitVec.toNat_ofNat]
  omega

theorem ascii_inj {c c' : Char} (h : c.toNat < 0x80) (h' : c'.toNat < 0x80) (heq : ascii c = ascii c') : c = c' := by
  have hnat : (ascii c).toNat = (ascii c').toNat := congrArg BitVec.toNat heq
  rw [toNat_ascii h, toNat_ascii h'] at hnat
  exact Char.toNat_inj.mp hnat

/-- What the reader of strings sees of a character that is not escaped. -/
theorem charBytes_plain {c : Char} (hq : c ≠ '"') (hb : c ≠ '\\') (hctl : ¬ c.toNat < 0x20) :
    ∃ b tail, charBytes c = b :: tail ∧ b ≠ ascii '"' ∧ b ≠ ascii '\\' ∧ ¬ b < 0x20#8 ∧
      utf8Len b = tail.length + 1 := by
  by_cases hone : c.toNat < 0x80
  · have hnat := toNat_ascii hone
    refine ⟨ascii c, [], charBytes_ascii hone, fun h => hq (ascii_inj hone (by decide) h),
      fun h => hb (ascii_inj hone (by decide) h), ?_, ?_⟩
    · rw [BitVec.lt_def, hnat]
      exact hctl
    · unfold utf8Len
      rw [if_pos (by rw [BitVec.lt_def, hnat]; exact hone)]
      rfl
  · obtain ⟨b, tail, hbytes, hlarge, hlen⟩ := charBytes_multi (not_lt.mp hone)
    refine ⟨b, tail, hbytes, ?_, ?_, ?_, hlen⟩
    · rintro rfl
      exact absurd hlarge (by decide)
    · rintro rfl
      exact absurd hlarge (by decide)
    · rw [BitVec.lt_def]
      change ¬ b.toNat < 0x20
      omega

/-- A character that is written as it is. -/
theorem stringLoop_char {c : Char} (hq : c ≠ '"') (hb : c ≠ '\\') (hctl : ¬ c.toNat < 0x20) (n : ℕ) (d r : Bytes)
    (out : String) :
    stringLoop (n + 1) ⟨d, charBytes c ++ r⟩ out = stringLoop n ⟨d ++ charBytes c, r⟩ (out.push c) := by
  obtain ⟨b, tail, hbytes, hquote, hslash, hctl', hlen⟩ := charBytes_plain hq hb hctl
  have hstr := strOfBytes_charBytes c
  have hread : (d ++ [b] ++ tail).drop d.length = b :: tail := by
    rw [List.append_assoc, List.drop_left]
    rfl
  rw [hbytes] at hstr ⊢
  rw [stringLoop, List.cons_append, advance_cons]
  dsimp only
  rw [if_neg hquote, if_neg hslash, if_neg hctl', hlen, Nat.add_sub_cancel, advanceN_append]
  dsimp only [bind, Except.bind, Parser.pos]
  rw [hread, hstr, ← push_eq_append, List.append_assoc]
  rfl

/-- A backslash and what follows it. -/
theorem stringLoop_escape {c : Char} {w : Bytes} {d r : Bytes}
    (h : parseEscape ⟨d ++ [ascii '\\'], w ++ r⟩ = .ok (c, ⟨d ++ [ascii '\\'] ++ w, r⟩)) (n : ℕ) (out : String) :
    stringLoop (n + 1) ⟨d, ascii '\\' :: (w ++ r)⟩ out =
      stringLoop n ⟨d ++ ascii '\\' :: w, r⟩ (out.push c) := by
  rw [stringLoop, advance_cons]
  dsimp only
  rw [if_neg (by decide), if_pos rfl, h]
  dsimp only [bind, Except.bind]
  rw [List.append_assoc]
  rfl

theorem hexDigits_append {w : Bytes} {vs : List ℕ} (h : w.mapM hexVal = some vs) (hex : ℕ) (d r : Bytes) :
    hexDigits w.length hex ⟨d, w ++ r⟩ = .ok (vs.foldl (fun hex v => hex <<< 4 ||| v) hex, ⟨d ++ w, r⟩) := by
  induction w generalizing vs hex d with
  | nil =>
    cases h
    simp [hexDigits]
  | cons b w ih =>
    rw [List.mapM_cons] at h
    obtain ⟨v, hv, h⟩ := Option.bind_eq_some_iff.mp h
    obtain ⟨vs', hvs, h⟩ := Option.bind_eq_some_iff.mp h
    cases h
    rw [List.length_cons, hexDigits, List.cons_append, advance_cons]
    dsimp only
    rw [hv]
    dsimp only
    rw [ih hvs, List.append_assoc]
    rfl

/-- The digits of a control character. -/
theorem hex4_digits : ∀ n < 0x20, (bytesOf (hex4 n)).length = 4 ∧
    (bytesOf (hex4 n)).mapM hexVal = some [0, 0, n / 16, n % 16] := by
  decide +kernel

theorem unicodeEscape_hex4 {c : Char} (h : c.toNat < 0x20) (d r : Bytes) :
    unicodeEscape ⟨d, bytesOf (hex4 c.toNat) ++ r⟩ = .ok (c, ⟨d ++ bytesOf (hex4 c.toNat), r⟩) := by
  obtain ⟨hlen, hdigits⟩ := hex4_digits c.toNat h
  have hread := hexDigits_append hdigits 0 d r
  have hvalue : ∀ n < 0x20, [0, 0, n / 16, n % 16].foldl (fun hex v => hex <<< 4 ||| v) 0 = n := by decide
  have hchar : charFromU32 c.toNat = some c := by
    rw [charFromU32, if_pos (.inl (by omega)), Char.ofNat_toNat]
  rw [hlen, hvalue _ h] at hread
  rw [unicodeEscape, hread]
  dsimp only [bind, Except.bind]
  rw [hchar]
  rfl

/-- One character, in whichever way it is written. -/
theorem stringLoop_one (c : Char) (n : ℕ) (d r : Bytes) (out : String) :
    stringLoop (n + 1) ⟨d, bytesOf (escape c) ++ r⟩ out =
      stringLoop n ⟨d ++ bytesOf (escape c), r⟩ (out.push c) := by
  unfold escape
  split_ifs with hq hb hn hr ht hctl
  · subst hq
    exact stringLoop_escape (w := [ascii '"']) rfl n out
  · subst hb
    exact stringLoop_escape (w := [ascii '\\']) rfl n out
  · subst hn
    exact stringLoop_escape (w := [ascii 'n']) rfl n out
  · subst hr
    exact stringLoop_escape (w := [ascii 'r']) rfl n out
  · subst ht
    exact stringLoop_escape (w := [ascii 't']) rfl n out
  · have hunicode := unicodeEscape_hex4 hctl (d ++ [ascii '\\'] ++ [ascii 'u']) r
    refine stringLoop_escape (w := ascii 'u' :: bytesOf (hex4 c.toNat)) ?_ n out
    rw [List.append_assoc (d ++ [ascii '\\'])] at hunicode
    exact hunicode
  · have hone : bytesOf [c] = charBytes c := List.append_nil _
    rw [hone]
    exact stringLoop_char hq hb hctl n d r out

theorem length_charBytes (c : Char) : 1 ≤ (charBytes c).length := by
  rw [charBytes, List.length_map, String.length_utf8EncodeChar]
  exact c.utf8Size_pos

theorem length_le_bytesOf (cs : List Char) : cs.length ≤ (bytesOf cs).length := by
  induction cs with
  | nil => exact le_rfl
  | cons c cs ih =>
    have hc := length_charBytes c
    rw [bytesOf_cons, List.length_append, List.length_cons]
    omega

theorem escape_ne_nil (c : Char) : escape c ≠ [] := by
  unfold escape
  split_ifs <;> simp

theorem length_le_escaped (cs : List Char) : cs.length ≤ (bytesOf (cs.flatMap escape)).length := by
  induction cs with
  | nil => exact le_rfl
  | cons c cs ih =>
    have hpos : 0 < (escape c).length := List.length_pos_of_ne_nil (escape_ne_nil c)
    have hc := length_le_bytesOf (escape c)
    rw [List.flatMap_cons, bytesOf_append, List.length_append, List.length_cons]
    omega

theorem stringLoop_chars (cs : List Char) {n : ℕ} (hn : cs.length < n) (d r : Bytes) (out : String) :
    stringLoop n ⟨d, bytesOf (cs.flatMap escape) ++ ascii '"' :: r⟩ out =
      .ok (out ++ String.ofList cs, ⟨d ++ bytesOf (cs.flatMap escape) ++ [ascii '"'], r⟩) := by
  induction cs generalizing n d out with
  | nil =>
    obtain _ | n := n
    · exact absurd hn (Nat.not_lt_zero _)
    · simp [stringLoop]
  | cons c cs ih =>
    obtain _ | n := n
    · exact absurd hn (Nat.not_lt_zero _)
    · have hpush : out.push c ++ String.ofList cs = out ++ String.ofList (c :: cs) := by
        apply String.toList_inj.mp
        simp
      rw [List.flatMap_cons, bytesOf_append, List.append_assoc, stringLoop_one, ih (Nat.lt_of_succ_lt_succ hn), hpush]
      simp only [List.append_assoc]

/-- A string literal is read back. -/
theorem parseString_writeString (s : String) (d r : Bytes) :
    parseString ⟨d, bytesOf (writeString s) ++ r⟩ = .ok (s, ⟨d ++ bytesOf (writeString s), r⟩) := by
  have hbytes : bytesOf (writeString s) = ascii '"' :: (bytesOf (s.toList.flatMap escape) ++ [ascii '"']) := by
    rw [writeString, bytesOf_append, bytesOf_cons]
    rfl
  have hfuel : s.toList.length < (bytesOf (s.toList.flatMap escape) ++ ascii '"' :: r).length + 1 := by
    have hle := length_le_escaped s.toList
    rw [List.length_append]
    omega
  have hloop := stringLoop_chars s.toList hfuel (d ++ [ascii '"']) r ""
  rw [hbytes, parseString, List.cons_append, advance_cons, List.append_assoc]
  dsimp only [List.cons_append, List.nil_append]
  rw [if_neg (fun h => h rfl), hloop]
  simp [List.append_assoc]

/-! ### Numbers -/

/-- What follows a value in a text: nothing, a comma or a closing bracket. -/
def Ends (r : Bytes) : Prop := ∀ b ∈ r.head?, b = ascii ',' ∨ b = ascii ']' ∨ b = ascii '}'

theorem skipWhile_append {q : Byte → Bool} {w : Bytes} (hw : ∀ b ∈ w, q b = true) {r : Bytes}
    (hr : ∀ b ∈ r.head?, q b = false) (d : Bytes) : Parser.skipWhile q d (w ++ r) = ⟨d ++ w, r⟩ := by
  induction w generalizing d with
  | nil =>
    cases r with
    | nil => simp [Parser.skipWhile]
    | cons b r =>
      rw [List.nil_append, Parser.skipWhile, if_neg (by rw [hr b rfl]; exact Bool.false_ne_true), List.append_nil]
  | cons b w ih =>
    rw [List.cons_append, Parser.skipWhile, if_pos (hw b List.mem_cons_self),
      ih fun c hc => hw c (List.mem_cons_of_mem _ hc), List.append_assoc]
    rfl

theorem Ends.not_digit {r : Bytes} (h : Ends r) : ∀ b ∈ r.head?, Parser.isDigit b = false := by
  intro b hb
  rcases h b hb with rfl | rfl | rfl <;> decide

theorem Ends.peek_ne {r : Bytes} (h : Ends r) (d : Bytes) {c : Byte} (hc : c ≠ ascii ',' ∧ c ≠ ascii ']' ∧ c ≠ ascii '}') :
    Parser.peek ⟨d, r⟩ ≠ some c := by
  intro hpeek
  rcases h c hpeek with rfl | rfl | rfl
  · exact hc.1 rfl
  · exact hc.2.1 rfl
  · exact hc.2.2 rfl

theorem isDigit_ascii {c : Char} (h : c.isDigit = true) : c.toNat < 0x80 ∧ Parser.isDigit (ascii c) = true := by
  obtain ⟨hlo, hhi⟩ : 48 ≤ c.toNat ∧ c.toNat ≤ 57 := by
    simpa [Char.isDigit, UInt32.le_iff_toNat_le] using h
  have hnat : (ascii c).toNat = c.toNat := toNat_ascii (by omega)
  refine ⟨by omega, ?_⟩
  have hlo' : ascii '0' ≤ ascii c := by
    rw [BitVec.le_def, hnat]
    exact hlo
  have hhi' : ascii c ≤ ascii '9' := by
    rw [BitVec.le_def, hnat]
    exact hhi
  simp [Parser.isDigit, hlo', hhi']

theorem bytesOf_digits {ds : List Char} (h : ∀ c ∈ ds, c.isDigit = true) : bytesOf ds = ds.map ascii := by
  induction ds with
  | nil => rfl
  | cons c ds ih =>
    have hc := charBytes_ascii (isDigit_ascii (h c List.mem_cons_self)).1
    rw [bytesOf_cons, hc, ih fun c' hc' => h c' (List.mem_cons_of_mem _ hc')]
    rfl

theorem digitsVal_ascii {ds : List Char} (h : ∀ c ∈ ds, c.isDigit = true) :
    digitsVal (ds.map ascii) = Nat.ofDigitChars 10 ds 0 := by
  rw [digitsVal, Nat.ofDigitChars_eq_foldl, List.foldl_map]
  refine List.foldl_ext _ _ 0 fun acc c hc => ?_
  rw [toNat_ascii (isDigit_ascii (h c hc)).1]
  rfl

/-- The decimal digits of a number and its sign. -/
theorem writeInt_digits (n : ℤ) : ∃ ds : List Char, ds ≠ [] ∧ (∀ c ∈ ds, c.isDigit = true) ∧
    Nat.ofDigitChars 10 ds 0 = n.natAbs ∧ writeInt n = if n < 0 then '-' :: ds else ds := by
  refine ⟨Nat.toDigits 10 n.natAbs, Nat.toDigits_ne_nil,
    fun c hc => Nat.isDigit_of_mem_toDigits (by decide) (by decide) hc, Nat.ofDigitChars_ten_toDigits, ?_⟩
  cases n with
  | ofNat m =>
    have hnot : ¬ Int.ofNat m < 0 := not_lt.mpr (Int.natCast_nonneg m)
    rw [if_neg hnot]
    exact Nat.toList_repr
  | negSucc m =>
    rw [if_pos (Int.negSucc_lt_zero m)]
    change ("-" ++ (m + 1).repr).toList = _
    rw [String.toList_append, Nat.toList_repr]
    rfl

theorem ne_minus_of_isDigit {b : Byte} (h : Parser.isDigit b = true) : b ≠ ascii '-' := by
  rintro rfl
  exact absurd h (by decide)

/-- The digits of a number after its sign, if it has one. -/
theorem parseNumber_append (F : FloatText) {n : ℤ} {sign w : Bytes} (hsign : sign = [] ∨ sign = [ascii '-'])
    (hne : w ≠ []) (hw : ∀ b ∈ w, Parser.isDigit b = true) (hread : readInt (sign ++ w) = some n) {s : String}
    (hs : strOfBytes (sign ++ w) = some s) {r : Bytes} (hr : Ends r) (d : Bytes) :
    parseNumber F ⟨d, sign ++ w ++ r⟩ = .ok (.int n, ⟨d ++ (sign ++ w), r⟩) := by
  have hint : (if Parser.peek ⟨d, sign ++ w ++ r⟩ = some (ascii '-') then (Parser.advance ⟨d, sign ++ w ++ r⟩).2
      else ⟨d, sign ++ w ++ r⟩) = ⟨d ++ sign, w ++ r⟩ := by
    rcases hsign with rfl | rfl
    · obtain ⟨b, w', rfl⟩ := List.exists_cons_of_ne_nil hne
      have hb := ne_minus_of_isDigit (hw b List.mem_cons_self)
      rw [List.nil_append, List.cons_append, peek_cons, if_neg (by simpa using hb), List.append_nil]
    · rfl
  have hdigits : Parser.skipDigits ⟨d ++ sign, w ++ r⟩ = ⟨d ++ sign ++ w, r⟩ :=
    skipWhile_append hw hr.not_digit (d ++ sign)
  have hmoved : (⟨d ++ sign, w ++ r⟩ : Parser).pos ≠ (⟨d ++ sign ++ w, r⟩ : Parser).pos := by
    have hpos : 0 < w.length := List.length_pos_of_ne_nil hne
    simp only [Parser.pos, List.length_append]
    omega
  have hfraction : skipFraction ⟨d ++ sign ++ w, r⟩ = .ok (false, ⟨d ++ sign ++ w, r⟩) :=
    if_neg (hr.peek_ne _ (by decide))
  have hexponent : skipExponent ⟨d ++ sign ++ w, r⟩ = .ok (false, ⟨d ++ sign ++ w, r⟩) :=
    if_neg (not_or.mpr ⟨hr.peek_ne _ (by decide), hr.peek_ne _ (by decide)⟩)
  have hread' : (d ++ sign ++ w).drop d.length = sign ++ w := by rw [List.append_assoc, List.drop_left]
  rw [parseNumber, hint, hdigits]
  dsimp only
  rw [if_neg hmoved, hfraction]
  dsimp only [bind, Except.bind]
  rw [hexponent]
  dsimp only [Parser.pos]
  rw [hread', hs, hread, List.append_assoc]
  rfl

/-- A number is read back when no digit, fraction or exponent follows. -/
theorem parseNumber_writeInt (F : FloatText) (n : ℤ) {r : Bytes} (hr : Ends r) (d : Bytes) :
    parseNumber F ⟨d, bytesOf (writeInt n) ++ r⟩ = .ok (.int n, ⟨d ++ bytesOf (writeInt n), r⟩) := by
  obtain ⟨ds, hne, hds, hvalue, hwrite⟩ := writeInt_digits n
  have hbytes := bytesOf_digits hds
  have hval : digitsVal (ds.map ascii) = n.natAbs := (digitsVal_ascii hds).trans hvalue
  have hne' : ds.map ascii ≠ [] := fun h => hne (List.map_eq_nil_iff.mp h)
  have hw : ∀ b ∈ ds.map ascii, Parser.isDigit b = true := by
    intro b hb
    obtain ⟨c, hc, rfl⟩ := List.mem_map.mp hb
    exact (isDigit_ascii (hds c hc)).2
  have hall : (ds.map ascii).all Parser.isDigit = true := List.all_eq_true.mpr hw
  have hs := strOfBytes_bytesOf (writeInt n)
  by_cases hneg : n < 0
  · have hw' : bytesOf (writeInt n) = [ascii '-'] ++ ds.map ascii := by
      rw [hwrite, if_pos hneg, bytesOf_cons, hbytes]
      rfl
    have hread : readInt ([ascii '-'] ++ ds.map ascii) = some n := by
      simp [readInt, hne, hall, hval, abs_of_neg hneg]
    rw [hw'] at hs ⊢
    exact parseNumber_append F (.inr rfl) hne' hw hread hs hr d
  · have hw' : bytesOf (writeInt n) = [] ++ ds.map ascii := by
      rw [hwrite, if_neg hneg, hbytes]
      rfl
    have hread : readInt ([] ++ ds.map ascii) = some n := by
      obtain ⟨b, w, hbw⟩ := List.exists_cons_of_ne_nil hne'
      have hb : b ≠ ascii '-' := ne_minus_of_isDigit (hw b (hbw ▸ List.mem_cons_self))
      have hn : ((n.natAbs : ℕ) : ℤ) = n := by omega
      rw [hbw] at hall hval ⊢
      simp only [readInt, List.nil_append, List.head?_cons, Option.some.injEq, if_neg hb, hall, hval]
      simp [hn]
    rw [hw'] at hs ⊢
    exact parseNumber_append F (.inl rfl) hne' hw hread hs hr d

/-! ### Values -/

/-- The values of JSON texts that hold no float. -/
inductive Plain : Value → Prop
  | null : Plain (.json .null)
  | bool (b : Bool) : Plain (.bool b)
  | int (n : ℤ) : Plain (.int n)
  | str (s : String) : Plain (.str s)
  | array {items : List Value} (h : ∀ v ∈ items, Plain v) : Plain (.json (.array items))
  | object {fields : List (String × Value)} (hkeys : (fields.map Prod.fst).Nodup)
      (h : ∀ f ∈ fields, Plain f.2) : Plain (.json (.object fields))

theorem skipWs_cons {b : Byte} (h : Parser.isWs b = false) (d r : Bytes) :
    Parser.skipWs ⟨d, b :: r⟩ = ⟨d, b :: r⟩ := by
  rw [Parser.skipWs, Parser.skipWhile, if_neg (by rw [h]; exact Bool.false_ne_true)]

theorem isDigit_ne {b c : Byte} (hb : Parser.isDigit b = true) (hc : Parser.isDigit c = false) : b ≠ c := by
  rintro rfl
  exact Bool.false_ne_true (hc.symm.trans hb)

/-- A number starts with a digit or a minus sign. -/
theorem writeInt_cons (n : ℤ) :
    ∃ b w, bytesOf (writeInt n) = b :: w ∧ (b = ascii '-' ∨ Parser.isDigit b = true) := by
  obtain ⟨ds, hne, hds, -, hwrite⟩ := writeInt_digits n
  split_ifs at hwrite
  · exact ⟨ascii '-', bytesOf ds, by rw [hwrite, bytesOf_cons]; rfl, .inl rfl⟩
  · obtain ⟨c, cs, rfl⟩ := List.exists_cons_of_ne_nil hne
    have hc := isDigit_ascii (hds c List.mem_cons_self)
    exact ⟨ascii c, bytesOf cs, by rw [hwrite, bytesOf_cons, charBytes_ascii hc.1]; rfl, .inr hc.2⟩

/-- A value of JSON text starts with a byte that is neither white space nor a closing bracket. -/
theorem bytesOf_write_cons (F : FloatText) {v : Value} (hv : Plain v) :
    ∃ b w, bytesOf (writeCanonicalValue F v) = b :: w ∧ Parser.isWs b = false ∧ b ≠ ascii ']' := by
  cases hv with
  | null => exact ⟨ascii 'n', _, rfl, by decide, by decide⟩
  | bool b =>
    cases b
    · exact ⟨ascii 'f', _, rfl, by decide, by decide⟩
    · exact ⟨ascii 't', _, rfl, by decide, by decide⟩
  | int n =>
    obtain ⟨b, w, hbw, hb | hb⟩ := writeInt_cons n
    · exact ⟨b, w, hbw, by rw [hb]; decide, by rw [hb]; decide⟩
    · refine ⟨b, w, hbw, ?_, isDigit_ne hb (by decide)⟩
      simp [Parser.isWs, isDigit_ne hb (c := ascii ' ') (by decide), isDigit_ne hb (c := ascii '\t') (by decide),
        isDigit_ne hb (c := ascii '\n') (by decide), isDigit_ne hb (c := ascii '\r') (by decide)]
  | str s => exact ⟨ascii '"', _, rfl, by decide, by decide⟩
  | @array items h =>
    cases items
    · exact ⟨ascii '[', _, rfl, by decide, by decide⟩
    · exact ⟨ascii '[', _, rfl, by decide, by decide⟩
  | @object fields hkeys h =>
    cases fields
    · exact ⟨ascii '{', _, rfl, by decide, by decide⟩
    · exact ⟨ascii '{', _, rfl, by decide, by decide⟩

/-- `parseValue` reads what is written for a value, whatever has been read before, where a value can end. -/
def ReadBack (F : FloatText) (v : Value) : Prop :=
  ∀ ⦃n : ℕ⦄ ⦃r : Bytes⦄ (d : Bytes), 2 * (bytesOf (writeCanonicalValue F v)).length < n → Ends r →
    parseValue F n ⟨d, bytesOf (writeCanonicalValue F v) ++ r⟩ =
      .ok (v, ⟨d ++ bytesOf (writeCanonicalValue F v), r⟩)

theorem expectAll_append (lit : String) (cs d r : Bytes) : expectAll lit cs ⟨d, cs ++ r⟩ = .ok ⟨d ++ cs, r⟩ := by
  induction cs generalizing d with
  | nil => simp [expectAll]
  | cons c cs ih =>
    rw [expectAll, List.cons_append, advance_cons]
    dsimp only
    rw [if_neg (fun h => h rfl), ih, List.append_assoc]
    rfl

theorem parseLit_append (lit : String) (v : Value) (d r : Bytes) :
    parseLit lit v ⟨d, bytesOf lit.toList ++ r⟩ = .ok (v, ⟨d ++ bytesOf lit.toList, r⟩) := by
  have hbytes : strBytes lit = bytesOf lit.toList := by rw [← strBytes_ofList, String.ofList_toList]
  rw [parseLit, hbytes, expectAll_append]
  rfl

/-- What `parseValue` does at a byte that is not white space. -/
theorem parseValue_cons (F : FloatText) (n : ℕ) {b : Byte} (hb : Parser.isWs b = false) (d r : Bytes) :
    parseValue F (n + 1) ⟨d, b :: r⟩ =
      if b = ascii 'n' then parseLit "null" (.json .null) ⟨d, b :: r⟩
      else if b = ascii 't' then parseLit "true" (.bool true) ⟨d, b :: r⟩
      else if b = ascii 'f' then parseLit "false" (.bool false) ⟨d, b :: r⟩
      else if b = ascii '"' then (parseString ⟨d, b :: r⟩).bind fun s => .ok (.str s.1, s.2)
      else if b = ascii '[' then (parseArray (arrayLoop F n) ⟨d, b :: r⟩).bind fun j => .ok (.json j.1, j.2)
      else if b = ascii '{' then (parseObject (objectLoop F n) ⟨d, b :: r⟩).bind fun j => .ok (.json j.1, j.2)
      else if b = ascii '-' ∨ Parser.isDigit b then parseNumber F ⟨d, b :: r⟩
      else .error (Parser.err ⟨d, b :: r⟩ ("unexpected byte " ++ toString b.toNat)) := by
  rw [parseValue, skipWs_cons hb]
  rfl

theorem parseValue_bracket (F : FloatText) (n : ℕ) (d r : Bytes) :
    parseValue F (n + 1) ⟨d, ascii '[' :: r⟩ =
      (parseArray (arrayLoop F n) ⟨d, ascii '[' :: r⟩).bind fun j => .ok (.json j.1, j.2) :=
  parseValue_cons F n (by decide) d r

theorem parseValue_brace (F : FloatText) (n : ℕ) (d r : Bytes) :
    parseValue F (n + 1) ⟨d, ascii '{' :: r⟩ =
      (parseObject (objectLoop F n) ⟨d, ascii '{' :: r⟩).bind fun j => .ok (.json j.1, j.2) :=
  parseValue_cons F n (by decide) d r

theorem readBack_null (F : FloatText) : ReadBack F (.json .null) := by
  intro n r d hn _
  obtain _ | n := n
  · exact absurd hn (Nat.not_lt_zero _)
  · exact (parseValue_cons F n (b := ascii 'n') (by decide) d _).trans (parseLit_append "null" (.json .null) d r)

theorem readBack_bool (F : FloatText) (b : Bool) : ReadBack F (.bool b) := by
  intro n r d hn _
  obtain _ | n := n
  · exact absurd hn (Nat.not_lt_zero _)
  cases b with
  | false => exact (parseValue_cons F n (b := ascii 'f') (by decide) d _).trans (parseLit_append "false" (.bool false) d r)
  | true => exact (parseValue_cons F n (b := ascii 't') (by decide) d _).trans (parseLit_append "true" (.bool true) d r)

theorem readBack_str (F : FloatText) (s : String) : ReadBack F (.str s) := by
  intro n r d hn _
  obtain _ | n := n
  · exact absurd hn (Nat.not_lt_zero _)
  have hread := parseString_writeString s d r
  refine (parseValue_cons F n (b := ascii '"') (by decide) d _).trans ?_
  change (parseString ⟨d, bytesOf (writeString s) ++ r⟩).bind _ = _
  rw [hread]
  rfl

theorem readBack_int (F : FloatText) (n : ℤ) : ReadBack F (.int n) := by
  intro k r d hk hr
  obtain _ | k := k
  · exact absurd hk (Nat.not_lt_zero _)
  have hread := parseNumber_writeInt F n hr d
  change parseValue F (k + 1) ⟨d, bytesOf (writeInt n) ++ r⟩ = .ok (.int n, ⟨d ++ bytesOf (writeInt n), r⟩)
  obtain ⟨b, w, hbw, hb⟩ := writeInt_cons n
  have hplain := bytesOf_write_cons F (.int n)
  obtain ⟨b', w', hbw', hws, -⟩ := hplain
  obtain ⟨rfl, rfl⟩ : b = b' ∧ w = w' := by
    have hcons : b :: w = b' :: w' := hbw.symm.trans hbw'
    exact List.cons.inj hcons
  have hne : ∀ c : Byte, c ≠ ascii '-' → Parser.isDigit c = false → b ≠ c := by
    intro c hminus hc
    rcases hb with rfl | hb
    · exact hminus.symm
    · exact isDigit_ne hb hc
  rw [hbw] at hread ⊢
  rw [List.cons_append, parseValue_cons F k hws, if_neg (hne _ (by decide) (by decide)),
    if_neg (hne _ (by decide) (by decide)), if_neg (hne _ (by decide) (by decide)),
    if_neg (hne _ (by decide) (by decide)), if_neg (hne _ (by decide) (by decide)),
    if_neg (hne _ (by decide) (by decide)), if_pos hb]
  exact hread

/-! ### Arrays and objects -/

theorem ends_comma (r : Bytes) : Ends (ascii ',' :: r) := fun _ hb => .inl (Option.mem_some_iff.mp hb).symm

theorem ends_bracket (r : Bytes) : Ends (ascii ']' :: r) := fun _ hb => .inr (.inl (Option.mem_some_iff.mp hb).symm)

theorem ends_brace (r : Bytes) : Ends (ascii '}' :: r) := fun _ hb => .inr (.inr (Option.mem_some_iff.mp hb).symm)

theorem bytesOf_ascii_cons {c : Char} (h : c.toNat < 0x80) (cs : List Char) : bytesOf (c :: cs) = ascii c :: bytesOf cs := by
  rw [bytesOf_cons, charBytes_ascii h]
  rfl

/-- No white space and no closing bracket stands before the items of an array. -/
theorem skipItems (F : FloatText) {v : Value} (hv : Plain v) (vs : List Value) (d r : Bytes) :
    Parser.skipWs ⟨d, bytesOf (writeCanonicalValue F v ++ writeItems F vs ++ [']']) ++ r⟩ =
        ⟨d, bytesOf (writeCanonicalValue F v ++ writeItems F vs ++ [']']) ++ r⟩ ∧
      Parser.peek ⟨d, bytesOf (writeCanonicalValue F v ++ writeItems F vs ++ [']']) ++ r⟩ ≠ some (ascii ']') := by
  obtain ⟨b, w, hbw, hws, hb⟩ := bytesOf_write_cons F hv
  rw [bytesOf_append, bytesOf_append, hbw, List.cons_append, List.cons_append, List.cons_append, skipWs_cons hws,
    peek_cons]
  exact ⟨rfl, by simpa using hb⟩

/-- The items of an array are read back one after the other. -/
theorem arrayLoop_items (F : FloatText) {v : Value} {vs : List Value} (hplain : ∀ w ∈ v :: vs, Plain w)
    (hread : ∀ w ∈ v :: vs, ReadBack F w) {n : ℕ}
    (hn : 2 * (bytesOf (writeCanonicalValue F v ++ writeItems F vs ++ [']'])).length + 1 < n) (d r : Bytes)
    (items : List Value) :
    arrayLoop F n ⟨d, bytesOf (writeCanonicalValue F v ++ writeItems F vs ++ [']']) ++ r⟩ items =
      .ok (.array (items ++ v :: vs),
        ⟨d ++ bytesOf (writeCanonicalValue F v ++ writeItems F vs ++ [']']), r⟩) := by
  induction vs generalizing v n d items with
  | nil =>
    obtain _ | n := n
    · exact absurd hn (Nat.not_lt_zero _)
    have hbytes : bytesOf (writeCanonicalValue F v ++ writeItems F [] ++ [']']) =
        bytesOf (writeCanonicalValue F v) ++ [ascii ']'] := by
      simp [writeItems, bytesOf_ascii_cons (c := ']') (by decide)]
    rw [hbytes, List.length_append] at hn
    have hv := hread v List.mem_cons_self (n := n) d (by omega) (ends_bracket r)
    rw [hbytes, arrayLoop, List.append_assoc, List.singleton_append, hv]
    dsimp only [bind, Except.bind]
    rw [skipWs_cons (by decide), advance_cons]
    dsimp only
    rw [if_neg (by decide), if_pos rfl, List.append_assoc]
    rfl
  | cons w vs ih =>
    obtain _ | n := n
    · exact absurd hn (Nat.not_lt_zero _)
    have hbytes : bytesOf (writeCanonicalValue F v ++ writeItems F (w :: vs) ++ [']']) =
        bytesOf (writeCanonicalValue F v) ++ ascii ',' ::
          bytesOf (writeCanonicalValue F w ++ writeItems F vs ++ [']']) := by
      simp [writeItems, bytesOf_ascii_cons (c := ',') (by decide)]
    rw [hbytes, List.length_append, List.length_cons] at hn
    have hv := hread v List.mem_cons_self (n := n) d (by omega) (ends_comma
      (bytesOf (writeCanonicalValue F w ++ writeItems F vs ++ [']']) ++ r))
    have hrest := ih (fun u hu => hplain u (List.mem_cons_of_mem _ hu)) (fun u hu => hread u (List.mem_cons_of_mem _ hu))
      (n := n) (by omega) (d ++ bytesOf (writeCanonicalValue F v) ++ [ascii ',']) (items ++ [v])
    have hskip := fun d' => (skipItems F (hplain w (List.mem_cons_of_mem _ List.mem_cons_self)) vs d' r).1
    rw [hbytes, arrayLoop, List.append_assoc, List.cons_append, hv]
    dsimp only [bind, Except.bind]
    rw [skipWs_cons (by decide), advance_cons]
    dsimp only
    rw [if_pos rfl, hskip, hrest]
    simp only [List.append_assoc, List.cons_append, List.nil_append]

theorem readBack_array (F : FloatText) {items : List Value} (hplain : ∀ w ∈ items, Plain w)
    (hread : ∀ w ∈ items, ReadBack F w) : ReadBack F (.json (.array items)) := by
  intro n r d hn _
  obtain _ | n := n
  · exact absurd hn (Nat.not_lt_zero _)
  cases items with
  | nil =>
    have hbytes : bytesOf (writeCanonicalValue F (.json (.array []))) = [ascii '[', ascii ']'] := rfl
    have hopen : parseArray (arrayLoop F n) ⟨d, ascii '[' :: ascii ']' :: r⟩ =
        .ok (.array [], ⟨d ++ [ascii '['] ++ [ascii ']'], r⟩) := rfl
    rw [hbytes, List.cons_append, List.singleton_append, parseValue_bracket, hopen, List.append_assoc]
    rfl
  | cons v vs =>
    have hbytes : bytesOf (writeCanonicalValue F (.json (.array (v :: vs)))) =
        ascii '[' :: bytesOf (writeCanonicalValue F v ++ writeItems F vs ++ [']']) := rfl
    rw [hbytes, List.length_cons] at hn
    have hloop := arrayLoop_items F hplain hread (n := n) (by omega) (d ++ [ascii '[']) r []
    obtain ⟨hskip, hpeek⟩ := skipItems F (hplain v List.mem_cons_self) vs (d ++ [ascii '[']) r
    rw [hbytes, List.cons_append, parseValue_bracket, parseArray, advance_cons]
    dsimp only
    rw [hskip, if_neg hpeek, hloop, List.append_assoc]
    rfl

theorem writeString_cons (k : String) : ∃ w, bytesOf (writeString k) = ascii '"' :: w :=
  ⟨_, bytesOf_ascii_cons (by decide) _⟩

/-- No white space and no closing brace stands before a key. -/
theorem skipKey (k : String) (d r : Bytes) :
    Parser.skipWs ⟨d, bytesOf (writeString k) ++ r⟩ = ⟨d, bytesOf (writeString k) ++ r⟩ ∧
      Parser.peek ⟨d, bytesOf (writeString k) ++ r⟩ ≠ some (ascii '}') := by
  obtain ⟨w, hw⟩ := writeString_cons k
  rw [hw, List.cons_append, skipWs_cons (by decide), peek_cons]
  exact ⟨rfl, by decide⟩

theorem indexInsert_new {m : List (String × Value)} {k : String} (h : k ∉ m.map Prod.fst) (v : Value) :
    indexInsert m k v = m ++ [(k, v)] := if_neg h

/-- One field of an object, up to the byte after its value. -/
theorem objectLoop_field (F : FloatText) {v : Value} (hplain : Plain v) (hread : ReadBack F v) {n : ℕ}
    (hn : 2 * (bytesOf (writeCanonicalValue F v)).length < n) (k : String) {b : Byte} {r : Bytes} (hr : Ends (b :: r))
    (hws : Parser.isWs b = false) (d : Bytes) (map : List (String × Value)) :
    objectLoop F (n + 1) ⟨d, bytesOf (writeString k) ++ ascii ':' :: (bytesOf (writeCanonicalValue F v) ++ b :: r)⟩ map =
      if b = ascii ',' then
        objectLoop F n ⟨d ++ bytesOf (writeString k) ++ [ascii ':'] ++ bytesOf (writeCanonicalValue F v) ++ [b], r⟩
          (indexInsert map k v)
      else if b = ascii '}' then .ok (.object (indexInsert map k v),
        ⟨d ++ bytesOf (writeString k) ++ [ascii ':'] ++ bytesOf (writeCanonicalValue F v) ++ [b], r⟩)
      else .error (Parser.err
        ⟨d ++ bytesOf (writeString k) ++ [ascii ':'] ++ bytesOf (writeCanonicalValue F v) ++ [b], r⟩
        ("expected ',' or '\x7d' in object, got " ++ charDebug b)) := by
  obtain ⟨c, w, hcw, hwsv, -⟩ := bytesOf_write_cons F hplain
  have hskip : ∀ d', Parser.skipWs ⟨d', bytesOf (writeCanonicalValue F v) ++ b :: r⟩ =
      ⟨d', bytesOf (writeCanonicalValue F v) ++ b :: r⟩ := by
    intro d'
    rw [hcw, List.cons_append, skipWs_cons hwsv]
  rw [objectLoop, (skipKey k d _).1, parseString_writeString]
  dsimp only [bind, Except.bind]
  rw [skipWs_cons (by decide), advance_cons]
  dsimp only
  rw [if_neg (fun h => h rfl), hskip, hread _ hn hr]
  dsimp only
  rw [skipWs_cons hws, advance_cons]
  rfl

/-- The fields of an object are read back one after the other, with their keys in the order they have. -/
theorem objectLoop_fields (F : FloatText) {k : String} {v : Value} {fs : List (String × Value)}
    (hplain : ∀ f ∈ (k, v) :: fs, Plain f.2) (hread : ∀ f ∈ (k, v) :: fs, ReadBack F f.2) {n : ℕ}
    (hn : 2 * (bytesOf (writeString k ++ ':' :: writeCanonicalValue F v ++ writeFields F fs ++ ['}'])).length + 1 < n)
    (d r : Bytes) (map : List (String × Value)) (hkeys : ((map ++ (k, v) :: fs).map Prod.fst).Nodup) :
    objectLoop F n ⟨d, bytesOf (writeString k ++ ':' :: writeCanonicalValue F v ++ writeFields F fs ++ ['}']) ++ r⟩ map =
      .ok (.object (map ++ (k, v) :: fs),
        ⟨d ++ bytesOf (writeString k ++ ':' :: writeCanonicalValue F v ++ writeFields F fs ++ ['}']), r⟩) := by
  induction fs generalizing k v n d map with
  | nil =>
    obtain _ | n := n
    · exact absurd hn (Nat.not_lt_zero _)
    have hnew : k ∉ map.map Prod.fst := by
      rw [List.map_append] at hkeys
      exact fun hk => List.disjoint_of_nodup_append hkeys hk List.mem_cons_self
    have hbytes : bytesOf (writeString k ++ ':' :: writeCanonicalValue F v ++ writeFields F [] ++ ['}']) =
        bytesOf (writeString k) ++ ascii ':' :: (bytesOf (writeCanonicalValue F v) ++ [ascii '}']) := by
      simp [writeFields, bytesOf_ascii_cons (c := ':') (by decide), bytesOf_ascii_cons (c := '}') (by decide)]
    rw [hbytes, List.length_append, List.length_cons, List.length_append] at hn
    have hv : Plain v := hplain _ List.mem_cons_self
    have hback : ReadBack F v := hread _ List.mem_cons_self
    have hfield := objectLoop_field F hv hback (n := n) (by omega) k
      (ends_brace r) (by decide) d map
    rw [hbytes, List.append_assoc, List.cons_append, List.append_assoc, List.singleton_append, hfield,
      if_neg (by decide), if_pos rfl, indexInsert_new hnew]
    simp only [List.append_assoc, List.cons_append, List.nil_append]
  | cons f fs ih =>
    obtain ⟨k', v'⟩ := f
    obtain _ | n := n
    · exact absurd hn (Nat.not_lt_zero _)
    have hnew : k ∉ map.map Prod.fst := by
      rw [List.map_append] at hkeys
      exact fun hk => List.disjoint_of_nodup_append hkeys hk List.mem_cons_self
    have hbytes : bytesOf (writeString k ++ ':' :: writeCanonicalValue F v ++ writeFields F ((k', v') :: fs) ++ ['}']) =
        bytesOf (writeString k) ++ ascii ':' :: (bytesOf (writeCanonicalValue F v) ++ ascii ',' ::
          bytesOf (writeString k' ++ ':' :: writeCanonicalValue F v' ++ writeFields F fs ++ ['}'])) := by
      simp [writeFields, bytesOf_ascii_cons (c := ':') (by decide), bytesOf_ascii_cons (c := ',') (by decide)]
    rw [hbytes, List.length_append, List.length_cons, List.length_append, List.length_cons] at hn
    have hv : Plain v := hplain _ List.mem_cons_self
    have hback : ReadBack F v := hread _ List.mem_cons_self
    have hfield := objectLoop_field F hv hback (n := n) (by omega) k
      (ends_comma (bytesOf (writeString k' ++ ':' :: writeCanonicalValue F v' ++ writeFields F fs ++ ['}']) ++ r))
      (by decide) d map
    have hrest := ih (fun f hf => hplain f (List.mem_cons_of_mem _ hf)) (fun f hf => hread f (List.mem_cons_of_mem _ hf))
      (n := n) (by omega)
      (d ++ bytesOf (writeString k) ++ [ascii ':'] ++ bytesOf (writeCanonicalValue F v) ++ [ascii ','])
      (map ++ [(k, v)]) (by rwa [List.append_assoc])
    rw [hbytes, List.append_assoc, List.cons_append, List.append_assoc, List.cons_append, hfield, if_pos rfl,
      indexInsert_new hnew, hrest]
    simp only [List.append_assoc, List.cons_append, List.nil_append]

theorem readBack_object (F : FloatText) {fields : List (String × Value)} (hkeys : (fields.map Prod.fst).Nodup)
    (hplain : ∀ f ∈ fields, Plain f.2) (hread : ∀ f ∈ fields, ReadBack F f.2) :
    ReadBack F (.json (.object fields)) := by
  intro n r d hn _
  obtain _ | n := n
  · exact absurd hn (Nat.not_lt_zero _)
  cases fields with
  | nil =>
    have hbytes : bytesOf (writeCanonicalValue F (.json (.object []))) = [ascii '{', ascii '}'] := rfl
    have hopen : parseObject (objectLoop F n) ⟨d, ascii '{' :: ascii '}' :: r⟩ =
        .ok (.object [], ⟨d ++ [ascii '{'] ++ [ascii '}'], r⟩) := rfl
    rw [hbytes, List.cons_append, List.singleton_append, parseValue_brace, hopen, List.append_assoc]
    rfl
  | cons f fs =>
    obtain ⟨k, v⟩ := f
    have hbytes : bytesOf (writeCanonicalValue F (.json (.object ((k, v) :: fs)))) = ascii '{' ::
        bytesOf (writeString k ++ ':' :: writeCanonicalValue F v ++ writeFields F fs ++ ['}']) := rfl
    rw [hbytes, List.length_cons] at hn
    have hloop := objectLoop_fields F hplain hread (n := n) (by omega) (d ++ [ascii '{']) r [] hkeys
    have hkey := skipKey k (d ++ [ascii '{'])
      (bytesOf (':' :: writeCanonicalValue F v ++ writeFields F fs ++ ['}']) ++ r)
    have hsplit : bytesOf (writeString k) ++ (bytesOf (':' :: writeCanonicalValue F v ++ writeFields F fs ++ ['}']) ++ r) =
        bytesOf (writeString k ++ ':' :: writeCanonicalValue F v ++ writeFields F fs ++ ['}']) ++ r := by
      simp only [bytesOf_append, bytesOf_cons, List.append_assoc, List.cons_append]
    rw [hsplit] at hkey
    rw [hbytes, List.cons_append, parseValue_brace, parseObject, advance_cons]
    dsimp only
    rw [hkey.1, if_neg hkey.2, hloop, List.append_assoc]
    rfl

/-- Every value without floats is read back from what is written for it. -/
theorem Plain.readBack (F : FloatText) {v : Value} (hv : Plain v) : ReadBack F v := by
  induction hv with
  | null => exact readBack_null F
  | bool b => exact readBack_bool F b
  | int n => exact readBack_int F n
  | str s => exact readBack_str F s
  | array h ih => exact readBack_array F h ih
  | object hkeys h ih => exact readBack_object F hkeys h ih

/-! ### Whole texts -/

mutual

/-- No float stands in a value of JSON text. -/
def floatFree : Value → Bool
  | .float _ => false
  | .json j => floatFreeJson j
  | _ => true
  termination_by structural x => x

def floatFreeJson : Json → Bool
  | .null => true
  | .array items => floatFreeItems items
  | .object fields => floatFreeFields fields
  termination_by structural x => x

def floatFreeItems : List Value → Bool
  | [] => true
  | v :: vs => floatFree v && floatFreeItems vs
  termination_by structural x => x

def floatFreeFields : List (String × Value) → Bool
  | [] => true
  | (_, v) :: fs => floatFree v && floatFreeFields fs
  termination_by structural x => x

end

theorem floatFreeItems_mem {vs : List Value} (h : floatFreeItems vs = true) : ∀ v ∈ vs, floatFree v = true := by
  induction vs with
  | nil => exact fun v hv => by cases hv
  | cons w vs ih =>
    rw [floatFreeItems, Bool.and_eq_true] at h
    exact List.forall_mem_cons.mpr ⟨h.1, ih h.2⟩

theorem floatFreeFields_mem {fs : List (String × Value)} (h : floatFreeFields fs = true) :
    ∀ f ∈ fs, floatFree f.2 = true := by
  induction fs with
  | nil => exact fun f hf => by cases hf
  | cons f fs ih =>
    rw [floatFreeFields, Bool.and_eq_true] at h
    exact List.forall_mem_cons.mpr ⟨h.1, ih h.2⟩

theorem Readable.plain {v : Value} (hv : Readable v) (hfree : floatFree v = true) : Plain v := by
  induction hv with
  | null => exact .null
  | bool b => exact .bool b
  | int n => exact .int n
  | float bits => exact absurd hfree Bool.false_ne_true
  | str s => exact .str s
  | array h ih => exact .array fun v hv => ih v hv (floatFreeItems_mem hfree v hv)
  | object hkeys h ih => exact .object hkeys fun f hf => ih f hf (floatFreeFields_mem hfree f hf)

theorem Plain.parse {F : FloatText} {v : Value} (hv : Plain v) : parse F (canonicalText F v) = .ok v := by
  obtain ⟨b, w, hbw, hws, -⟩ := bytesOf_write_cons F hv
  have hread := hv.readBack F (n := 2 * (bytesOf (writeCanonicalValue F v)).length + 1) (r := []) []
    (Nat.lt_succ_self _) fun b hb => (by cases hb)
  have hskip : Parser.skipWs ⟨[], bytesOf (writeCanonicalValue F v)⟩ = ⟨[], bytesOf (writeCanonicalValue F v)⟩ := by
    rw [hbw, skipWs_cons hws]
  rw [List.append_nil, List.nil_append] at hread
  rw [JsonText.parse, canonicalText, strBytes_ofList]
  dsimp only
  rw [hskip, hread]
  exact if_neg fun h => h rfl

theorem floatFreeItems_of {vs : List Value} (h : ∀ v ∈ vs, floatFree v = true) : floatFreeItems vs = true := by
  induction vs with
  | nil => rfl
  | cons v vs ih =>
    rw [floatFreeItems, Bool.and_eq_true]
    exact ⟨h v List.mem_cons_self, ih fun w hw => h w (List.mem_cons_of_mem _ hw)⟩

theorem floatFreeFields_of {fs : List (String × Value)} (h : ∀ f ∈ fs, floatFree f.2 = true) :
    floatFreeFields fs = true := by
  induction fs with
  | nil => rfl
  | cons f fs ih =>
    rw [floatFreeFields, Bool.and_eq_true]
    exact ⟨h f List.mem_cons_self, ih fun g hg => h g (List.mem_cons_of_mem _ hg)⟩

theorem Plain.floatFree {v : Value} (hv : Plain v) : floatFree v = true := by
  induction hv with
  | null => rfl
  | bool b => rfl
  | int n => rfl
  | str s => rfl
  | array _ ih => exact floatFreeItems_of ih
  | object _ _ ih => exact floatFreeFields_of ih

/-- **JSON text round-trips**: the values without floats that some text is read as are null, the booleans, the
integers, the strings and what arrays and objects with distinct keys nest of them. Each is read back from its
canonical text, with the keys of its objects in their order. Two of them with the same text are equal, and what is
read back from a canonical text is rendered as that text. -/
theorem parse_canonicalText (F : FloatText) :
    (∀ v, Plain v ↔ (∃ s, parse F s = .ok v) ∧ floatFree v = true) ∧
    (∀ v, Plain v → parse F (canonicalText F v) = .ok v) ∧
    (∀ v w, Plain v → Plain w → canonicalText F v = canonicalText F w → v = w) ∧
    ∀ v, Plain v → (parse F (canonicalText F v)).map (canonicalText F) = .ok (canonicalText F v) := by
  refine ⟨fun v => ⟨fun hv => ⟨⟨_, hv.parse⟩, hv.floatFree⟩, ?_⟩, fun v hv => hv.parse, fun v w hv hw heq => ?_,
    fun v hv => ?_⟩
  · rintro ⟨⟨s, hs⟩, hfree⟩
    exact (readable_of_parse hs).plain hfree
  · have hback : parse F (canonicalText F v) = .ok v := hv.parse
    rw [heq, hw.parse] at hback
    exact (Except.ok.inj hback).symm
  · rw [hv.parse]
    rfl

/-- An order, with characters that are escaped, characters of one to four bytes and an integer of more than 128
bits. -/
def order : Value :=
  .json (.object [("to\n\"x\\y\"", .str "\u0001é☃😀"), ("", .json (.object [])),
    ("qty", .json (.array [.int (-680564733841876926926749214863536422912), .bool true, .json .null,
      .json (.object [("b", .bool false), ("a", .json (.array []))])]))])

theorem plain_order : Plain order := by
  refine .object (by decide) fun f hf => ?_
  obtain rfl | rfl | rfl : f = _ ∨ f = _ ∨ f = _ := by simpa using hf
  · exact .str _
  · exact .object List.nodup_nil fun g hg => (by cases hg)
  · refine .array fun v hv => ?_
    obtain rfl | rfl | rfl | rfl : v = _ ∨ v = _ ∨ v = _ ∨ v = _ := by simpa using hv
    · exact .int _
    · exact .bool true
    · exact .null
    · refine .object (by decide) fun g hg => ?_
      obtain rfl | rfl : g = _ ∨ g = _ := by simpa using hg
      · exact .bool false
      · exact .array fun w hw => (by cases hw)

set_option maxRecDepth 2000 in
theorem parse_canonicalText_order (F : FloatText) :
    canonicalText F order = "\x7b\"to\\n\\\"x\\\\y\\\"\":\"\\u0001é☃😀\",\"\":\x7b\x7d,\"qty\":" ++
      "[-680564733841876926926749214863536422912,true,null,\x7b\"b\":false,\"a\":[]\x7d]\x7d" ∧
    parse F (canonicalText F order) = .ok order ∧
    (parse F (canonicalText F order)).map (canonicalText F) = .ok (canonicalText F order) := by
  refine ⟨?_, (parse_canonicalText F).2.1 order plain_order, (parse_canonicalText F).2.2.2 order plain_order⟩
  rfl

end Rend.JsonText
