import Rend.Json.Text

/-!
# What the JSON reader gives

The reader consumes at least one byte for each value, so that the bound on its nesting is never reached
(`parse_ne_fuel`), and what it gives is made of the JSON shapes only, with each key of an object once
(`readable_of_parse`).
-/

namespace Rend.JsonText

open Lib

/-- The values of JSON texts. -/
inductive Readable : Value → Prop
  | null : Readable (.json .null)
  | bool (b : Bool) : Readable (.bool b)
  | int (n : ℤ) : Readable (.int n)
  | float (bits : U64) : Readable (.float bits)
  | str (s : String) : Readable (.str s)
  | array {items : List Value} (h : ∀ v ∈ items, Readable v) : Readable (.json (.array items))
  | object {fields : List (String × Value)} (hkeys : (fields.map Prod.fst).Nodup)
      (h : ∀ f ∈ fields, Readable f.2) : Readable (.json (.object fields))

/-- A step of the reader that does not run out of fuel and, when it gives something, leaves fewer than
`len` bytes. -/
def Reads {α : Type} (w : α → Prop) (len : ℕ) (r : Except Stop (α × Parser)) : Prop :=
  r ≠ .error .fuel ∧ ∀ a p, r = .ok (a, p) → p.rest.length < len ∧ w a

section Reads

variable {α β : Type} {w : α → Prop} {w' : β → Prop} {len len' : ℕ}

theorem reads_error (p : Parser) (msg : String) : Reads w len (.error (p.err msg)) :=
  ⟨fun h => (by cases h), fun _ _ h => (by cases h)⟩

theorem reads_ok {a : α} {p : Parser} (hp : p.rest.length < len) (ha : w a) : Reads w len (.ok (a, p)) :=
  ⟨fun h => (by cases h), fun _ _ h => (by cases h; exact ⟨hp, ha⟩)⟩

theorem Reads.bind {r : Except Stop (α × Parser)} {k : α × Parser → Except Stop (β × Parser)} (h : Reads w len r)
    (hk : ∀ a p, p.rest.length < len → w a → Reads w' len' (k (a, p))) : Reads w' len' (r >>= k) := by
  cases r with
  | error e =>
    refine ⟨fun he => h.1 ?_, fun _ _ he => (by cases he)⟩
    cases he
    rfl
  | ok x =>
    obtain ⟨hp, ha⟩ := h.2 x.1 x.2 rfl
    exact hk x.1 x.2 hp ha

theorem Reads.mono (h : Reads w len r) (hlen : len ≤ len') : Reads w len' r :=
  ⟨h.1, fun a p hr => ⟨(h.2 a p hr).1.trans_le hlen, (h.2 a p hr).2⟩⟩

end Reads

/-! ### What is left to read -/

theorem advance_none {p q : Parser} (h : p.advance = (none, q)) : q = p := by
  unfold Parser.advance at h
  split at h
  · cases h
    rfl
  · cases h

theorem length_advance {p q : Parser} {b : Byte} (h : p.advance = (some b, q)) :
    q.rest.length + 1 = p.rest.length := by
  unfold Parser.advance at h
  split at h
  · cases h
  · next hrest =>
    cases h
    rw [hrest]
    rfl

theorem length_advance_le (p : Parser) : p.advance.2.rest.length ≤ p.rest.length := by
  cases h : p.advance with
  | mk b q =>
    cases b with
    | none => rw [advance_none h]
    | some b => exact (length_advance h).symm ▸ Nat.le_succ _

theorem length_advance_peek {p : Parser} {b : Byte} (h : p.peek = some b) :
    p.advance.2.rest.length + 1 = p.rest.length := by
  unfold Parser.peek at h
  unfold Parser.advance
  cases hrest : p.rest with
  | nil =>
    rw [hrest] at h
    cases h
  | cons c rest => rfl

theorem length_skipWhile (q : Byte → Bool) (done rest : Bytes) :
    (Parser.skipWhile q done rest).rest.length ≤ rest.length := by
  induction rest generalizing done with
  | nil => exact le_rfl
  | cons b rest ih =>
    rw [Parser.skipWhile]
    split
    · exact (ih _).trans (Nat.le_succ _)
    · exact le_rfl

theorem length_skipWs (p : Parser) : p.skipWs.rest.length ≤ p.rest.length := length_skipWhile ..

theorem length_skipDigits (p : Parser) : p.skipDigits.rest.length ≤ p.rest.length := length_skipWhile ..

/-! ### Literals, strings and numbers -/

theorem reads_expectAll {w : Value → Prop} {value : Value} (hv : w value) (lit : String) {len : ℕ} (cs : Bytes)
    {p : Parser} (hp : p.rest.length < len + cs.length) :
    Reads w len ((expectAll lit cs p).bind fun p => .ok (value, p)) := by
  induction cs generalizing p with
  | nil => exact reads_ok hp hv
  | cons c cs ih =>
    rw [expectAll]
    cases h : p.advance with
    | mk b q =>
      dsimp only
      split_ifs with hb
      · exact reads_error q _
      · rw [not_not] at hb
        subst hb
        have hq := length_advance h
        rw [List.length_cons] at hp
        exact ih (by omega)

theorem reads_parseLit {w : Value → Prop} {value : Value} (hv : w value) {lit : String} (hlit : strBytes lit ≠ [])
    {p : Parser} {len : ℕ} (hp : p.rest.length ≤ len) : Reads w len (parseLit lit value p) := by
  have hpos : 0 < (strBytes lit).length := List.length_pos_of_ne_nil hlit
  exact reads_expectAll hv lit (strBytes lit) (by omega)

theorem reads_hexDigits (n hex : ℕ) {p : Parser} {len : ℕ} (hp : p.rest.length < len) :
    Reads (fun _ => True) len (hexDigits n hex p) := by
  induction n generalizing hex p with
  | zero => exact reads_ok hp trivial
  | succ n ih =>
    rw [hexDigits]
    cases h : p.advance with
    | mk b q =>
      cases b with
      | none => exact reads_error q _
      | some b =>
        dsimp only
        cases hexVal b with
        | none => exact reads_error q _
        | some v =>
          have hq := length_advance h
          exact ih _ (by omega)

theorem reads_unicodeEscape {p : Parser} {len : ℕ} (hp : p.rest.length < len) :
    Reads (fun _ => True) len (unicodeEscape p) := by
  unfold unicodeEscape
  refine (reads_hexDigits 4 0 hp).bind fun hex q hq _ => ?_
  dsimp only
  cases charFromU32 hex with
  | none => exact reads_error q _
  | some c => exact reads_ok hq trivial

theorem reads_parseEscape {p : Parser} {len : ℕ} (hp : p.rest.length ≤ len) :
    Reads (fun _ => True) len (parseEscape p) := by
  unfold parseEscape
  cases h : p.advance with
  | mk b q =>
    cases b with
    | none => exact reads_error q _
    | some b =>
      have hq : q.rest.length < len := by
        have := length_advance h
        omega
      dsimp only
      split_ifs
      all_goals first
        | exact reads_ok hq trivial
        | exact reads_unicodeEscape hq
        | exact reads_error q _

theorem advanceN_ok {n : ℕ} {p : Parser} : advanceN n p ≠ .error .fuel ∧
    ∀ q, advanceN n p = .ok q → q.rest.length ≤ p.rest.length := by
  induction n generalizing p with
  | zero => exact ⟨fun h => (by cases h), fun q h => (by cases h; exact le_rfl)⟩
  | succ n ih =>
    rw [advanceN]
    cases h : p.advance with
    | mk b r =>
      cases b with
      | none => exact ⟨fun h => (by cases h), fun q h => (by cases h)⟩
      | some b =>
        have hr := length_advance h
        exact ⟨ih.1, fun q hq => (ih.2 q hq).trans (by omega)⟩

theorem reads_stringLoop (n : ℕ) {p : Parser} (hn : p.rest.length < n) {len : ℕ} (hp : p.rest.length ≤ len)
    (out : String) : Reads (fun _ => True) len (stringLoop n p out) := by
  induction n generalizing p out with
  | zero => exact absurd hn (Nat.not_lt_zero _)
  | succ n ih =>
    rw [stringLoop]
    cases h : p.advance with
    | mk b q =>
      cases b with
      | none => exact reads_error q _
      | some b =>
        have hq := length_advance h
        dsimp only
        split_ifs
        · exact reads_ok (by omega) trivial
        · have hescape : Reads (fun _ => True) q.rest.length (parseEscape q) := reads_parseEscape le_rfl
          refine hescape.bind fun c r hr _ => ?_
          have hrest := ih (p := r) (by omega) (by omega) (out.push c)
          exact hrest
        · exact reads_error q _
        · obtain ⟨hfuel, hok⟩ := advanceN_ok (n := utf8Len b - 1) (p := q)
          cases hadv : advanceN (utf8Len b - 1) q with
          | error e => exact ⟨fun he => hfuel (hadv.trans (by cases he; rfl)), fun _ _ he => (by cases he)⟩
          | ok r =>
            have hr := hok r hadv
            simp only [bind, Except.bind]
            cases strOfBytes (r.done.drop p.pos) with
            | none => exact reads_error r _
            | some s => exact ih (by omega) (by omega) _

theorem reads_parseString {p : Parser} {len : ℕ} (hp : p.rest.length ≤ len) :
    Reads (fun _ => True) len (parseString p) := by
  unfold parseString
  have hle := length_advance_le p
  dsimp only
  split_ifs
  · exact reads_error _ _
  · exact reads_stringLoop _ (Nat.lt_succ_self _) (hle.trans hp) ""

theorem skipWhile_total (q : Byte → Bool) (done rest : Bytes) :
    (Parser.skipWhile q done rest).pos + (Parser.skipWhile q done rest).rest.length = done.length + rest.length := by
  induction rest generalizing done with
  | nil => rfl
  | cons b rest ih =>
    rw [Parser.skipWhile]
    split
    · rw [ih, List.length_append, List.length_singleton, List.length_cons]
      omega
    · rfl

theorem skipDigits_lt {p : Parser} (h : p.pos ≠ p.skipDigits.pos) : p.skipDigits.rest.length < p.rest.length := by
  have htotal := skipWhile_total Parser.isDigit p.done p.rest
  have hle := length_skipDigits p
  change p.skipDigits.pos + p.skipDigits.rest.length = p.pos + p.rest.length at htotal
  omega

theorem reads_skipFraction {p : Parser} {len : ℕ} (hp : p.rest.length < len) :
    Reads (fun _ => True) len (skipFraction p) := by
  unfold skipFraction
  have hadv := length_advance_le p
  have hdigits := length_skipDigits p.advance.2
  dsimp only
  split_ifs
  · exact reads_error _ _
  · exact reads_ok (by omega) trivial
  · exact reads_ok hp trivial

theorem reads_skipExponent {p : Parser} {len : ℕ} (hp : p.rest.length < len) :
    Reads (fun _ => True) len (skipExponent p) := by
  unfold skipExponent
  have hadv := length_advance_le p
  have hsign := length_advance_le p.advance.2
  dsimp only
  split_ifs
  · exact reads_error _ _
  · have hdigits := length_skipDigits p.advance.2.advance.2
    exact reads_ok (by omega) trivial
  · exact reads_error _ _
  · have hdigits := length_skipDigits p.advance.2
    exact reads_ok (by omega) trivial
  · exact reads_ok hp trivial

theorem reads_parseNumber (F : FloatText) {p : Parser} {len : ℕ} (hp : p.rest.length ≤ len) :
    Reads Readable len (parseNumber F p) := by
  unfold parseNumber
  dsimp only
  generalize hint : (if p.peek = some (ascii '-') then p.advance.2 else p) = int
  have hle : int.rest.length ≤ p.rest.length := by
    rw [← hint]
    split_ifs
    · exact length_advance_le p
    · exact le_rfl
  split_ifs with hpos
  · exact reads_error _ _
  · have hdigits := skipDigits_lt hpos
    have hfraction : Reads (fun _ => True) len (skipFraction int.skipDigits) := reads_skipFraction (by omega)
    refine hfraction.bind fun isFraction q hq _ => ?_
    refine (reads_skipExponent hq).bind fun isExponent r hr _ => ?_
    dsimp only
    cases strOfBytes (r.done.drop p.pos) with
    | none => exact reads_error r _
    | some _ =>
      dsimp only
      split_ifs
      · cases F.read (r.done.drop p.pos) with
        | none => exact reads_error r _
        | some f => exact reads_ok hr (.float f)
      · cases readInt (r.done.drop p.pos) with
        | none => exact reads_error r _
        | some n => exact reads_ok hr (.int n)

/-! ### Values -/

theorem readable_indexInsert {m : List (String × Value)} (h : ∀ f ∈ m, Readable f.2) {v : Value} (hv : Readable v)
    (k : String) : ∀ f ∈ indexInsert m k v, Readable f.2 := by
  intro f hf
  rcases mem_indexInsert hf with hf | hf
  · exact h f hf
  · rwa [hf]

theorem reads_parseArray {loop : Parser → List Value → Except Stop (Json × Parser)} {p : Parser} {b : Byte}
    (hb : p.peek = some b) {len : ℕ} (hlen : p.rest.length ≤ len)
    (hloop : ∀ q : Parser, q.rest.length < len → Reads (fun j => Readable (.json j)) len (loop q [])) :
    Reads (fun j => Readable (.json j)) len (parseArray loop p) := by
  unfold parseArray
  have hadv := length_advance_peek hb
  have hws := length_skipWs p.advance.2
  have hclose := length_advance_le p.advance.2.skipWs
  dsimp only
  split_ifs
  · exact reads_ok (by omega) (.array fun v hv => (by cases hv))
  · exact hloop _ (by omega)

theorem reads_parseObject {loop : Parser → List (String × Value) → Except Stop (Json × Parser)} {p : Parser}
    {b : Byte} (hb : p.peek = some b) {len : ℕ} (hlen : p.rest.length ≤ len)
    (hloop : ∀ q : Parser, q.rest.length < len → Reads (fun j => Readable (.json j)) len (loop q [])) :
    Reads (fun j => Readable (.json j)) len (parseObject loop p) := by
  unfold parseObject
  have hadv := length_advance_peek hb
  have hws := length_skipWs p.advance.2
  have hclose := length_advance_le p.advance.2.skipWs
  dsimp only
  split_ifs
  · exact reads_ok (by omega) (.object List.nodup_nil fun f hf => (by cases hf))
  · exact hloop _ (by omega)

/-- The three functions that read a value, an array and an object, within a bound on the nesting: each byte
takes at most two calls. -/
theorem reads_values (F : FloatText) (n : ℕ) :
    (∀ (p : Parser) (len : ℕ), 2 * p.rest.length < n → p.rest.length ≤ len → Reads Readable len (parseValue F n p)) ∧
    (∀ (p : Parser) (items : List Value) (len : ℕ), 2 * p.rest.length + 1 < n → p.rest.length ≤ len →
      (∀ v ∈ items, Readable v) → Reads (fun j => Readable (.json j)) len (arrayLoop F n p items)) ∧
    (∀ (p : Parser) (map : List (String × Value)) (len : ℕ), 2 * p.rest.length + 1 < n → p.rest.length ≤ len →
      (map.map Prod.fst).Nodup → (∀ f ∈ map, Readable f.2) →
      Reads (fun j => Readable (.json j)) len (objectLoop F n p map)) := by
  induction n with
  | zero => exact ⟨fun p len h => by omega, fun p items len h => by omega, fun p map len h => by omega⟩
  | succ n ih =>
    obtain ⟨ihv, iha, iho⟩ := ih
    refine ⟨fun p len hn hlen => ?_, fun p items len hn hlen hitems => ?_, fun p map len hn hlen hkeys hmap => ?_⟩
    · rw [parseValue]
      have hws := length_skipWs p
      dsimp only
      cases hb : p.skipWs.peek with
      | none => exact reads_error _ _
      | some b =>
        have hloop : ∀ q : Parser, q.rest.length < p.skipWs.rest.length → 2 * q.rest.length + 1 < n := by
          intro q hq
          omega
        dsimp only
        split_ifs
        · exact reads_parseLit .null (by decide) (by omega)
        · exact reads_parseLit (.bool true) (by decide) (by omega)
        · exact reads_parseLit (.bool false) (by decide) (by omega)
        · exact (reads_parseString (p := p.skipWs) le_rfl).bind fun s q hq _ => reads_ok (hq.trans_le (hws.trans hlen)) (.str s)
        · refine (reads_parseArray hb le_rfl fun q hq => iha q [] _ (hloop q hq) hq.le fun v hv => (by cases hv)).bind
            fun j q hq hj => reads_ok (hq.trans_le (hws.trans hlen)) hj
        · refine (reads_parseObject hb le_rfl fun q hq => iho q [] _ (hloop q hq) hq.le List.nodup_nil
            fun f hf => (by cases hf)).bind fun j q hq hj => reads_ok (hq.trans_le (hws.trans hlen)) hj
        · exact reads_parseNumber F (by omega)
        · exact reads_error _ _
    · rw [arrayLoop]
      refine (ihv p p.rest.length (by omega) le_rfl).bind fun v q hq hv => ?_
      have hws := length_skipWs q
      dsimp only
      cases hadv : q.skipWs.advance with
      | mk b r =>
        cases b with
        | none => exact reads_error r _
        | some b =>
          have hr := length_advance hadv
          have hws' := length_skipWs r
          have hreadable : ∀ w ∈ items ++ [v], Readable w := by
            intro w hw
            rcases List.mem_append.mp hw with hw | hw
            · exact hitems w hw
            · exact List.mem_singleton.mp hw ▸ hv
          dsimp only
          split_ifs
          · exact iha _ _ _ (by omega) (by omega) hreadable
          · exact reads_ok (by omega) (.array hreadable)
          · exact reads_error r _
    · rw [objectLoop]
      have hws := length_skipWs p
      refine (reads_parseString (p := p.skipWs) le_rfl).bind fun key q hq _ => ?_
      have hws' := length_skipWs q
      have hcolon := length_advance_le q.skipWs
      dsimp only
      split_ifs
      · exact reads_error _ _
      · have hws'' := length_skipWs q.skipWs.advance.2
        refine (ihv q.skipWs.advance.2.skipWs q.rest.length (by omega) (by omega)).bind fun v r hr hv => ?_
        have hwsr := length_skipWs r
        dsimp only
        cases hadv : r.skipWs.advance with
        | mk b t =>
          cases b with
          | none => exact reads_error t _
          | some b =>
            have ht := length_advance hadv
            have hkeys' := nodup_indexInsert hkeys key v
            have hmap' := readable_indexInsert hmap hv key
            dsimp only
            split_ifs
            · exact iho _ _ _ (by omega) (by omega) hkeys' hmap'
            · exact reads_ok (by omega) (.object hkeys' hmap')
            · exact reads_error t _

theorem parse_reads (F : FloatText) (s : String) : parse F s ≠ .error .fuel ∧
    ∀ v, parse F s = .ok v → Readable v := by
  have hws := length_skipWs ⟨[], strBytes s⟩
  have hvalue := (reads_values F (2 * (strBytes s).length + 1)).1 (Parser.skipWs ⟨[], strBytes s⟩) (strBytes s).length
    (by dsimp only at hws; omega) hws
  unfold parse
  dsimp only [bind, Except.bind]
  cases hr : parseValue F (2 * (strBytes s).length + 1) (Parser.skipWs ⟨[], strBytes s⟩) with
  | error e =>
    refine ⟨fun he => hvalue.1 ?_, fun v hv => (by cases hv)⟩
    cases he
    exact hr
  | ok r =>
    dsimp only
    split_ifs
    · exact ⟨fun he => (by cases he), fun v hv => (by cases hv)⟩
    · exact ⟨fun he => (by cases he), fun v hv => (by cases hv; exact (hvalue.2 r.1 r.2 hr).2)⟩

/-- The bound of `parse` on the nesting is never reached. -/
theorem parse_ne_fuel (F : FloatText) (s : String) : parse F s ≠ .error .fuel := (parse_reads F s).1

theorem readable_of_parse {F : FloatText} {s : String} {v : Value} (h : parse F s = .ok v) : Readable v :=
  (parse_reads F s).2 v h

end Rend.JsonText
