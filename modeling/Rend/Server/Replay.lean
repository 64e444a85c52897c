import Rend.Server.Auth
import Rend.Lib.Checks

/-!
# What authentication promises

A nonce is written only over a smaller one, so that the accepted nonces of an address increase in the order of
the commits (`Reaches.increasing`), and the hashed text determines the parts of the request
(`messageHash_inj`).

The namespace depends on how a request spells its organisation, which the signature check compares without
regard to case, and two organisations can have one namespace. `authentication` is what holds in every run whose
requests keep clear of both.
-/

namespace Rend.Server

open Lib JsonText

/-! ### The hashed text -/

/-- A list is cut at the first place where a separator stands in one way only. -/
theorem cut_inj {α : Type} {x : α} {a a' r r' : List α} (ha : x ∉ a) (ha' : x ∉ a')
    (h : a ++ x :: r = a' ++ x :: r') : a = a' ∧ r = r' := by
  induction a generalizing a' with
  | nil =>
    cases a' with
    | nil => exact ⟨rfl, (List.cons.inj h).2⟩
    | cons b a' => exact absurd ((List.cons.inj h).1 ▸ List.mem_cons_self) ha'
  | cons b a ih =>
    cases a' with
    | nil => exact absurd ((List.cons.inj h).1 ▸ List.mem_cons_self) ha
    | cons b' a' =>
      obtain ⟨rfl, hrest⟩ := List.cons.inj h
      have htail := ih (List.not_mem_of_not_mem_cons ha) (List.not_mem_of_not_mem_cons ha') hrest
      exact ⟨congrArg (b :: ·) htail.1, htail.2⟩

theorem preimage_inj {m m' p p' : String} {n n' : U64} {b b' : Bytes} (hm : ascii '\n' ∉ strBytes m)
    (hm' : ascii '\n' ∉ strBytes m') (hp : ascii '\n' ∉ strBytes p) (hp' : ascii '\n' ∉ strBytes p')
    (h : preimage m p n b = preimage m' p' n' b') : m = m' ∧ p = p' ∧ n = n' ∧ b = b' := by
  have hinj : ∀ s t : String, strBytes s = strBytes t → s = t := by
    intro s t hst
    have hs := strOfBytes_strBytes s
    rw [hst, strOfBytes_strBytes] at hs
    exact (Option.some.inj hs).symm
  have htail := List.append_cancel_left h
  obtain ⟨hmeq, hrest⟩ := cut_inj hm hm' htail
  obtain ⟨hpeq, hrest⟩ := cut_inj hp hp' hrest
  have hlen : (wordBytes 8 n).length = (wordBytes 8 n').length := by rw [length_wordBytes, length_wordBytes]
  obtain ⟨hneq, hbeq⟩ := List.append_inj hrest hlen
  exact ⟨hinj _ _ hmeq, hinj _ _ hpeq, wordBytes_inj (by norm_num) hneq, (List.cons.inj hbeq).2⟩

/-- Requests that differ in a signed part have different digests. -/
theorem messageHash_inj (P : Platform) {r r' : Request} {n n' : U64} {b b' : Bytes}
    (h : P.messageHash r.method r.path n b = P.messageHash r'.method r'.path n' b') :
    r.method = r'.method ∧ r.path = r'.path ∧ n = n' ∧ b = b' :=
  preimage_inj r.method_line r'.method_line r.path_line r'.path_line (P.keccak_inj h)

/-! ### The organisation of a path -/

theorem pathOrg_path (r : Request) : pathOrg r.path = some r.org := by
  have hchars : (r.path.toList.dropWhile fun c => c = '/') =
      "v1".toList ++ '/' :: ("orgs".toList ++ '/' :: (r.org.toList ++ '/' :: r.tail.toList)) := by
    simp [Request.path]
  have hsplit : (r.path.toList.dropWhile fun c => c = '/').splitOn '/' =
      "v1".toList :: "orgs".toList :: r.org.toList :: r.tail.toList.splitOn '/' := by
    rw [hchars, List.splitOn_append_cons_self, List.splitOn_append_cons_self, List.splitOn_append_cons_self,
      List.splitOn_eq_singleton (by decide), List.splitOn_eq_singleton (by decide),
      List.splitOn_eq_singleton r.org_segment]
    rfl
  rw [pathOrg, hsplit]
  simp

/-- What a request that has been authenticated says of the address. -/
theorem authenticate_org {P : Platform} {r : Request} {a : Address} {n : U64} (h : P.authenticate r = .ok (a, n)) :
    eqIgnoreAsciiCase r.org (P.addressHex a) = true := by
  unfold Platform.authenticate at h
  obtain ⟨sigHdr, -, h⟩ := bind_ok h
  obtain ⟨sig, -, h⟩ := bind_ok h
  obtain ⟨nonce, -, h⟩ := bind_ok h
  obtain ⟨body, -, h⟩ := bind_ok h
  obtain ⟨recovered, -, h⟩ := bind_ok h
  obtain ⟨org, horg, h⟩ := bind_ok h
  rw [pathOrg_path] at horg
  cases horg
  dsimp only at h
  split_ifs at h with hcase
  cases h
  simpa using hcase

/-! ### Nonces over a run -/

theorem storedNonce_wordBytes (n : U64) : storedNonce (some (wordBytes 8 n)) = n.toNat := by
  have hlen : (wordBytes 8 n).length = 8 := length_wordBytes 8 n
  rw [storedNonce, List.take_of_length_le hlen.le, hlen, List.replicate_zero, List.append_nil]
  exact ofBeBytes_beBytes n.isLt

section Runs

variable {ι : Type} [DecidableEq ι] {P : Platform} {reqs : ι → Request}

/-- What a phase says of its request. -/
def Phase.Fits (P : Platform) (r : Request) : Phase → Prop
  | .looking a n => P.authenticate r = .ok (a, n)
  | .staged a n seen => P.authenticate r = .ok (a, n) ∧ storedNonce seen < n.toNat
  | _ => True

/-- The accepted nonces of an address increase up to the one that is stored. -/
structure Ordered (P : Platform) (reqs : ι → Request) (s : State ι) : Prop where
  fits : ∀ i, (s.phase i).Fits P (reqs i)
  signed : ∀ e ∈ s.log, P.authenticate (reqs e.request) = .ok (e.address, e.nonce)
  stored : ∀ e ∈ s.log, e.nonce.toNat ≤ storedNonce (s.nonces e.address)
  increasing : s.log.Pairwise fun e e' => e.address = e'.address → e.nonce.toNat < e'.nonce.toNat

/-- A request goes into another phase, and the nonces stay as they are. -/
theorem Ordered.at {s : State ι} (h : Ordered P reqs s) {i : ι} {phase : Phase} (hi : phase.Fits P (reqs i)) :
    Ordered P reqs (s.at i phase) where
  fits j := by
    by_cases hj : j = i
    · subst hj
      simpa [State.at] using hi
    · simpa [State.at, hj] using h.fits j
  signed := h.signed
  stored := h.stored
  increasing := h.increasing

omit [DecidableEq ι] in
theorem Ordered.commit {s : State ι} (h : Ordered P reqs s) {i : ι} {a : Address} {n : U64}
    (hsigned : P.authenticate (reqs i) = .ok (a, n)) (hlt : storedNonce (s.nonces a) < n.toNat) :
    Ordered P reqs { s with
      nonces := Function.update s.nonces a (some (wordBytes 8 n)), log := s.log ++ [⟨i, a, n⟩] } where
  fits := h.fits
  signed e he := by
    rcases List.mem_append.mp he with he | he
    · exact h.signed e he
    · rw [List.mem_singleton.mp he]
      exact hsigned
  stored e he := by
    have hnew : storedNonce (Function.update s.nonces a (some (wordBytes 8 n)) a) = n.toNat := by
      rw [Function.update_self, storedNonce_wordBytes]
    rcases List.mem_append.mp he with he | he
    · by_cases hea : e.address = a
      · have hold := h.stored e he
        dsimp only
        rw [hea] at hold ⊢
        omega
      · dsimp only
        rw [Function.update_of_ne hea]
        exact h.stored e he
    · rw [List.mem_singleton.mp he]
      exact hnew.ge
  increasing := by
    refine List.pairwise_append.mpr ⟨h.increasing, List.pairwise_singleton _ _, fun e he e' he' heq => ?_⟩
    rw [List.mem_singleton.mp he'] at heq ⊢
    have hold := h.stored e he
    dsimp only at heq ⊢
    rw [heq] at hold
    omega

theorem Step.ordered {s s' : State ι} (hs : Step P reqs s s') (h : Ordered P reqs s) : Ordered P reqs s' := by
  cases hs with
  | refuse hi hresp => exact h.at trivial
  | authenticated hi hok => exact h.at hok
  | tooLow hi hle => exact h.at trivial
  | @stage i a n hi hlt =>
    have hfits := h.fits i
    rw [hi] at hfits
    exact h.at ⟨hfits, hlt⟩
  | @commit i a n seen hi hseen =>
    have hfits := h.fits i
    rw [hi] at hfits
    have hat : Ordered P reqs (s.at i .accepted) := h.at trivial
    exact hat.commit hfits.1 (hseen ▸ hfits.2)
  | @busy i a n seen hi =>
    have hfits := h.fits i
    rw [hi] at hfits
    exact h.at hfits.1
  | lookFailed hi => exact h.at trivial
  | commitFailed hi => exact h.at trivial

/-- A request that carries a nonce above the stored one is accepted when nothing comes between. -/
theorem Reaches.accept {nonces : Address → Option Bytes} {s : State ι} (h : Reaches P reqs nonces s) {i : ι}
    {a : Address} {n : U64} (hi : s.phase i = .arrived) (hok : P.authenticate (reqs i) = .ok (a, n))
    (hlt : storedNonce (s.nonces a) < n.toNat) :
    ∃ s', Reaches P reqs nonces s' ∧ s'.log = s.log ++ [⟨i, a, n⟩] ∧
      s'.nonces = Function.update s.nonces a (some (wordBytes 8 n)) ∧ ∀ j, j ≠ i → s'.phase j = s.phase j := by
  have hlooking := h.step (.authenticated hi hok)
  have hstaged := hlooking.step (.stage (i := i) (a := a) (n := n) (by simp [State.at]) hlt)
  have hdone := hstaged.step (.commit (i := i) (a := a) (n := n) (by simp [State.at]) rfl)
  refine ⟨_, hdone, rfl, rfl, fun j hj => ?_⟩
  simp [State.at, hj]

theorem Reaches.ordered {nonces : Address → Option Bytes} {s : State ι} (h : Reaches P reqs nonces s) :
    Ordered P reqs s := by
  induction h with
  | start => exact ⟨fun _ => trivial, fun e he => (by cases he), fun e he => (by cases he), List.Pairwise.nil⟩
  | step _ hs ih => exact hs.ordered ih

end Runs

/-! ### Namespaces -/

section Names

variable (P : Platform)

/-- The organisation of a request is an address, in some spelling. -/
def Names (r : Request) (a : Address) : Prop := eqIgnoreAsciiCase r.org (P.addressHex a) = true

instance (r : Request) (a : Address) : Decidable (Names P r a) :=
  inferInstanceAs (Decidable (eqIgnoreAsciiCase r.org (P.addressHex a) = true))

variable {P}

theorem hexDigit_toLower : ∀ c ∈ hexDigits, c.toLower = c ∧ c ≠ '%' := by
  have hall : hexDigits.all (fun c => decide (c.toLower = c ∧ c ≠ '%')) = true := by decide
  exact fun c hc => of_decide_eq_true (List.all_eq_true.mp hall c hc)

theorem addressHex_toLower (a : Address) : ∀ c ∈ (P.addressHex a).toList, c.toLower = c ∧ c ≠ '%' := by
  intro c hc
  rw [Platform.addressHex, String.toList_ofList, List.mem_cons, List.mem_cons] at hc
  rcases hc with rfl | rfl | hc
  · decide
  · decide
  · exact hexDigit_toLower c (P.hexEncode_digits _ c hc)

/-- A request that names an address spells it in lower case, upper case or both. -/
theorem Names.lower {r : Request} {a : Address} (h : Names P r a) :
    r.org.toList.map Char.toLower = (P.addressHex a).toList := by
  have hlower : (P.addressHex a).toList.map Char.toLower = (P.addressHex a).toList :=
    (List.map_congr_left fun c hc => (addressHex_toLower a c hc).1).trans (List.map_id _)
  exact (of_decide_eq_true h : r.org.toList.map Char.toLower = _).trans hlower

/-- A request names one address at most. -/
theorem Names.unique {r : Request} {a b : Address} (ha : Names P r a) (hb : Names P r b) : a = b := by
  have heq : (P.addressHex a).toList = (P.addressHex b).toList := ha.lower.symm.trans hb.lower
  rw [Platform.addressHex, Platform.addressHex, String.toList_ofList, String.toList_ofList] at heq
  exact Subtype.ext (P.hexEncode_inj (List.cons.inj (List.cons.inj heq).2).2)

/-- An address is spelled without escapes, so that the framework hands it to the handlers as it stands. -/
theorem namespaceOf_names {r : Request} {a : Address} (h : Names P r a) :
    P.namespaceOf r = some (nsFor r.org) := by
  have hplain : '%' ∉ r.org.toList := by
    intro hmem
    have hmem' : '%' ∈ (P.addressHex a).toList := by
      rw [← h.lower]
      exact List.mem_map.mpr ⟨'%', hmem, by decide⟩
    exact (addressHex_toLower a _ hmem').2 rfl
  rw [Platform.namespaceOf, P.pathParam_plain _ hplain]
  rfl

end Names

/-- The requests of one address spell it alike, and the organisations of different addresses are hashed to
different namespaces. -/
def SpelledApart {ι : Type} (P : Platform) (reqs : ι → Request) : Prop :=
  ∀ i j a b, Names P (reqs i) a → Names P (reqs j) b →
    (a = b → (reqs i).org = (reqs j).org) ∧ (a ≠ b → nsFor (reqs i).org ≠ nsFor (reqs j).org)

/-- What is promised of the requests that have been accepted. -/
structure Authentic {ι : Type} (P : Platform) (reqs : ι → Request) (log : List (Accepted ι)) : Prop where
  once : (log.map fun e => (e.address, e.nonce)).Nodup
  increasing : log.Pairwise fun e e' => e.address = e'.address → e.nonce.toNat < e'.nonce.toNat
  digests : ∀ i j n n' b b', P.messageHash (reqs i).method (reqs i).path n b =
    P.messageHash (reqs j).method (reqs j).path n' b' →
      (reqs i).method = (reqs j).method ∧ (reqs i).path = (reqs j).path ∧ n = n' ∧ b = b'
  served : ∀ e ∈ log, (P.namespaceOf (reqs e.request)).isSome
  oneNamespace : ∀ e ∈ log, ∀ e' ∈ log, e.address = e'.address →
    P.namespaceOf (reqs e.request) = P.namespaceOf (reqs e'.request)
  ownNamespace : ∀ e ∈ log, ∀ e' ∈ log, e.address ≠ e'.address →
    P.namespaceOf (reqs e.request) ≠ P.namespaceOf (reqs e'.request)

/-- **Authentication**: in every run whose requests spell each address in one way, and whose addresses have
different namespaces, no nonce of an address is accepted twice, the accepted ones increase in the order of the
commits, and all requests of an address are served in one namespace, which no other address reaches. -/
theorem authentication {ι : Type} [DecidableEq ι] (P : Platform) (reqs : ι → Request) (h : SpelledApart P reqs)
    {nonces : Address → Option Bytes} {s : State ι} (hs : Reaches P reqs nonces s) : Authentic P reqs s.log := by
  have hordered := hs.ordered
  have hnames : ∀ e ∈ s.log, Names P (reqs e.request) e.address := fun e he => authenticate_org (hordered.signed e he)
  refine ⟨?_, hordered.increasing, fun i j n n' b b' => messageHash_inj P, fun e he => ?_, fun e he e' he' heq => ?_,
    fun e he e' he' hne => ?_⟩
  · refine List.pairwise_map.mpr (hordered.increasing.imp fun {e e'} hlt heq => ?_)
    obtain ⟨haddr, hnonce⟩ := Prod.mk.inj heq
    have hlt' := hlt haddr
    rw [hnonce] at hlt'
    exact lt_irrefl _ hlt'
  · rw [namespaceOf_names (hnames e he)]
    rfl
  · rw [namespaceOf_names (hnames e he), namespaceOf_names (hnames e' he'),
      (h _ _ _ _ (hnames e he) (hnames e' he')).1 heq]
  · rw [namespaceOf_names (hnames e he), namespaceOf_names (hnames e' he')]
    exact fun hns => (h _ _ _ _ (hnames e he) (hnames e' he')).2 hne (Option.some.inj hns)

/-! ### Requests of two addresses -/

/-- A byte in lower-case hexadecimal. -/
def byteHex (b : Byte) : List Char := [Nat.digitChar (b.toNat / 16), Nat.digitChar (b.toNat % 16)]

theorem digitChar_mem : ∀ n < 16, Nat.digitChar n ∈ hexDigits := by decide

theorem digitChar_inj : ∀ m < 16, ∀ n < 16, Nat.digitChar m = Nat.digitChar n → m = n := by decide

theorem byteHex_digits (b : Byte) : ∀ c ∈ byteHex b, c ∈ hexDigits := by
  have hlt : b.toNat < 256 := b.isLt
  intro c hc
  rw [byteHex, List.mem_cons, List.mem_singleton] at hc
  rcases hc with rfl | rfl
  · exact digitChar_mem _ (by omega)
  · exact digitChar_mem _ (by omega)

theorem byteHex_inj {b b' : Byte} (h : byteHex b = byteHex b') : b = b' := by
  have hlt : b.toNat < 256 := b.isLt
  have hlt' : b'.toNat < 256 := b'.isLt
  obtain ⟨hhi, htail⟩ := List.cons.inj h
  have hhi' := digitChar_inj _ (by omega) _ (by omega) hhi
  have hlo' := digitChar_inj _ (by omega) _ (by omega) (List.cons.inj htail).1
  apply BitVec.eq_of_toNat_eq
  omega

theorem flatMap_byteHex_inj {bs bs' : Bytes} (h : bs.flatMap byteHex = bs'.flatMap byteHex) : bs = bs' := by
  induction bs generalizing bs' with
  | nil =>
    cases bs' with
    | nil => rfl
    | cons b bs' => cases h
  | cons b bs ih =>
    cases bs' with
    | nil => cases h
    | cons b' bs' =>
      rw [List.flatMap_cons, List.flatMap_cons] at h
      obtain ⟨hhead, htail⟩ := List.append_inj h rfl
      rw [byteHex_inj hhead, ih htail]

/-- Pairs of hexadecimal digits read as bytes. -/
def readHex : Bytes → Option Bytes
  | [] => some []
  | hi :: lo :: rest => do
    let h ← hexVal hi
    let l ← hexVal lo
    let bytes ← readHex rest
    return BitVec.ofNat 8 (16 * h + l) :: bytes
  | [_] => none

/-- A platform on which the hash is the hashed text and a signature starts with the address of its signer. -/
def plainPlatform : Platform where
  Digest := Bytes
  keccak := id
  keccak_inj := Function.injective_id
  recover _ sig := if h : (sig.take 20).length = 20 then some ⟨sig.take 20, h⟩ else none
  hexEncode bytes := bytes.flatMap byteHex
  hexEncode_inj _ _ := flatMap_byteHex_inj
  hexEncode_digits bytes c hc := by
    obtain ⟨b, -, hb⟩ := List.mem_flatMap.mp hc
    exact byteHex_digits b c hb
  hexDecode := readHex
  headerStr value := if value.all fun b => 0x20#8 ≤ b ∧ b < 0x7f#8 ∨ b = ascii '\t' then some value else none
  toBytes body limit :=
    match body with
    | .error e => .error e
    | .ok bytes => if limit < bytes.length then .error "length limit exceeded" else .ok bytes
  pathParam := some
  pathParam_plain _ _ := rfl

/-- The address that ends in this byte, with zeros in front. -/
def lowAddress (b : Byte) : Address := ⟨List.replicate 19 0 ++ [b], rfl⟩

/-- The signature of an address as a header: the address, and zeros. -/
def sigOf (a : Address) : Bytes :=
  strBytes (plainPlatform.addressHex a) ++ List.replicate 90 (ascii '0')

/-- A request of `0xab`, in lower case. -/
def abRequest (nonce : String) : Request where
  method := "POST"
  org := "0x00000000000000000000000000000000000000ab"
  tail := "tx"
  sigHeader := some (sigOf (lowAddress 0xab#8))
  nonceHeader := some (strBytes nonce)
  body := .ok []
  org_segment := by decide +kernel
  method_line := by decide +kernel
  path_line := by decide +kernel

/-- The same request with the address in upper case. -/
def upperRequest (nonce : String) : Request where
  method := "POST"
  org := "0x00000000000000000000000000000000000000AB"
  tail := "tx"
  sigHeader := some (sigOf (lowAddress 0xab#8))
  nonceHeader := some (strBytes nonce)
  body := .ok []
  org_segment := by decide +kernel
  method_line := by decide +kernel
  path_line := by decide +kernel

/-- A request of `0xcd`. -/
def cdRequest (nonce : String) : Request where
  method := "POST"
  org := "0x00000000000000000000000000000000000000cd"
  tail := "tx"
  sigHeader := some (sigOf (lowAddress 0xcd#8))
  nonceHeader := some (strBytes nonce)
  body := .ok []
  org_segment := by decide +kernel
  method_line := by decide +kernel
  path_line := by decide +kernel

/-- Two requests of one address, one of another, and the first one once more. -/
def fourRequests : Fin 4 → Request := ![abRequest "5", cdRequest "5", abRequest "7", abRequest "5"]

theorem fourRequests_authenticated :
    (plainPlatform.authenticate (fourRequests 0)).toOption = some (lowAddress 0xab#8, 5) ∧
      (plainPlatform.authenticate (fourRequests 1)).toOption = some (lowAddress 0xcd#8, 5) ∧
        (plainPlatform.authenticate (fourRequests 2)).toOption = some (lowAddress 0xab#8, 7) := by
  refine ⟨?_, ?_, ?_⟩
  · decide +kernel
  · decide +kernel
  · decide +kernel

/-- The addresses the four requests name, and that their namespaces differ. -/
theorem fourRequests_apart : SpelledApart plainPlatform fourRequests := by
  have hab : Names plainPlatform (abRequest "5") (lowAddress 0xab#8) := by decide +kernel
  have hcd : Names plainPlatform (cdRequest "5") (lowAddress 0xcd#8) := by decide +kernel
  have hne : nsFor (abRequest "5").org ≠ nsFor (cdRequest "5").org := by decide +kernel
  have hrequest : ∀ i, ((fourRequests i).org = (abRequest "5").org ∧
      ∀ a, Names plainPlatform (fourRequests i) a → a = lowAddress 0xab#8) ∨
      ((fourRequests i).org = (cdRequest "5").org ∧
        ∀ a, Names plainPlatform (fourRequests i) a → a = lowAddress 0xcd#8) := by
    intro i
    fin_cases i
    · exact .inl ⟨rfl, fun a ha => Names.unique ha hab⟩
    · exact .inr ⟨rfl, fun a ha => Names.unique ha hcd⟩
    · exact .inl ⟨rfl, fun a ha => Names.unique (r := abRequest "5") ha hab⟩
    · exact .inl ⟨rfl, fun a ha => Names.unique ha hab⟩
  have hother : lowAddress 0xab#8 ≠ lowAddress 0xcd#8 := by decide
  intro i j a b ha hb
  rcases hrequest i with ⟨hi, hia⟩ | ⟨hi, hia⟩ <;> rcases hrequest j with ⟨hj, hjb⟩ | ⟨hj, hjb⟩ <;>
    rw [hia a ha, hjb b hb, hi, hj]
  · exact ⟨fun _ => rfl, fun h => absurd rfl h⟩
  · exact ⟨fun h => absurd h hother, fun _ => hne⟩
  · exact ⟨fun h => absurd h hother.symm, fun _ => hne.symm⟩
  · exact ⟨fun _ => rfl, fun h => absurd rfl h⟩

/-- Both addresses use nonce 5, and the first one goes on to 7; its request with nonce 5 is then refused. -/
theorem authentication_replay : ∃ s : State (Fin 4), Reaches plainPlatform fourRequests (fun _ => none) s ∧
    s.log = [⟨0, lowAddress 0xab#8, 5⟩, ⟨1, lowAddress 0xcd#8, 5⟩, ⟨2, lowAddress 0xab#8, 7⟩] ∧
    s.phase 3 = .refused (unauthorized "nonce too low: submitted 5, stored 7") ∧
    Authentic plainPlatform fourRequests s.log := by
  have h0 := toOption_eq_some fourRequests_authenticated.1
  have h1 := toOption_eq_some fourRequests_authenticated.2.1
  have h2 := toOption_eq_some fourRequests_authenticated.2.2
  have hother : lowAddress 0xcd#8 ≠ lowAddress 0xab#8 := by decide
  have hstart : Reaches plainPlatform fourRequests (fun _ => none) _ := .start
  obtain ⟨s, hs, hlog, hnonces, hphase⟩ := hstart.accept (i := 0) rfl h0 (by decide)
  obtain ⟨s', hs', hlog', hnonces', hphase'⟩ := hs.accept (i := 1) (hphase 1 (by decide)) h1
    (by rw [hnonces, Function.update_of_ne hother]; decide)
  have hstored : storedNonce (s'.nonces (lowAddress 0xab#8)) = 5 := by
    rw [hnonces', Function.update_of_ne hother.symm, hnonces, Function.update_self, storedNonce_wordBytes]
    rfl
  obtain ⟨s'', hs'', hlog'', hnonces'', hphase''⟩ := hs'.accept (i := 2)
    ((hphase' 2 (by decide)).trans (hphase 2 (by decide))) h2 (by rw [hstored]; decide)
  have harrived : s''.phase 3 = .arrived :=
    (hphase'' 3 (by decide)).trans ((hphase' 3 (by decide)).trans (hphase 3 (by decide)))
  have hlast : storedNonce (s''.nonces (lowAddress 0xab#8)) = 7 := by
    rw [hnonces'', Function.update_self, storedNonce_wordBytes]
    rfl
  have hlooking := hs''.step (.authenticated (i := 3) harrived h0)
  have hrefused := hlooking.step (.tooLow (i := 3) (a := lowAddress 0xab#8) (n := 5) (by simp [State.at])
    (by change _ ≤ storedNonce (s''.nonces (lowAddress 0xab#8)); rw [hlast]; decide))
  refine ⟨_, hrefused, ?_, ?_, authentication plainPlatform _ fourRequests_apart hrefused⟩
  · change s''.log = _
    rw [hlog'', hlog', hlog]
    rfl
  · have hresp : (unauthorized ("nonce too low: submitted " ++ toString (5 : U64).toNat ++ ", stored " ++
        toString (storedNonce (s''.nonces (lowAddress 0xab#8))))) =
        unauthorized "nonce too low: submitted 5, stored 7" := by
      rw [hlast]
      decide +kernel
    simpa [State.at] using hresp

/-! ### Two spellings of one address -/

/-- A request to the organisation `0xab` in lower case, and one in upper case. -/
def twoSpellings : Bool → Request
  | true => abRequest "1"
  | false => upperRequest "2"

theorem twoSpellings_authenticated :
    (plainPlatform.authenticate (twoSpellings true)).toOption = some (lowAddress 0xab#8, 1) ∧
      (plainPlatform.authenticate (twoSpellings false)).toOption = some (lowAddress 0xab#8, 2) := by
  constructor
  · decide +kernel
  · decide +kernel

/-- Two requests that one address has signed are served in two namespaces. -/
theorem spellings_split : ∃ s : State Bool, Reaches plainPlatform twoSpellings (fun _ => none) s ∧
    s.log = [⟨true, lowAddress 0xab#8, 1⟩, ⟨false, lowAddress 0xab#8, 2⟩] ∧
    ¬ Authentic plainPlatform twoSpellings s.log := by
  have hlower := toOption_eq_some twoSpellings_authenticated.1
  have hupper := toOption_eq_some twoSpellings_authenticated.2
  have hstart : Reaches plainPlatform twoSpellings (fun _ => none) _ := .start
  obtain ⟨s, hs, hlog, hnonces, hphase⟩ := hstart.accept (i := true) rfl hlower (by decide)
  have hstored : storedNonce (s.nonces (lowAddress 0xab#8)) = 1 := by
    rw [hnonces, Function.update_self, storedNonce_wordBytes]
    rfl
  obtain ⟨s', hs', hlog', -, -⟩ := hs.accept (i := false) (hphase false (by decide)) hupper
    (by rw [hstored]; decide)
  have hboth : s'.log = [⟨true, lowAddress 0xab#8, 1⟩, ⟨false, lowAddress 0xab#8, 2⟩] := by
    rw [hlog', hlog]
    rfl
  refine ⟨s', hs', hboth, fun hauth => ?_⟩
  have hone := hauth.oneNamespace ⟨true, lowAddress 0xab#8, 1⟩ (by rw [hboth]; simp) ⟨false, lowAddress 0xab#8, 2⟩
    (by rw [hboth]; simp) rfl
  have htwo : plainPlatform.namespaceOf (twoSpellings true) ≠ plainPlatform.namespaceOf (twoSpellings false) := by
    decide +kernel
  exact htwo hone

end Rend.Server
