import Rend.Json.Text

/-!
# Signed requests

How the server authenticates a request (`auth.rs`), advances the nonce of an address (`RocksKv::bump_nonce`)
and chooses the namespace in which the request is served (`ServerState::ns_for`).

The hash, the recovery of an address from a signature, the hexadecimal codec and what the web framework makes of
headers, bodies and path parameters are those of a `Platform`. The requests are handled at the same time: each
goes through the phases of its own, and the transactions on the nonces commit in any order.
-/

namespace Rend.Server

open Lib JsonText

/-! ### Addresses and namespaces -/

/-- An address: twenty bytes. -/
abbrev Address := { bytes : Bytes // bytes.length = 20 }

/-- `eq_ignore_ascii_case` -/
def eqIgnoreAsciiCase (s t : String) : Bool := s.toList.map Char.toLower = t.toList.map Char.toLower

/-- The namespace of an organisation: half of a hash of its name. -/
def nsFor (org : String) : U64 := (child 0 (strBytes org)).setWidth 64

/-- Two addresses with one namespace. -/
theorem nsFor_collision :
    nsFor "0x4283fefc63f0cd0e873a0000c618d332b2f7abd6" = nsFor "0x4283fefc63f0cd0e873a0000c64cacf613872aa9" := by
  decide +kernel

/-! ### Requests -/

/-- A request to one of the routes below `/v1/orgs/:org/`, which are the only ones that are authenticated. The
framework lets no newline into a method or a path. -/
structure Request where
  method : String
  org : String
  tail : String
  sigHeader : Option Bytes
  nonceHeader : Option Bytes
  body : Except String Bytes
  org_segment : '/' ∉ org.toList
  method_line : ascii '\n' ∉ strBytes method
  path_line : ascii '\n' ∉ strBytes ("/v1/orgs/" ++ org ++ "/" ++ tail)

def Request.path (r : Request) : String := "/v1/orgs/" ++ r.org ++ "/" ++ r.tail

/-- The digits that bytes are written in. -/
def hexDigits : List Char := "0123456789abcdef".toList

/-- What the code relies on and does not contain: the hash, the recovery of a signer, the hexadecimal codec, the
text of a header, the reading of a body up to a limit, and the decoding of a path parameter. Bytes are written in
lower case and in one way each, and a parameter without escapes stands for itself. -/
structure Platform where
  Digest : Type
  keccak : Bytes → Digest
  keccak_inj : Function.Injective keccak
  recover : Digest → Bytes → Option Address
  hexEncode : Bytes → List Char
  hexEncode_inj : Function.Injective hexEncode
  hexEncode_digits : ∀ bytes, ∀ c ∈ hexEncode bytes, c ∈ hexDigits
  hexDecode : Bytes → Option Bytes
  headerStr : Bytes → Option Bytes
  toBytes : Except String Bytes → ℕ → Except String Bytes
  pathParam : String → Option String
  pathParam_plain : ∀ s, '%' ∉ s.toList → pathParam s = some s

/-- A response that refuses a request. -/
structure Response where
  status : ℕ
  error : String
  deriving DecidableEq

def unauthorized (msg : String) : Response := ⟨401, msg⟩

def okOr {α : Type} (resp : Response) : Option α → Except Response α
  | none => .error resp
  | some a => .ok a

def internal (msg : String) : Response := ⟨500, msg⟩

/-! ### Headers -/

def stripHexPrefix (s : Bytes) : Bytes :=
  match s with
  | b :: b' :: rest => if b = ascii '0' ∧ b' = ascii 'x' then rest else s
  | s => s

/-- `u64::from_str` -/
def parseU64 (s : Bytes) : Option U64 :=
  let digits := if s.head? = some (ascii '+') then s.tail else s
  if digits = [] ∨ !digits.all Parser.isDigit ∨ 2 ^ 64 ≤ digitsVal digits then none
  else some (BitVec.ofNat 64 (digitsVal digits))

def maxBody : ℕ := 8 * 1024 * 1024

/-- The third segment of a path below `/v1/orgs`. -/
def pathOrg (path : String) : Option String :=
  match (path.toList.dropWhile fun c => c = '/').splitOn '/' with
  | v :: orgs :: org :: _ => if v = "v1".toList ∧ orgs = "orgs".toList then some (String.ofList org) else none
  | _ => none

/-! ### Signatures -/

/-- What is hashed: the parts of a request, apart by newlines. -/
def preimage (method path : String) (nonce : U64) (body : Bytes) : Bytes :=
  strBytes "REND/v1\n" ++ (strBytes method ++ ascii '\n' :: (strBytes path ++ ascii '\n' ::
    (wordBytes 8 nonce ++ ascii '\n' :: body)))

namespace Platform

variable (P : Platform)

/-- `0x` and the bytes of an address. -/
def addressHex (a : Address) : String := String.ofList ('0' :: 'x' :: P.hexEncode a.val)

def parseSig (value : Bytes) : Except String Bytes :=
  match P.headerStr value with
  | none => .error "X-Rend-Sig must be ASCII"
  | some s =>
    match P.hexDecode (stripHexPrefix s) with
    | none => .error "X-Rend-Sig is not valid hex"
    | some bytes =>
      if bytes.length ≠ 65 then .error ("X-Rend-Sig must be 65 bytes, got " ++ toString bytes.length) else .ok bytes

def messageHash (method path : String) (nonce : U64) (body : Bytes) : P.Digest :=
  P.keccak (preimage method path nonce body)

def recoverAddress (method path : String) (nonce : U64) (body sig : Bytes) : Option Address :=
  P.recover (P.messageHash method path nonce body) sig

/-- The part of `check_auth` that comes before the nonce is advanced: the address that has signed the request
and the nonce it carries. -/
def authenticate (r : Request) : Except Response (Address × U64) := do
  let sigHdr ← okOr (unauthorized "missing X-Rend-Sig") r.sigHeader
  let sig ← (P.parseSig sigHdr).mapError unauthorized
  let nonce ← okOr (unauthorized "missing or malformed X-Rend-Nonce") ((r.nonceHeader.bind P.headerStr).bind parseU64)
  let body ← (P.toBytes r.body maxBody).mapError fun e => unauthorized ("body read failed: " ++ e)
  let recovered ← okOr (unauthorized "signature recovery failed")
    (P.recoverAddress r.method r.path nonce body sig)
  let org ← okOr (unauthorized "no org segment in path") (pathOrg r.path)
  let expected := P.addressHex recovered
  if !eqIgnoreAsciiCase org expected then
    .error (unauthorized ("signature recovers to " ++ expected ++ ", not org " ++ org))
  else return (recovered, nonce)

/-- The namespace in which the handlers serve a request that has been accepted. -/
def namespaceOf (r : Request) : Option U64 := (P.pathParam r.org).map nsFor

end Platform

/-! ### Nonces -/

/-- The nonce that is stored as these bytes; zero when there are none. -/
def storedNonce : Option Bytes → ℕ
  | none => 0
  | some b => ofBeBytes (b.take 8 ++ List.replicate (8 - b.length) 0)

/-- How far a request has come. While it is `staged`, its transaction has read the nonce for update and has put
the new one. -/
inductive Phase
  | arrived
  | looking (address : Address) (nonce : U64)
  | staged (address : Address) (nonce : U64) (seen : Option Bytes)
  | accepted
  | refused (resp : Response)

/-- A nonce that has been accepted, and the request it came with. -/
structure Accepted (ι : Type) where
  request : ι
  address : Address
  nonce : U64

/-- The nonces that are stored, the phase of each request and, as history, what has been accepted, in the order
of the commits. -/
structure State (ι : Type) where
  nonces : Address → Option Bytes
  phase : ι → Phase
  log : List (Accepted ι) := []

section Steps

variable {ι : Type} [DecidableEq ι] (P : Platform) (reqs : ι → Request)

def State.at (s : State ι) (i : ι) (phase : Phase) : State ι := { s with phase := Function.update s.phase i phase }

/-- One step of one request. A transaction commits only if the nonce it has read is unchanged; it may also be
told to try again, and every operation of the store may fail. -/
inductive Step : State ι → State ι → Prop
  | refuse {s : State ι} {i : ι} {resp : Response} (hi : s.phase i = .arrived)
      (h : P.authenticate (reqs i) = .error resp) : Step s (s.at i (.refused resp))
  | authenticated {s : State ι} {i : ι} {a : Address} {n : U64} (hi : s.phase i = .arrived)
      (h : P.authenticate (reqs i) = .ok (a, n)) : Step s (s.at i (.looking a n))
  | tooLow {s : State ι} {i : ι} {a : Address} {n : U64} (hi : s.phase i = .looking a n)
      (h : n.toNat ≤ storedNonce (s.nonces a)) :
      Step s (s.at i (.refused (unauthorized ("nonce too low: submitted " ++ toString n.toNat ++ ", stored " ++
        toString (storedNonce (s.nonces a))))))
  | stage {s : State ι} {i : ι} {a : Address} {n : U64} (hi : s.phase i = .looking a n)
      (h : storedNonce (s.nonces a) < n.toNat) : Step s (s.at i (.staged a n (s.nonces a)))
  | commit {s : State ι} {i : ι} {a : Address} {n : U64} {seen : Option Bytes} (hi : s.phase i = .staged a n seen)
      (h : s.nonces a = seen) :
      Step s { (s.at i .accepted) with
        nonces := Function.update s.nonces a (some (wordBytes 8 n)), log := s.log ++ [⟨i, a, n⟩] }
  | busy {s : State ι} {i : ι} {a : Address} {n : U64} {seen : Option Bytes} (hi : s.phase i = .staged a n seen) :
      Step s (s.at i (.looking a n))
  | lookFailed {s : State ι} {i : ι} {a : Address} {n : U64} (hi : s.phase i = .looking a n) :
      Step s (s.at i (.refused (internal "nonce store error")))
  | commitFailed {s : State ι} {i : ι} {a : Address} {n : U64} {seen : Option Bytes}
      (hi : s.phase i = .staged a n seen) : Step s (s.at i (.refused (internal "nonce store error")))

/-- The states that the server reaches from a store of nonces, in any order of the steps. -/
inductive Reaches (nonces : Address → Option Bytes) : State ι → Prop
  | start : Reaches nonces { nonces := nonces, phase := fun _ => .arrived }
  | step {s s' : State ι} (h : Reaches nonces s) (hs : Step P reqs s s') : Reaches nonces s'

end Steps

end Rend.Server
