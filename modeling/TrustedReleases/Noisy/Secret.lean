import TrustedReleases.Lib.Bytes
import TrustedReleases.Lib.Except

/-!
# Noisy secrets

The construction and the verification of noisy secrets (`atr/noisy.py`), in the order of the source.  A secret is
`secret_`, a namespace, `_`, a payload of 32 symbols and a checksum of eight; the checksum interleaves those of two
messages, which are the symbols of the padded namespace and the payload at even and at odd places.
-/

namespace TrustedReleases

open Lib

namespace Noisy

/-! ### Alphabets -/

def base37Alphabet : Bytes := ascii "0123456789_abcdefghijklmnopqrstuvwxyz".toList

def base36Alphabet : Bytes := ascii "0123456789abcdefghijklmnopqrstuvwxyz".toList

def base32Alphabet : Bytes := ascii "23456789abcdefghijkmnpqrstuvwxyz".toList

def componentAlphabet : Bytes := ascii "-0123456789abcdefghijklmnopqrstuvwxyz".toList

def dot : Byte := byte 46

def hyphen : Byte := byte 45

def two : Byte := byte 50

def underscore : Byte := byte 95

/-- `PREFIX`. -/
def secretPrefix : Bytes := ascii "secret".toList

def pad : Byte := underscore

/-- The order of the field. -/
def q : Int := 37

/-! ### Errors -/

/-- What the module raises: its own `ValueError`s, and those of lookups that find nothing. -/
inductive Error where
  | invalidComponent (component : Bytes)
  | hyphenAtEnd (component : Bytes)
  | emptyComponent (component : Bytes)
  | tooLong (joined : Bytes)
  | notInField (symbol : Byte)
  | outOfRange
  deriving DecidableEq, Repr

/-- The texts of the `ValueError`s, given the text of a byte string. -/
def Error.message (repr : Bytes → String) : Error → Option String
  | invalidComponent component => some s!"Invalid component: {repr component}"
  | hyphenAtEnd component => some s!"Component cannot start or end with a hyphen: {repr component}"
  | emptyComponent component => some s!"Component cannot be empty: {repr component}"
  | tooLong joined => some s!"Namespace is too long: {repr joined}"
  | notInField _ => none
  | outOfRange => none

/-! ### Byte strings -/

/-- Every second element, from the first on: `value[::2]`. -/
def everyOther {α : Type} : List α → List α
  | [] => []
  | [a] => [a]
  | a :: _ :: s => a :: everyOther s

/-- `value.replace(b"__", b"-")`. -/
def replacePairs : Bytes → Bytes
  | a :: b :: s => if a = underscore ∧ b = underscore then hyphen :: replacePairs s else a :: replacePairs (b :: s)
  | [a] => [a]
  | [] => []

/-- `value.replace(b"-", b"__")`. -/
def replaceHyphens (value : Bytes) : Bytes :=
  value.flatMap fun b => if b = hyphen then [underscore, underscore] else [b]

/-! ### Namespaces -/

def isComponentString (value : Bytes) : Bool := decide (∀ b ∈ value, b ∈ componentAlphabet)

/-- One pass of the loop over the components. -/
def checkComponent (component : Bytes) : Except Error Unit := do
  raiseIf (isComponentString component = false) (.invalidComponent component)
  raiseIf (component.head? = some hyphen ∨ component.getLast? = some hyphen) (.hyphenAtEnd component)
  raiseIf (component = []) (.emptyComponent component)

/-- `construct_namespace`, where a domain is given. -/
def constructDomainNamespace (fqdn : Bytes) : Except Error Bytes := do
  let components := fqdn.splitOn dot
  components.forM checkComponent
  let joined := [underscore].intercalate (components.reverse.map replaceHyphens)
  raiseIf (30 < joined.length) (.tooLong joined)
  let length ← demand base32Alphabet[joined.length + 1]? .outOfRange
  return [length] ++ [pad] ++ joined

/-- `construct_namespace`. -/
def constructNamespace : Option Bytes → Except Error Bytes
  | none => .ok [two]
  | some fqdn => constructDomainNamespace fqdn

/-- `construct_namespace_domain`. -/
def constructNamespaceDomain (namespaceString : Bytes) : Option Bytes :=
  if namespaceString = [two] then none
  else some ([dot].intercalate ((replacePairs (namespaceString.drop 2)).splitOn pad).reverse)

def isNamespaceStringSuffix : Bytes → Except Error Bool
  | [] => .error .outOfRange
  | first :: rest =>
    if first ∉ base36Alphabet then .ok false
    else if (first :: rest).length = 1 then .ok true
    else if rest.getLastD first ∉ base36Alphabet then .ok false
    else if (first :: rest).length = 2 then .ok true
    else .ok (decide (∀ b ∈ rest.dropLast, b ∈ base37Alphabet))

def isNamespaceString : Bytes → Except Error Bool
  | [] => .ok false
  | lengthPrefix :: rest =>
    match base32Alphabet.idxOf? lengthPrefix with
    | none => .ok false
    | some i =>
      if i = 1 then .ok false
      else if (lengthPrefix :: rest).length = 1 then .ok (decide (lengthPrefix = two ∧ i = 0))
      else if (lengthPrefix :: rest).length ≠ i + 1 then .ok false
      else if rest.head? ≠ some underscore then .ok false
      else isNamespaceStringSuffix (rest.drop 1)

/-! ### Payloads -/

def isPayloadString (value : Bytes) : Bool := decide (∀ b ∈ value, b ∈ base32Alphabet)

/-- What `construct_payload` chooses from: 32 symbols of the alphabet. -/
@[ext]
structure Payload where
  value : Bytes
  length : value.length = 32
  symbols : ∀ b ∈ value, b ∈ base32Alphabet

/-! ### Checksums -/

/-- `FIELD_MAP[b]`. -/
def fieldMap (b : Byte) : Except Error Int := do
  let i ← demand (base37Alphabet.idxOf? b) (.notInField b)
  return i

/-- The registers of `checksum_compute`. -/
structure Registers where
  r0 : Int
  r1 : Int
  r2 : Int
  r3 : Int
  deriving DecidableEq, Repr

/-- One pass of the loop of `checksum_compute`. -/
def Registers.feed (r : Registers) (symbol : Int) : Registers :=
  let feedback := (symbol + r.r0) % q
  ⟨(r.r1 - feedback * 6) % q, (r.r2 - feedback * 26) % q, (r.r3 - feedback * 21) % q, (-feedback * 3) % q⟩

/-- `BASE37_ALPHABET[n % Q]`. -/
def symbolOf (n : Int) : Byte := base37Alphabet.getD (n % q).toNat pad

def checksumCompute (message : Bytes) : Except Error Bytes := do
  let symbols ← message.mapM fieldMap
  let r := symbols.foldl Registers.feed ⟨0, 0, 0, 0⟩
  return [symbolOf (-r.r0), symbolOf (-r.r1), symbolOf (-r.r2), symbolOf (-r.r3)]

/-! ### Secrets -/

def constructPaddedNamespaceTag (namespaceString : Bytes) : Bytes :=
  namespaceString ++ List.replicate (32 - namespaceString.length) pad

/-- The even and the odd message. -/
def constructMessageTags (namespaceString payloadString : Bytes) : Bytes × Bytes :=
  let padded := constructPaddedNamespaceTag namespaceString
  (everyOther padded ++ everyOther payloadString, everyOther (padded.drop 1) ++ everyOther (payloadString.drop 1))

def constructInterleavedChecksumTag (evenChecksum oddChecksum : Bytes) : Bytes :=
  (evenChecksum.zip oddChecksum).flatMap fun pair => [pair.1, pair.2]

def constructNoisySecretTag (namespaceString payloadString : Bytes) : Except Error Bytes := do
  let messages := constructMessageTags namespaceString payloadString
  let evenChecksum ← checksumCompute messages.1
  let oddChecksum ← checksumCompute messages.2
  return secretPrefix ++ [pad] ++ namespaceString ++ [pad] ++ payloadString ++
    constructInterleavedChecksumTag evenChecksum oddChecksum

/-- `construct_noisy_secret`, with the payload that it chooses. -/
def constructNoisySecret (fqdn : Option Bytes) (payload : Payload) : Except Error Bytes := do
  let namespaceString ← constructNamespace fqdn
  constructNoisySecretTag namespaceString payload.value

/-! ### Verification -/

def isCandidate (value : Bytes) : Bool :=
  decide (value.length = 49 ∨ (51 ≤ value.length ∧ value.length ≤ 80))

def namespaceRange (candidate : Bytes) : Bytes := slice 7 (candidate.length - 41) candidate

def payloadRange (candidate : Bytes) : Bytes :=
  slice (candidate.length - 40) (candidate.length - 8) candidate

def constructCandidateNamespace (candidate : Bytes) : Except Error (Option Bytes) := do
  let accepted ← isNamespaceString (namespaceRange candidate)
  return if accepted then some (namespaceRange candidate) else none

def constructCandidatePayload (candidate : Bytes) : Option Bytes :=
  if isPayloadString (payloadRange candidate) then some (payloadRange candidate) else none

def constructExpectedCandidate (candidate : Bytes) : Except Error (Option Bytes) := do
  match ← constructCandidateNamespace candidate with
  | none => return none
  | some candidateNamespace =>
    match constructCandidatePayload candidate with
    | none => return none
    | some candidatePayload => return some (← constructNoisySecretTag candidateNamespace candidatePayload)

def isNoisySecretTag (candidate : Bytes) : Except Error Bool := do
  let expected ← constructExpectedCandidate candidate
  return decide (expected = some candidate)

/-- `verify`, of a byte string. -/
def verify (value : Bytes) : Except Error Bool :=
  if isCandidate value then isNoisySecretTag value else .ok false

end Noisy

end TrustedReleases
