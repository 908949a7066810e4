import SignerHost.Descriptor.Derivation
import SignerHost.ExtendedKey

/-!
# Key expressions

A key expression is an optional origin in brackets, a key, and the steps behind it.

* The key is an extended key, a public key in hexadecimal, or a private key in base 58.  Only an
  extended key takes steps.
* The origin has to be well formed and is not used otherwise.
* A taproot key may be given by its abscissa alone.
-/

namespace SignerHost

/-- A key as a descriptor names it.  Its origin is checked while it is read, and then forgotten. -/
inductive KeyExpression
  | extended (key : ExtendedKey) (derivation : Derivation)
  | publicKey (key : PublicKey)
  | privateKey (key : PrivateKey)
  deriving DecidableEq

/-- A key after derivation. -/
inductive DerivedKey
  | publicKey (key : PublicKey)
  | privateKey (key : PrivateKey)
  deriving DecidableEq

/-- The text before the first of the stop characters, and the text from there on. -/
def Text.cut (stops : List Char) (cs : List Char) : List Char × List Char :=
  cs.span fun c => !stops.contains c

namespace PrivateKey

/-- Reads the base 58 form: a byte that names the network, the scalar, and a one if the public
key is compressed. -/
def ofText? (text : List Char) : Option PrivateKey :=
  match Base58.decodeCheck? text with
  | some payload =>
      if payload.length = 33 then ofBytes? (payload.drop 1) false
      else if payload.length = 34 ∧ payload.getLast? = some 0x01 then
        ofBytes? ((payload.drop 1).take 32) true
      else none
  | none => none

end PrivateKey

namespace KeyExpression

/-! ## Reading -/

/-- Whether a step of an origin is well formed. -/
def isOriginStep (cs : List Char) : Bool :=
  let digits := if cs.getLast?.any DerivationStep.isMarker then cs.dropLast else cs
  !cs.isEmpty && (Decimal.integer? digits).isSome

/-- Whether a text is a fingerprint of four bytes, followed by steps.  Empty steps at the end do
not count. -/
def isOrigin (cs : List Char) : Bool :=
  match Text.splitAt '/' cs with
  | fingerprint :: steps =>
      let steps := (steps.reverse.dropWhile List.isEmpty).reverse
      ((Bytes.ofHex? fingerprint).any fun bs => bs.length = 4) && steps.all isOriginStep
  | [] => false

/-- The text behind an origin, if there is one.  An origin that is not well formed is refused. -/
def skipOrigin? : List Char → Option (List Char)
  | '[' :: cs =>
      let (origin, rest) := Text.cut [']'] cs
      if rest ≠ [] ∧ isOrigin origin then some (rest.drop 1) else none
  | cs => some cs

/-- The rest of a text of steps behind a set that ends with a bracket. -/
def stepsBehindSet? (front : List Char) (first last : Char) (cs : List Char) :
    Option (List Char × List Char) :=
  match Text.cut [last] cs with
  | (_, []) => none
  | (inside, _ :: rest) =>
      let (back, rest) := Text.cut [',', ')'] rest
      some (front ++ first :: inside ++ last :: back, rest)

/-- The text of the steps, which ends at a comma or a parenthesis outside of a set. -/
def steps? (cs : List Char) : Option (List Char × List Char) :=
  match Text.cut ['<', '{', ',', ')'] cs with
  | (front, '<' :: rest) => stepsBehindSet? front '<' '>' rest
  | (front, '{' :: rest) => stepsBehindSet? front '{' '}' rest
  | parts => some parts

/-- Whether a text has the length and the first digits of a public key in hexadecimal.  It
decides how the text is read, and not whether it is a key. -/
def isHexKey (text : List Char) : Bool :=
  (text.length = 66 || text.length = 130)
    && ['0' :: '2' :: [], ['0', '3'], ['0', '4']].contains (text.take 2)

/-- Whether a text shows that it is an extended key. -/
def isExtendedText (text : List Char) : Bool :=
  [['p', 'u', 'b'], ['p', 'r', 'v']].contains ((text.drop 1).take 3)

/-- The key of a text and the steps behind it. -/
def ofText? (taproot : Bool) (text steps : List Char) : Option KeyExpression :=
  if isHexKey text then
    if steps = [] then ((Bytes.ofHex? text).bind PublicKey.ofBytes?).map publicKey else none
  else if taproot ∧ text.length = 64 then
    if steps = [] then ((Bytes.ofHex? text).bind PublicKey.ofXOnly?).map publicKey else none
  else if isExtendedText text then do
    let key ← ExtendedKey.ofText? text
    let derivation ← Derivation.parse? key.key.isPrivate steps
    return extended key derivation
  else if steps = [] then (PrivateKey.ofText? text).map privateKey
  else none

/-- Reads a key expression up to a comma or a parenthesis. -/
def read? (taproot : Bool) (cs : List Char) : Option (KeyExpression × List Char) := do
  let cs ← skipOrigin? cs
  match Text.cut [',', ')', '/'] cs with
  | (text, '/' :: rest) =>
      let (steps, rest) ← steps? rest
      return (← ofText? taproot text steps, rest)
  | (text, rest) => return (← ofText? taproot text [], rest)

/-! ## Deriving -/

/-- The number of steps in the set of an extended key. -/
def setSize? : KeyExpression → Option Nat
  | extended _ derivation => derivation.setSize?
  | _ => none

/-- The key for the address at an index.  A key without steps is the same for every index. -/
def derive? (index : Int) : KeyExpression → Option DerivedKey
  | extended key derivation => do
      let derived ← (← derivation.fill? index).foldlM ExtendedKey.child? key
      match derived.key with
      | .publicKey k => return .publicKey k
      | .privateKey k => return .privateKey k
  | publicKey key => some (.publicKey key)
  | privateKey key => some (.privateKey key)

end KeyExpression

namespace DerivedKey

def publicKey? : DerivedKey → Option PublicKey
  | publicKey key => some key
  | privateKey key => key.publicKey?

/-- The taproot output key.  A private key without compression counts as one whose ordinate is
odd. -/
def taprootOutput? (k : DerivedKey) : Option Bytes := do
  let key ← k.publicKey?
  let negated := match k with
    | publicKey _ => false
    | privateKey _ => !key.compressed && key.point.y % 2 = 0
  key.taprootOutput? negated

end DerivedKey

end SignerHost
