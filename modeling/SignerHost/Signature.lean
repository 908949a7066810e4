import SignerHost.Failure
import SignerHost.Text.Base64

/-!
# Signatures

* A partial signature comes as it is put into an input: an ECDSA signature followed by the byte of
  its signature hash type, or a Schnorr signature of 64 bytes, which names no type, or of 65 bytes,
  whose last byte names one other than zero.
* Which bytes are an ECDSA signature is up to a parser of a library.  Wherever it matters the parser
  is an argument, and `Der.isSignature` is the one in use: two positive integers in strict DER.
* The signature of a message is a header byte and 64 bytes, and is shown in base 64.
-/

namespace SignerHost

/-! ## Strict DER -/

namespace Der

/-- A positive integer at the front: the tag, a length below 128, and as few bytes as possible.
In front of other bytes a zero byte is allowed only where the next one has its high bit set. -/
def integer? : Bytes → Option (Nat × Bytes)
  | tag :: length :: rest =>
      let body := rest.take length.toNat
      if tag = 0x02 ∧ length < 0x80 ∧ body.length = length.toNat then
        match body with
        | [] => none
        | [b] => if b < 0x80 then some (b.toNat, rest.drop 1) else none
        | b :: c :: _ =>
            if b < 0x80 ∧ ¬ (b = 0 ∧ c < 0x80) then
              some (Bytes.toNatBE body, rest.drop length.toNat)
            else none
      else none
  | _ => none

/-- The two integers of a signature, with nothing left over.  The tag and the length of the whole
stand in front of them. -/
def signature? : Bytes → Option (Nat × Nat)
  | tag :: length :: rest =>
      if tag = 0x30 ∧ length < 0x80 ∧ rest.length = length.toNat then
        match integer? rest with
        | some (r, rest) =>
            match integer? rest with
            | some (s, []) => some (r, s)
            | _ => none
        | none => none
      else none
  | _ => none

/-- Whether bytes are a signature of two positive integers.  Neither integer is compared with the
order of the group. -/
def isSignature (bs : Bytes) : Bool := (signature? bs).isSome

end Der

/-! ## Partial signatures -/

inductive SignatureScheme
  | ecdsa
  | schnorr
  deriving DecidableEq

/-- A signature as it is put into an input, and the scheme that its bytes were taken for.  The
scheme is not written anywhere; it is what the reader made of the bytes. -/
structure PartialSignature where
  scheme : SignatureScheme
  bytes : Bytes
  deriving DecidableEq

namespace PartialSignature

/-- Whether bytes are an ECDSA signature and one more byte, its type.  What counts as a signature is
up to the parser. -/
def isEcdsa (isSignature : Bytes → Bool) (bs : Bytes) : Bool :=
  2 ≤ bs.length && isSignature bs.dropLast

/-- Whether bytes have a length of a Schnorr signature.  A type behind the signature is never
zero. -/
def isSchnorr (bs : Bytes) : Bool :=
  bs.length = 64 || (bs.length = 65 && bs.getLastD 0 ≠ 0)

/-- Tells the scheme from the bytes; the one with integers is tried first.  Bytes that could be
either are therefore taken for an ECDSA signature. -/
def ofBytes (isSignature : Bytes → Bool) (bs : Bytes) : Except Failure PartialSignature :=
  if isEcdsa isSignature bs then .ok ⟨.ecdsa, bs⟩
  else if isSchnorr bs then .ok ⟨.schnorr, bs⟩
  else .error (.malformed (.signatureEncoding bs.length))

/-- The signature hash type: the last byte, or zero if none is named.  Only a Schnorr signature
of 64 bytes names none. -/
def hashType (s : PartialSignature) : Except Failure UInt8 :=
  if s.scheme = .schnorr ∧ s.bytes.length = 64 then .ok 0
  else
    match s.bytes.getLast? with
    | some b => .ok b
    | none => .error (.bounds .bytes)

end PartialSignature

/-! ## Message signatures -/

/-- A header and the 64 bytes of a compact signature.  The header is an integer of the caller, so it
may be no byte. -/
structure MessageSignature where
  header : Int
  signature : Bytes
  deriving DecidableEq

namespace MessageSignature

/-- The usual text of a signature.  It is base 64 of the header byte and the 64 bytes behind it;
a header that is no byte has none. -/
def text (s : MessageSignature) : Except Failure String :=
  if Bytes.fits 1 s.header then
    .ok (Base64.encode (UInt8.ofNat s.header.toNat :: s.signature))
  else .error (.malformed .byteBound)

end MessageSignature

end SignerHost
