import SignerHost.Proofs.Signature.Der
import SignerHost.Proofs.Signature.Input

/-!
# The scheme of a signature

The two forms of a signature overlap: a signature with two integers and its type may have 64 or 65
bytes.  The form with integers is tried first, so it is what such bytes count as.

* `Ambiguous` are the bytes in both forms, for any parser of signatures.
* `AcceptsScalars` is what a parser has to do at least.  Then the widths of the integers say which
  signatures are ambiguous (`ambiguous_write_iff`).
* `scheme_exact` says that bytes that carry a Schnorr signature are reported as such, with the type
  that they name, exactly if they are not ambiguous.
-/

namespace SignerHost

open Step

/-! ## What a parser accepts -/

namespace Der

/-- A number that a signature may have for one of its integers. -/
def IsScalar (n : Nat) : Prop := 0 < n ∧ n < Curve.groupOrder

instance (n : Nat) : Decidable (IsScalar n) := inferInstanceAs (Decidable (_ ∧ _))

/-- A parser accepts the strict form of every two scalars.  It may accept other bytes as well:
numbers that are no scalars, negative ones, or longer forms. -/
def AcceptsScalars (isSignature : Bytes → Bool) : Prop :=
  ∀ r s, IsScalar r → IsScalar s → isSignature (write r s) = true

theorem width_le_of_isScalar {n : Nat} (h : IsScalar n) : width n ≤ 33 := by
  have hsize : n.size ≤ 256 :=
    Nat.size_le.mpr (h.2.trans_le (by decide +kernel : Curve.groupOrder ≤ 2 ^ 256))
  rw [width]
  omega

theorem isSignature_iff {bs : Bytes} :
    isSignature bs = true ↔ ∃ r s, 4 + width r + width s < 128 ∧ bs = write r s := by
  rw [isSignature, Option.isSome_iff_exists]
  simp only [Prod.exists, signature?_eq_some]

theorem acceptsScalars_isSignature : AcceptsScalars isSignature := by
  intro r s hr hs
  have hwidthr := width_le_of_isScalar hr
  have hwidths := width_le_of_isScalar hs
  exact isSignature_iff.mpr ⟨r, s, by omega, rfl⟩

end Der

namespace PartialSignature

variable {isSignature : Bytes → Bool}

/-! ## Both forms -/

/-- Bytes in both forms: what the parser takes for a signature and a type behind it, in 64 bytes, or
in 65 bytes if the type is not zero. -/
def Ambiguous (isSignature : Bytes → Bool) (bs : Bytes) : Prop :=
  ∃ body hashType, bs = body ++ [hashType] ∧ isSignature body = true ∧
    (body.length = 63 ∨ body.length = 64 ∧ hashType ≠ 0)

theorem isEcdsa_iff {bs : Bytes} :
    isEcdsa isSignature bs = true ↔
      ∃ body hashType, bs = body ++ [hashType] ∧ body ≠ [] ∧ isSignature body = true := by
  rw [isEcdsa, Bool.and_eq_true, decide_eq_true_eq]
  constructor
  · rintro ⟨hlength, hbody⟩
    have hne : bs ≠ [] := List.ne_nil_of_length_pos (by omega)
    refine ⟨bs.dropLast, bs.getLast hne, (List.dropLast_append_getLast hne).symm, ?_, hbody⟩
    refine List.ne_nil_of_length_pos ?_
    rw [List.length_dropLast]
    omega
  · rintro ⟨body, hashType, rfl, hne, hbody⟩
    have hpos := List.length_pos_iff.mpr hne
    rw [List.dropLast_concat, List.length_append, List.length_singleton]
    exact ⟨by omega, hbody⟩

theorem isSchnorr_concat (body : Bytes) (hashType : UInt8) :
    isSchnorr (body ++ [hashType]) = true ↔
      body.length = 63 ∨ body.length = 64 ∧ hashType ≠ 0 := by
  rw [isSchnorr, List.length_append, List.length_singleton]
  simp

theorem ambiguous_iff {bs : Bytes} :
    isEcdsa isSignature bs = true ∧ isSchnorr bs = true ↔ Ambiguous isSignature bs := by
  rw [isEcdsa_iff]
  constructor
  · rintro ⟨⟨body, hashType, rfl, -, hbody⟩, hschnorr⟩
    exact ⟨body, hashType, rfl, hbody, (isSchnorr_concat _ _).mp hschnorr⟩
  · rintro ⟨body, hashType, rfl, hbody, hlength⟩
    have hne : body ≠ [] := List.ne_nil_of_length_pos (by omega)
    exact ⟨⟨body, hashType, rfl, hne, hbody⟩, (isSchnorr_concat _ _).mpr hlength⟩

/-- A signature of two scalars is ambiguous if these take 57 bytes in all, or 58 bytes with a type
other than zero. -/
theorem ambiguous_write_iff (haccepts : Der.AcceptsScalars isSignature) {r s : Nat}
    (hr : Der.IsScalar r) (hs : Der.IsScalar s) (hashType : UInt8) :
    Ambiguous isSignature (Der.write r s ++ [hashType]) ↔
      Der.width r + Der.width s = 57 ∨ Der.width r + Der.width s = 58 ∧ hashType ≠ 0 := by
  have hbody := haccepts r s hr hs
  rw [← ambiguous_iff, isSchnorr_concat, Der.length_write, isEcdsa_iff]
  constructor
  · rintro ⟨-, hlength | ⟨hlength, htype⟩⟩
    · exact .inl (by omega)
    · exact .inr ⟨by omega, htype⟩
  · intro hwidths
    refine ⟨⟨_, hashType, rfl, List.cons_ne_nil _ _, hbody⟩, ?_⟩
    rcases hwidths with hwidth | ⟨hwidth, htype⟩
    · exact .inl (by omega)
    · exact .inr ⟨by omega, htype⟩

/-! ## What is reported -/

/-- Bytes that carry a Schnorr signature of a type: the 64 bytes alone, or with the type behind.
The type of the bare 64 bytes is zero. -/
inductive CarriesSchnorr : Bytes → UInt8 → Prop
  | unnamed {signature : Bytes} (h : signature.length = 64) : CarriesSchnorr signature 0
  | named {signature : Bytes} {hashType : UInt8} (h : signature.length = 64)
      (htype : hashType ≠ 0) : CarriesSchnorr (signature ++ [hashType]) hashType

/-- The scheme and the signature hash type of bytes, as a caller gets them with a signature. -/
def report (isSignature : Bytes → Bool) (bs : Bytes) : Except Failure (SignatureScheme × UInt8) := do
  let signature ← ofBytes isSignature bs
  let hashType ← signature.hashType
  return (signature.scheme, hashType)

theorem report_of_ecdsa {body : Bytes} {hashType : UInt8}
    (h : isEcdsa isSignature (body ++ [hashType]) = true) :
    report isSignature (body ++ [hashType]) = .ok (.ecdsa, hashType) := by
  have hread : ofBytes isSignature (body ++ [hashType]) = .ok ⟨.ecdsa, body ++ [hashType]⟩ :=
    ofBytes_eq_ok.mpr ⟨rfl, h⟩
  have htype : PartialSignature.hashType ⟨.ecdsa, body ++ [hashType]⟩ = .ok hashType := by
    rw [PartialSignature.hashType, if_neg (by simp), List.getLast?_concat]
  rw [report, hread]
  show (PartialSignature.hashType ⟨.ecdsa, _⟩ >>= _) = _
  rw [htype]
  rfl

theorem CarriesSchnorr.isSchnorr {bs : Bytes} {hashType : UInt8} (h : CarriesSchnorr bs hashType) :
    isSchnorr bs = true := by
  cases h with
  | unnamed hlength => simp [PartialSignature.isSchnorr, hlength]
  | named hlength htype => exact (isSchnorr_concat _ _).mpr (.inr ⟨hlength, htype⟩)

theorem CarriesSchnorr.hashType {bs : Bytes} {hashType : UInt8}
    (h : CarriesSchnorr bs hashType) :
    PartialSignature.hashType ⟨.schnorr, bs⟩ = .ok hashType := by
  cases h with
  | unnamed hlength => exact if_pos ⟨rfl, hlength⟩
  | @named signature _ hlength htype =>
      rw [PartialSignature.hashType, if_neg (by simp [hlength]), List.getLast?_concat]

theorem CarriesSchnorr.report {bs : Bytes} {hashType : UInt8} (h : CarriesSchnorr bs hashType)
    (hnot : isEcdsa isSignature bs = false) : report isSignature bs = .ok (.schnorr, hashType) := by
  have hread : ofBytes isSignature bs = .ok ⟨.schnorr, bs⟩ :=
    ofBytes_eq_ok.mpr ⟨rfl, hnot, h.isSchnorr⟩
  rw [PartialSignature.report, hread]
  show (PartialSignature.hashType ⟨.schnorr, bs⟩ >>= _) = _
  rw [h.hashType]
  rfl

/-- For every parser of signatures, bytes are in both forms exactly if they are ambiguous.  Those
that carry a Schnorr signature are reported as one of the type that they name, unless they are
ambiguous; then they are reported as a signature with integers whose type is the last byte.  If
the parser accepts all scalars, then the signatures of two scalars that are ambiguous are those
of certain widths. -/
theorem scheme_exact (isSignature : Bytes → Bool) (bs : Bytes) :
    (isEcdsa isSignature bs = true ∧ isSchnorr bs = true ↔ Ambiguous isSignature bs) ∧
      (∀ hashType, CarriesSchnorr bs hashType →
        (¬ Ambiguous isSignature bs → report isSignature bs = .ok (.schnorr, hashType)) ∧
          (Ambiguous isSignature bs → report isSignature bs = .ok (.ecdsa, bs.getLastD 0))) ∧
      (Der.AcceptsScalars isSignature → ∀ r s hashType, Der.IsScalar r → Der.IsScalar s →
        bs = Der.write r s ++ [hashType] →
          (Ambiguous isSignature bs ↔
            Der.width r + Der.width s = 57 ∨ Der.width r + Der.width s = 58 ∧ hashType ≠ 0)) := by
  refine ⟨ambiguous_iff, fun hashType h => ⟨fun hnot => ?_, fun hambiguous => ?_⟩, ?_⟩
  · refine h.report (Bool.eq_false_iff.mpr fun hecdsa => hnot ?_)
    exact ambiguous_iff.mp ⟨hecdsa, h.isSchnorr⟩
  · have hecdsa := (ambiguous_iff.mpr hambiguous).1
    obtain ⟨body, last, rfl, -⟩ := hambiguous
    rw [report_of_ecdsa hecdsa, List.getLastD_concat]
  · rintro haccepts r s hashType hr hs rfl
    exact ambiguous_write_iff haccepts hr hs hashType

/-- Two integers of 26 and 31 bytes and a type. -/
def overlapping : Bytes :=
  [0x30, 0x3d, 0x02, 0x1a, 0x40] ++ List.replicate 25 0 ++ [0x02, 0x1f, 0x40]
    ++ List.replicate 30 0 ++ [0x01]

theorem overlapping_eq_write : overlapping = Der.write (2 ^ 206) (2 ^ 246) ++ [0x01] := by
  have hread : Der.signature? overlapping.dropLast = some (2 ^ 206, 2 ^ 246) := by decide +kernel
  rw [← (Der.signature?_eq_some.mp hread).2]
  rfl

/-- The bytes carry a Schnorr signature, but are reported as one with integers. -/
theorem scheme_exact_of_overlapping :
    CarriesSchnorr overlapping 0 ∧ Ambiguous Der.isSignature overlapping ∧
      report Der.isSignature overlapping = .ok (.ecdsa, 1) := by
  obtain ⟨-, hreport, hwidths⟩ := scheme_exact Der.isSignature overlapping
  have hsum : Der.width (2 ^ 206) + Der.width (2 ^ 246) = 57 := by
    rw [Der.width, Der.width, Nat.size_pow, Nat.size_pow]
  have hambiguous : Ambiguous Der.isSignature overlapping :=
    (hwidths Der.acceptsScalars_isSignature _ _ 1 (by decide +kernel) (by decide +kernel)
      overlapping_eq_write).mpr (.inl hsum)
  exact ⟨.unnamed rfl, hambiguous, (hreport 0 (.unnamed rfl)).2 hambiguous⟩

/-- A Schnorr signature without a type, of which the scheme is not told. -/
theorem overlapping_not_told_apart :
    (isEcdsa Der.isSignature overlapping = true ∧ isSchnorr overlapping = true) ∧
      overlapping.length = 64 ∧ report Der.isSignature overlapping ≠ .ok (.schnorr, 0) := by
  have hreport : report Der.isSignature overlapping = .ok (.ecdsa, 1) := by decide
  rw [hreport]
  exact ⟨⟨by decide, by decide⟩, rfl, fun h => by cases h⟩

end PartialSignature
end SignerHost
