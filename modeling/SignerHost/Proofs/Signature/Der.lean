import Mathlib.Data.Nat.Size
import SignerHost.Proofs.Bytes
import SignerHost.Signature

/-!
# Signatures with two integers

A positive integer has one form only: as few bytes as leave a bit for the sign.  So a signature is
read from one string of bytes, and the lengths of its integers give the length of that string.

* `Der.width` is the number of bytes of an integer, and `Der.write` is the form of a signature.
* `Der.integer?_eq_some` and `Der.signature?_eq_some` say that what is read is what is written.
-/

namespace SignerHost
namespace Der

/-! ## Widths -/

/-- The number of bytes of a positive integer: the first bit is that of the sign. -/
def width (n : Nat) : Nat := n.size / 8 + 1

theorem width_eq_iff {n k : Nat} :
    width n = k + 1 ↔ n < 2 ^ (8 * k + 7) ∧ (k = 0 ∨ 2 ^ (8 * k - 1) ≤ n) := by
  rw [← Nat.size_le, ← Nat.lt_size, width]
  omega

theorem lt_width (n : Nat) : n < 256 ^ width n := by
  have hsize : n.size ≤ 8 * width n := by
    rw [width]
    omega
  rw [show (256 : Nat) = 2 ^ 8 from rfl, ← pow_mul]
  exact Nat.size_le.mp hsize

theorem width_of_byte (b : UInt8) : width b.toNat = 1 ↔ b < 0x80 := by
  rw [show (1 : Nat) = 0 + 1 from rfl, width_eq_iff, UInt8.lt_iff_toNat_lt]
  simp

/-- Two bytes or more are as few as possible if the first of them does not give the sign, and is
not a zero that the second one can do without. -/
theorem width_of_bytes (b c : UInt8) (bs : Bytes) :
    width (Bytes.toNatBE (b :: c :: bs)) = bs.length + 2 ↔ b < 0x80 ∧ ¬ (b = 0 ∧ c < 0x80) := by
  have hlow := Bytes.toNatBE_lt bs
  have hvalue : Bytes.toNatBE (b :: c :: bs) / 256 ^ bs.length = 256 * b.toNat + c.toNat := by
    have hsplit : Bytes.toNatBE (b :: c :: bs) =
        Bytes.toNatBE bs + 256 ^ bs.length * (256 * b.toNat + c.toNat) := by
      rw [Bytes.toNatBE_cons, Bytes.toNatBE_cons, List.length_cons]
      ring
    rw [hsplit, Nat.add_mul_div_left _ _ (by positivity), Nat.div_eq_of_lt hlow, zero_add]
  -- Both bounds of the width are compared with the first two bytes alone.
  have hhigh : (2 : Nat) ^ (8 * (bs.length + 1) + 7) = 32768 * 256 ^ bs.length := by
    rw [show (256 : Nat) = 2 ^ 8 from rfl, ← pow_mul]
    ring
  have hleast : (2 : Nat) ^ (8 * (bs.length + 1) - 1) = 128 * 256 ^ bs.length := by
    rw [show 8 * (bs.length + 1) - 1 = 8 * bs.length + 7 by omega,
      show (256 : Nat) = 2 ^ 8 from rfl, ← pow_mul]
    ring
  rw [show bs.length + 2 = bs.length + 1 + 1 from rfl, width_eq_iff, hhigh, hleast,
    ← Nat.div_lt_iff_lt_mul (by positivity), ← Nat.le_div_iff_mul_le (by positivity), hvalue]
  have hb := b.toNat_lt
  have hc := c.toNat_lt
  have hzero : b = 0 ↔ b.toNat = 0 := by
    rw [← UInt8.toNat_inj]
    rfl
  rw [hzero, UInt8.lt_iff_toNat_lt, UInt8.lt_iff_toNat_lt]
  show _ ↔ b.toNat < 128 ∧ ¬ (b.toNat = 0 ∧ c.toNat < 128)
  omega

/-! ## Integers -/

/-- The tag, the length and the bytes of an integer. -/
def writeInteger (n : Nat) : Bytes :=
  0x02 :: UInt8.ofNat (width n) :: Bytes.ofNatBE (width n) n

theorem length_writeInteger (n : Nat) : (writeInteger n).length = width n + 2 := by
  rw [writeInteger, List.length_cons, List.length_cons, Bytes.length_ofNatBE]

/-- The integer in given bytes, if they are as few as possible. -/
def body? (body : Bytes) : Option Nat :=
  if width (Bytes.toNatBE body) = body.length then some (Bytes.toNatBE body) else none

theorem integer?_cons (tag length : UInt8) (rest : Bytes) :
    integer? (tag :: length :: rest) =
      if tag = 0x02 ∧ length < 0x80 ∧ (rest.take length.toNat).length = length.toNat then
        (body? (rest.take length.toNat)).map fun n => (n, rest.drop length.toNat)
      else none := by
  rw [integer?]
  by_cases hframe : tag = 0x02 ∧ length < 0x80 ∧ (rest.take length.toNat).length = length.toNat
  · have hlength := hframe.2.2
    simp only [if_pos hframe, body?]
    match hbody : rest.take length.toNat with
    | [] => rfl
    | [b] =>
        rw [hbody] at hlength
        simp only [Bytes.toNatBE_singleton, List.length_singleton, width_of_byte, ← hlength]
        split <;> rfl
    | b :: c :: bs =>
        simp only [List.length_cons, width_of_bytes]
        split <;> rfl
  · simp only [if_neg hframe]

/-- An integer is read from its form, with any bytes behind it, and from nothing else. -/
theorem integer?_eq_some {bs rest : Bytes} {n : Nat} :
    integer? bs = some (n, rest) ↔ width n < 128 ∧ bs = writeInteger n ++ rest := by
  constructor
  · intro h
    match bs with
    | [] => cases h
    | [_] => cases h
    | tag :: length :: tail =>
        rw [integer?_cons] at h
        split_ifs at h with hframe
        obtain ⟨rfl, hshort, hlength⟩ := hframe
        obtain ⟨m, hbody, hm⟩ := Option.map_eq_some_iff.mp h
        obtain ⟨rfl, rfl⟩ := Prod.mk.inj hm
        rw [body?] at hbody
        split_ifs at hbody with hwidth
        obtain rfl := Option.some_inj.mp hbody
        rw [writeInteger, hwidth, Bytes.ofNatBE_toNatBE, hlength, UInt8.ofNat_toNat,
          List.cons_append, List.cons_append, List.take_append_drop]
        exact ⟨UInt8.lt_iff_toNat_lt.mp hshort, rfl⟩
  · rintro ⟨hwidth, rfl⟩
    have hlength : (UInt8.ofNat (width n)).toNat = width n := by
      rw [UInt8.toNat_ofNat', Nat.mod_eq_of_lt (by omega)]
    have hbody : (Bytes.ofNatBE (width n) n ++ rest).take (width n) = Bytes.ofNatBE (width n) n :=
      List.take_left' (Bytes.length_ofNatBE _ _)
    have hrest : (Bytes.ofNatBE (width n) n ++ rest).drop (width n) = rest :=
      List.drop_left' (Bytes.length_ofNatBE _ _)
    have hvalue := Bytes.toNatBE_ofNatBE_of_lt (lt_width n)
    rw [writeInteger, List.cons_append, List.cons_append, integer?_cons, hlength, hbody, hrest,
      body?, hvalue, Bytes.length_ofNatBE, if_pos rfl, if_pos]
    · rfl
    · exact ⟨rfl, UInt8.lt_iff_toNat_lt.mpr (by rw [hlength]; exact hwidth), rfl⟩

/-! ## Signatures -/

/-- The form of a signature.  It is the only form that `Der.isSignature` accepts. -/
def write (r s : Nat) : Bytes :=
  0x30 :: UInt8.ofNat (4 + width r + width s) :: (writeInteger r ++ writeInteger s)

theorem length_integers (r s : Nat) :
    (writeInteger r ++ writeInteger s).length = 4 + width r + width s := by
  rw [List.length_append, length_writeInteger, length_writeInteger]
  ring

theorem length_write (r s : Nat) : (write r s).length = 6 + width r + width s := by
  rw [write, List.length_cons, List.length_cons, length_integers]
  ring

/-- A signature is read from its form and from nothing else.  So two integers have one form, and
the form has a length that can be computed. -/
theorem signature?_eq_some {bs : Bytes} {r s : Nat} :
    signature? bs = some (r, s) ↔ 4 + width r + width s < 128 ∧ bs = write r s := by
  constructor
  · intro h
    match bs with
    | [] => cases h
    | [_] => cases h
    | tag :: length :: tail =>
        rw [signature?] at h
        split_ifs at h with hframe
        obtain ⟨rfl, hshort, hlength⟩ := hframe
        split at h
        · rename_i r' rest hr
          split at h
          · rename_i s' hs
            cases h
            obtain ⟨-, rfl⟩ := integer?_eq_some.mp hr
            obtain ⟨-, rfl⟩ := integer?_eq_some.mp hs
            rw [List.append_nil] at hlength ⊢
            have htotal : 4 + width r + width s = length.toNat := by
              rw [← hlength, length_integers]
            rw [write, htotal, UInt8.ofNat_toNat]
            exact ⟨UInt8.lt_iff_toNat_lt.mp hshort, rfl⟩
          · cases h
        · cases h
  · rintro ⟨hwidth, rfl⟩
    have htotal : (UInt8.ofNat (4 + width r + width s)).toNat = 4 + width r + width s := by
      rw [UInt8.toNat_ofNat', Nat.mod_eq_of_lt (by omega)]
    have hr : integer? (writeInteger r ++ writeInteger s) = some (r, writeInteger s) :=
      integer?_eq_some.mpr ⟨by omega, rfl⟩
    have hs : integer? (writeInteger s) = some (s, []) :=
      integer?_eq_some.mpr ⟨by omega, (List.append_nil _).symm⟩
    have hframe : (0x30 : UInt8) = 0x30 ∧ UInt8.ofNat (4 + width r + width s) < 0x80 ∧
        (writeInteger r ++ writeInteger s).length =
          (UInt8.ofNat (4 + width r + width s)).toNat := by
      rw [UInt8.lt_iff_toNat_lt, htotal, length_integers]
      exact ⟨rfl, hwidth, rfl⟩
    rw [write, signature?, if_pos hframe]
    simp only [hr, hs]

end Der
end SignerHost
