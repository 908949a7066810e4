import Mathlib.Tactic
import SignerHost.Bytes

/-!
# Integers in bytes

Writing a number in `width` bytes and reading it back gives the number, as soon as it is below
`256 ^ width`; reading bytes and writing them again gives the bytes.
-/

namespace SignerHost
namespace Bytes

theorem toNatLE_ofNatLE (width n : Nat) : toNatLE (ofNatLE width n) = n % 256 ^ width := by
  induction width generalizing n with
  | zero => simp [ofNatLE, toNatLE, Nat.mod_one]
  | succ width ih =>
      have hbyte : (UInt8.ofNat (n % 256)).toNat = n % 256 := by
        rw [UInt8.toNat_ofNat', Nat.mod_eq_of_lt (Nat.mod_lt n (by decide))]
      rw [ofNatLE, toNatLE, hbyte, ih, pow_succ', Nat.mod_mul]

theorem toNatLE_ofNatLE_of_lt {width n : Nat} (h : n < 256 ^ width) :
    toNatLE (ofNatLE width n) = n := by
  rw [toNatLE_ofNatLE, Nat.mod_eq_of_lt h]

theorem toNatLE_lt (bs : Bytes) : toNatLE bs < 256 ^ bs.length := by
  induction bs with
  | nil => simp [toNatLE]
  | cons b bs ih =>
      have hb := b.toNat_lt
      rw [toNatLE, List.length_cons, pow_succ]
      omega

theorem ofNatLE_toNatLE (bs : Bytes) : ofNatLE bs.length (toNatLE bs) = bs := by
  induction bs with
  | nil => rfl
  | cons b bs ih =>
      have hb := b.toNat_lt
      have hlow : (b.toNat + 256 * toNatLE bs) % 256 = b.toNat := by omega
      have hhigh : (b.toNat + 256 * toNatLE bs) / 256 = toNatLE bs := by omega
      rw [List.length_cons, toNatLE, ofNatLE, hlow, hhigh, ih, UInt8.ofNat_toNat]

theorem toNatBE_ofNatBE_of_lt {width n : Nat} (h : n < 256 ^ width) :
    toNatBE (ofNatBE width n) = n := by
  rw [toNatBE, ofNatBE, List.reverse_reverse, toNatLE_ofNatLE_of_lt h]

theorem ofNatBE_toNatBE (bs : Bytes) : ofNatBE bs.length (toNatBE bs) = bs := by
  have hlow := ofNatLE_toNatLE bs.reverse
  rw [List.length_reverse] at hlow
  rw [ofNatBE, toNatBE, hlow, List.reverse_reverse]

theorem toNatBE_lt (bs : Bytes) : toNatBE bs < 256 ^ bs.length := by
  have hlt := toNatLE_lt bs.reverse
  rwa [List.length_reverse] at hlt

theorem ofNatBE_one {n : Nat} (h : n < 256) : ofNatBE 1 n = [UInt8.ofNat n] := by
  simp [ofNatBE, ofNatLE, Nat.mod_eq_of_lt h]

/-- A single byte reads the same in both orders. -/
theorem toNatBE_singleton (b : UInt8) : toNatBE [b] = b.toNat := by
  simp [toNatBE, toNatLE]

theorem toNatLE_concat (bs : Bytes) (b : UInt8) :
    toNatLE (bs ++ [b]) = toNatLE bs + 256 ^ bs.length * b.toNat := by
  induction bs with
  | nil => simp [toNatLE]
  | cons c bs ih =>
      rw [List.cons_append, toNatLE, ih, toNatLE, List.length_cons]
      ring

theorem toNatBE_cons (b : UInt8) (bs : Bytes) :
    toNatBE (b :: bs) = b.toNat * 256 ^ bs.length + toNatBE bs := by
  rw [toNatBE, List.reverse_cons, toNatLE_concat, List.length_reverse, toNatBE]
  ring

/-- An integer that has a form of `width` bytes is a natural number below `256 ^ width`. -/
theorem fits_iff {width : Nat} {n : Int} :
    fits width n = true ↔ 0 ≤ n ∧ n < (256 : Int) ^ width := by
  have hbound : ((1 <<< (8 * width) : Nat) : Int) = 256 ^ width := by
    rw [Nat.one_shiftLeft, pow_mul]
    norm_num
  simp [fits, hbound]

end Bytes
end SignerHost
