import SignerHost.Failure

/-!
# Powers of two

A committed list of `n` elements is split at the largest power of two below `n`.  This module
holds that split point and the logarithms that bound the depth of a tree.

* `below_pos` and `below_lt` say that both parts of a split are smaller than the whole.
* The functions on integers refuse arguments that are not positive.
-/

namespace SignerHost

namespace PowerOfTwo

/-- The exponent of the largest power of two that is at most `n`. -/
def floorLog (n : Nat) : Nat := Nat.log2 n

/-- The exponent of the smallest power of two that is at least `n`.  It is zero for zero and for
one. -/
def ceilLog (n : Nat) : Nat := if n ≤ 1 then 0 else floorLog (n - 1) + 1

/-- Whether `n` shares no bit with its predecessor.  For positive numbers this holds of the
powers of two alone; it also holds of zero. -/
def isPower (n : Nat) : Bool := n &&& (n - 1) = 0

/-- The largest power of two below `n`.  A power of two is halved; any other number loses all
bits but the highest. -/
def below (n : Nat) : Nat := if isPower n then n / 2 else 1 <<< floorLog n

theorem isPower_shiftLeft (k : Nat) : isPower (1 <<< k) = true := by
  simp [isPower, Nat.one_shiftLeft, Nat.and_two_pow_sub_one_eq_mod]

theorem below_lt {n : Nat} (h : 2 ≤ n) : below n < n := by
  unfold below
  split
  · omega
  · rename_i hp
    have hle : 1 <<< floorLog n ≤ n := by
      rw [Nat.one_shiftLeft]
      exact Nat.log2_self_le (by omega)
    have hne : 1 <<< floorLog n ≠ n := fun heq => hp (heq ▸ isPower_shiftLeft (floorLog n))
    omega

theorem below_pos {n : Nat} (h : 2 ≤ n) : 0 < below n := by
  unfold below
  split
  · omega
  · rw [Nat.one_shiftLeft]
    exact Nat.two_pow_pos _

/-- The value of a function on positive integers.  Any other integer is refused as outside of the
domain. -/
def onPositive {α : Type} (f : Nat → α) (n : Int) : Except Failure α :=
  if 0 < n then .ok (f n.toNat) else .error .domain

/-- The largest power of two below an integer of two or more.  Any smaller integer is refused. -/
def belowInt (n : Int) : Except Failure Nat :=
  if 1 < n then .ok (below n.toNat) else .error .domain

end PowerOfTwo

end SignerHost
