import SignerHost.Proofs.Merkle.Shape

/-!
# Logarithms by doubling

A logarithm is found by doubling one as long as a test is passed, and counting.  Both logarithms
come of one such run, with a test of their own.

* A `Doubling` is a power of two with its exponent.  `Doubling.run` is the loop, which ends because
  no power from a bound on passes the test.
* `Doubling.firstFailure_run` says that the loop stops at the first power that fails.
* `byDoubling_doubleFits` and `byDoubling_fallsShort` say that the logarithms are what the loops
  count.
* `floorLog_exact` and `ceilLog_exact` say what they are, and which numbers are powers of two.
-/

namespace SignerHost

namespace PowerOfTwo

/-- A test that no number from a bound on passes. -/
structure BoundedTest where
  passes : Int → Bool
  bound : Int
  lt_bound : ∀ t, 0 < t → passes t = true → t < bound

/-- How often one has been doubled, and what has come of it. -/
structure Doubling where
  count : Nat
  power : Int
  power_eq : power = 2 ^ count

/-- The test fails at a power of two, and at no smaller one. -/
structure BoundedTest.FirstFailure (test : BoundedTest) (k : Nat) : Prop where
  fails : test.passes (2 ^ k) = false
  passes : ∀ j < k, test.passes (2 ^ j) = true

namespace Doubling

def one : Doubling := { count := 0, power := 1, power_eq := rfl }

def next (d : Doubling) : Doubling where
  count := d.count + 1
  power := 2 * d.power
  power_eq := by rw [d.power_eq, pow_succ']

theorem power_pos (d : Doubling) : 0 < d.power := by
  rw [d.power_eq]
  positivity

/-- Doubles as long as a test is passed. -/
def run (test : BoundedTest) (d : Doubling) : Doubling :=
  if test.passes d.power then run test d.next else d
termination_by (test.bound - d.power).toNat
decreasing_by
  have hlt := test.lt_bound d.power d.power_pos ‹_›
  have hpos := d.power_pos
  simp only [next]
  omega

/-- From a doubling all of whose smaller powers pass, the loop goes on to the first power that
fails. -/
theorem firstFailure_run {test : BoundedTest} {d : Doubling}
    (hpassed : ∀ j < d.count, test.passes (2 ^ j) = true) :
    test.FirstFailure (run test d).count := by
  induction d using run.induct test with
  | case1 d hpasses ih =>
      -- The power that has just passed is one of the smaller ones in the next turn.
      rw [run, if_pos hpasses]
      refine ih fun j hj => ?_
      rcases Nat.lt_succ_iff_lt_or_eq.mp hj with hlt | rfl
      · exact hpassed j hlt
      · exact d.power_eq ▸ hpasses
  | case2 d hpasses =>
      rw [run, if_neg hpasses]
      refine ⟨?_, hpassed⟩
      rw [← d.power_eq]
      exact Bool.eq_false_of_not_eq_true hpasses

theorem firstFailure_run_one (test : BoundedTest) : test.FirstFailure (run test one).count :=
  firstFailure_run fun _ hj => absurd hj (Nat.not_lt_zero _)

end Doubling

/-- How often one is doubled until the test that belongs to a positive integer fails. -/
def byDoubling (test : Int → BoundedTest) (n : Int) : Except Failure Nat :=
  if 0 < n then .ok (Doubling.run (test n) .one).count else .error .domain

/-- Passed as long as the double is at most `n`. -/
def doubleFits (n : Int) : BoundedTest where
  passes t := 2 * t ≤ n
  bound := n
  lt_bound t hpos hpasses := by
    have hle : 2 * t ≤ n := of_decide_eq_true hpasses
    omega

/-- Passed by what is smaller than `n`. -/
def fallsShort (n : Int) : BoundedTest where
  passes t := t < n
  bound := n
  lt_bound _ _ hpasses := of_decide_eq_true hpasses

namespace BoundedTest.FirstFailure

variable {n : Int} {k : Nat}

/-- The loop that stops before a double exceeds `n` stops at the largest power that does not. -/
theorem bounds_of_doubleFits (h : (doubleFits n).FirstFailure k) (hn : 0 < n) :
    2 ^ k ≤ n ∧ n < 2 ^ (k + 1) := by
  have hfails : ¬ 2 * 2 ^ k ≤ n := of_decide_eq_false h.fails
  refine ⟨?_, ?_⟩
  · -- Below the first power that fails, the last one that passed says that its double fits.
    cases k with
    | zero => exact hn
    | succ k =>
        have hpasses : 2 * 2 ^ k ≤ n := of_decide_eq_true (h.passes k k.lt_succ_self)
        rwa [pow_succ']
  · rw [pow_succ']
    exact not_le.mp hfails

/-- The loop that stops at a power of at least `n` stops at the smallest one. -/
theorem isLeast_of_fallsShort (h : (fallsShort n).FirstFailure k) :
    IsLeast {d : Nat | n ≤ 2 ^ d} k := by
  refine ⟨not_lt.mp (of_decide_eq_false h.fails), fun j hj => ?_⟩
  by_contra hlt
  have hpasses : 2 ^ j < n := of_decide_eq_true (h.passes j (not_le.mp hlt))
  exact absurd hj hpasses.not_ge

end BoundedTest.FirstFailure

/-! ## The logarithms -/

/-- The first loop counts up to the exponent of the largest power that is at most `n`. -/
theorem byDoubling_doubleFits (n : Int) : byDoubling doubleFits n = onPositive floorLog n := by
  rw [byDoubling, onPositive]
  by_cases hn : 0 < n
  · obtain ⟨hlow, hhigh⟩ := (Doubling.firstFailure_run_one (doubleFits n)).bounds_of_doubleFits hn
    lift n to Nat using hn.le
    rw [if_pos hn, if_pos hn, Int.toNat_natCast, floorLog, (Nat.log2_eq_iff (by omega)).mpr]
    exact ⟨by exact_mod_cast hlow, by exact_mod_cast hhigh⟩
  · rw [if_neg hn, if_neg hn]

/-- The second loop counts up to the exponent of the smallest power that is at least `n`. -/
theorem byDoubling_fallsShort (n : Int) : byDoubling fallsShort n = onPositive ceilLog n := by
  rw [byDoubling, onPositive]
  by_cases hn : 0 < n
  · obtain ⟨hmem, hleast⟩ := (Doubling.firstFailure_run_one (fallsShort n)).isLeast_of_fallsShort
    lift n to Nat using hn.le
    have hle : ceilLog n ≤ (Doubling.run (fallsShort n) .one).count :=
      ceilLog_le_iff.mpr (by exact_mod_cast hmem)
    have hge : (Doubling.run (fallsShort n) .one).count ≤ ceilLog n := by
      apply hleast
      exact_mod_cast ceilLog_le_iff.mp (le_refl (ceilLog n))
    rw [if_pos hn, if_pos hn, Int.toNat_natCast, hle.antisymm hge]
  · rw [if_neg hn, if_neg hn]

/-- A power of two is told by its exponent, which is then the logarithm. -/
theorem isPower_iff_eq {n k : Nat} (hlow : 2 ^ k ≤ n) (hhigh : n < 2 ^ (k + 1)) :
    isPower n = true ↔ n = 2 ^ k := by
  have hn : n ≠ 0 := ((Nat.two_pow_pos k).trans_le hlow).ne'
  rw [isPower_iff hn]
  constructor
  · rintro ⟨j, rfl⟩
    have hjk : j < k + 1 := (Nat.pow_lt_pow_iff_right (by decide)).mp hhigh
    have hkj : k ≤ j := (Nat.pow_le_pow_iff_right (by decide)).mp hlow
    rw [hkj.antisymm (Nat.lt_succ_iff.mp hjk)]
  · exact fun heq => ⟨k, heq⟩

/-- The exponent of the leading bit, and whether the number is no more than this bit. -/
theorem floorLog_exact {n : Int} (h : 1 ≤ n) :
    ∃ k : Nat, byDoubling doubleFits n = .ok k ∧ onPositive floorLog n = .ok k ∧
      2 ^ k ≤ n ∧ n < 2 ^ (k + 1) ∧ onPositive isPower n = .ok (decide (n = 2 ^ k)) := by
  obtain ⟨hlow, hhigh⟩ := (Doubling.firstFailure_run_one (doubleFits n)).bounds_of_doubleFits h
  refine ⟨_, if_pos h, (byDoubling_doubleFits n).symm.trans (if_pos h), hlow, hhigh, ?_⟩
  generalize (Doubling.run (doubleFits n) .one).count = k at hlow hhigh
  lift n to Nat using zero_le_one.trans h
  have hpower : isPower n = true ↔ (n : Int) = 2 ^ k := by
    rw [isPower_iff_eq (by exact_mod_cast hlow) (by exact_mod_cast hhigh)]
    norm_cast
  have hdecide : isPower n = decide ((n : Int) = 2 ^ k) := by
    rw [Bool.eq_iff_iff, hpower, decide_eq_true_eq]
  rw [← hdecide]
  exact if_pos h

/-- The smallest exponent whose power is not below the number. -/
theorem ceilLog_exact {n : Int} (h : 1 ≤ n) :
    ∃ k : Nat, byDoubling fallsShort n = .ok k ∧ onPositive ceilLog n = .ok k ∧
      IsLeast {d : Nat | n ≤ 2 ^ d} k :=
  ⟨_, if_pos h, (byDoubling_fallsShort n).symm.trans (if_pos h),
    (Doubling.firstFailure_run_one (fallsShort n)).isLeast_of_fallsShort⟩

end PowerOfTwo

end SignerHost
