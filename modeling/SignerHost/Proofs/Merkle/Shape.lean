import SignerHost.Merkle.Verify
import SignerHost.Proofs.Step

/-!
# The shape of a tree

The split point of `n` elements is the power of two with `p < n ≤ 2 * p`.  From this follow the
length of the way down to a leaf, and an induction principle for lists that splits them where the
tree over them splits.
-/

namespace SignerHost

namespace PowerOfTwo

theorem isPower_iff {n : Nat} (h : n ≠ 0) : isPower n = true ↔ ∃ k, n = 2 ^ k := by
  simp only [isPower, decide_eq_true_eq, Nat.and_sub_one_eq_zero_iff_isPowerOfTwo h]
  rfl

/-- A power of two splits in the middle. -/
theorem below_two_pow (k : Nat) : below (2 ^ (k + 1)) = 2 ^ k := by
  have hpower : isPower (2 ^ (k + 1)) = true := (isPower_iff (by positivity)).mpr ⟨_, rfl⟩
  rw [below, if_pos hpower, pow_succ, Nat.mul_div_cancel _ (by decide)]

/-- The split point is a power of two, and `n` lies above it and not above its double. -/
theorem below_eq_two_pow {n : Nat} (h : 2 ≤ n) :
    ∃ k, below n = 2 ^ k ∧ 2 ^ k < n ∧ n ≤ 2 ^ (k + 1) := by
  by_cases hpower : isPower n = true
  · obtain ⟨k, rfl⟩ := (isPower_iff (by omega)).mp hpower
    cases k with
    | zero => omega
    | succ k =>
        refine ⟨k, below_two_pow k, ?_, le_refl _⟩
        rw [pow_succ]
        have := Nat.two_pow_pos k
        omega
  · -- Any other number splits at its leading bit.
    have hlow : 2 ^ floorLog n ≤ n := Nat.log2_self_le (by omega)
    have hne : 2 ^ floorLog n ≠ n := by
      intro heq
      exact hpower ((isPower_iff (by omega)).mpr ⟨_, heq.symm⟩)
    have hhigh : n < 2 ^ (floorLog n + 1) := Nat.lt_log2_self
    refine ⟨floorLog n, ?_, by omega, hhigh.le⟩
    rw [below, if_neg hpower, Nat.one_shiftLeft]

/-- The logarithm rounds up. -/
theorem ceilLog_le_iff {n d : Nat} : ceilLog n ≤ d ↔ n ≤ 2 ^ d := by
  unfold ceilLog
  by_cases hn : n ≤ 1
  · simp only [if_pos hn, Nat.zero_le, true_iff]
    exact hn.trans Nat.one_le_two_pow
  · rw [if_neg hn, Nat.succ_le_iff, floorLog, Nat.log2_lt (by omega)]
    omega

theorem ceilLog_eq {n k : Nat} (hlow : 2 ^ k < n) (hhigh : n ≤ 2 ^ (k + 1)) :
    ceilLog n = k + 1 := by
  have hle : ceilLog n ≤ k + 1 := ceilLog_le_iff.mpr hhigh
  have hnot : ¬ ceilLog n ≤ k := fun h => absurd (ceilLog_le_iff.mp h) hlow.not_ge
  omega

end PowerOfTwo

open PowerOfTwo

/-! ## The way down to a leaf -/

theorem merklePath_of_lt_two {n i : Nat} (h : n < 2) : merklePath n i = [] := by
  rw [merklePath, if_neg (by omega)]

theorem merklePath_left {n i : Nat} (h : 2 ≤ n) (hi : i < below n) :
    merklePath n i = false :: merklePath (below n) i := by
  rw [merklePath, if_pos h]
  simp only [if_pos hi]

theorem merklePath_right {n i : Nat} (h : 2 ≤ n) (hi : below n ≤ i) :
    merklePath n i = true :: merklePath (n - below n) (i - below n) := by
  rw [merklePath, if_pos h]
  simp only [if_neg (Nat.not_lt.mpr hi)]

/-- A tree of at most `2 ^ d` leaves has depth at most `d`.  The induction is on the depth, since
both parts of a split have at most half of `2 ^ d` leaves. -/
theorem length_merklePath_le {n i d : Nat} (h : n ≤ 2 ^ d) : (merklePath n i).length ≤ d := by
  induction d generalizing n i with
  | zero =>
      rw [merklePath_of_lt_two (by simpa using Nat.lt_succ_of_le h)]
      simp
  | succ d ih =>
      by_cases hn : 2 ≤ n
      · obtain ⟨k, hk, hlow, hhigh⟩ := below_eq_two_pow hn
        have hkd : k ≤ d := by
          have : 2 ^ k < 2 ^ (d + 1) := hlow.trans_le h
          exact Nat.lt_succ_iff.mp ((Nat.pow_lt_pow_iff_right (by decide)).mp this)
        -- Neither part has more than half of the `2 ^ (d + 1)` leaves.
        have hsplit : below n ≤ 2 ^ d := hk ▸ Nat.pow_le_pow_right (by decide) hkd
        have hrest : n - below n ≤ 2 ^ d := by
          rw [pow_succ] at hhigh
          omega
        by_cases hi : i < below n
        · rw [merklePath_left hn hi, List.length_cons]
          exact Nat.succ_le_succ (ih hsplit)
        · rw [merklePath_right hn (by omega), List.length_cons]
          exact Nat.succ_le_succ (ih hrest)
      · rw [merklePath_of_lt_two (by omega)]
        simp

/-- In a tree of `2 ^ k` leaves every leaf lies at depth `k`. -/
theorem length_merklePath_two_pow {k i : Nat} (h : i < 2 ^ k) :
    (merklePath (2 ^ k) i).length = k := by
  induction k generalizing i with
  | zero => rw [merklePath_of_lt_two (by decide), List.length_nil]
  | succ k ih =>
      have htwo : 2 ≤ 2 ^ (k + 1) := by
        have := Nat.two_pow_pos k
        rw [pow_succ]
        omega
      have hsplit : below (2 ^ (k + 1)) = 2 ^ k := below_two_pow k
      have hrest : 2 ^ (k + 1) - 2 ^ k = 2 ^ k := by
        rw [pow_succ]
        omega
      by_cases hi : i < 2 ^ k
      · rw [merklePath_left htwo (hsplit ▸ hi), hsplit, List.length_cons, ih hi]
      · rw [merklePath_right htwo (by omega), hsplit, hrest, List.length_cons, ih (by omega)]

/-- No leaf lies deeper than the logarithm says. -/
theorem length_merklePath_le_ceilLog (n i : Nat) : (merklePath n i).length ≤ ceilLog n :=
  length_merklePath_le (ceilLog_le_iff.mp (le_refl _))

/-- The left part is complete, so all of its leaves lie at the full depth. -/
theorem length_merklePath_of_lt_below {n i : Nat} (hn : 2 ≤ n) (hi : i < below n) :
    (merklePath n i).length = ceilLog n := by
  obtain ⟨k, hk, hlow, hhigh⟩ := below_eq_two_pow hn
  rw [merklePath_left hn hi, List.length_cons, ceilLog_eq hlow hhigh, hk,
    length_merklePath_two_pow (hk ▸ hi)]

/-! ## Induction along the splits -/

/-- A list of two or more elements falls into two parts, neither of them empty, that the tree over
it commits to by themselves. -/
theorem exists_split {α : Type} (xs : List α) (h : 2 ≤ xs.length) :
    ∃ left right, xs = left ++ right ∧ left ≠ [] ∧ right ≠ [] ∧
      left.length = below (left.length + right.length) := by
  have hlt := below_lt h
  have hpos := below_pos h
  have hlength : (xs.take (below xs.length)).length = below xs.length := by
    rw [List.length_take]
    omega
  refine ⟨xs.take (below xs.length), xs.drop (below xs.length),
    (List.take_append_drop _ xs).symm, ?_, ?_, ?_⟩
  · apply List.ne_nil_of_length_pos
    omega
  · apply List.ne_nil_of_length_pos
    rw [List.length_drop]
    omega
  · rw [← List.length_append, List.take_append_drop]
    exact hlength

/-- Induction over lists along the splits of the trees over them.  The parts meet at the split
point, as they do where the tree is built. -/
@[elab_as_elim]
theorem splitInduction {α : Type} {motive : List α → Prop} (nil : motive [])
    (single : ∀ x, motive [x])
    (append : ∀ left right : List α, left ≠ [] → right ≠ [] →
      left.length = below (left.length + right.length) →
      motive left → motive right → motive (left ++ right))
    (xs : List α) : motive xs := by
  induction hn : xs.length using Nat.strong_induction_on generalizing xs with
  | _ n ih =>
      match xs, hn with
      | [], _ => exact nil
      | [x], _ => exact single x
      | x :: y :: rest, hn =>
          obtain ⟨left, right, hxs, hleft, hright, hsplit⟩ :=
            exists_split (x :: y :: rest) (by simp)
          have hlengths : left.length + right.length = n := by
            rw [← hn, hxs, List.length_append]
          -- Neither part is empty, so both are shorter than the whole.
          have := List.length_pos_iff.mpr hleft
          have := List.length_pos_iff.mpr hright
          rw [hxs]
          exact append left right hleft hright hsplit
            (ih _ (by omega) left rfl) (ih _ (by omega) right rfl)

end SignerHost
