import SignerHost.Proofs.Merkle.Answering
import SignerHost.Proofs.Merkle.Doubling
import SignerHost.Proofs.Merkle.Linking

/-!
# Where lists are split

A list of two or more is split at the largest power of two below its length.  Both parts are
something and less than the whole, so that whatever goes from the whole to its parts comes to an
end.

* `Splits` says how two parts are to a whole, and `splits_below` that the split point makes such
  parts.
* `LeafRange.split` is what a call of the recursion does before it calls itself, on integers, where
  the functions on the way refuse what they are not made for.
* `Linking.makes_makeTree` and `MerkleTree.builds_build` say that the recursion ends, and with what.
* `splitting_exact` puts the logarithms, the split point, the splits and the ends together.
-/

namespace SignerHost

open PowerOfTwo Step

namespace PowerOfTwo

/-- Two parts of a whole, each of which is something and less than the whole.  So a recursion
over the parts ends. -/
structure Splits (whole left right : Int) : Prop where
  sum : left + right = whole
  left_pos : 0 < left
  right_pos : 0 < right
  left_lt : left < whole
  right_lt : right < whole

theorem splits_below {n : Int} (h : 1 < n) : Splits n (below n.toNat) (n - below n.toNat) := by
  have hlt := below_lt (n := n.toNat) (by omega)
  have hpos := below_pos (n := n.toNat) (by omega)
  constructor <;> omega

end PowerOfTwo

/-! ## One call of the recursion -/

/-- A part of a list: where it begins, and how many elements it has. -/
structure LeafRange where
  start : Nat
  size : Int

namespace LeafRange

variable {p : LeafRange}

/-- A part of one element is left as it is.  Any other is split.  It is the same for making a
tree and for building one. -/
def split (p : LeafRange) : Except Failure (Option (LeafRange × LeafRange)) :=
  if p.size = 1 then .ok none
  else do
    let left ← splitPoint p.size
    return some ({ start := p.start, size := left },
      { start := p.start + left, size := p.size - left })

theorem split_of_one (h : p.size = 1) : p.split = .ok none := if_pos h

theorem split_of_lt (h : 1 < p.size) :
    p.split = .ok (some ({ start := p.start, size := below p.size.toNat },
      { start := p.start + below p.size.toNat, size := p.size - below p.size.toNat })) := by
  rw [split, if_neg h.ne', splitPoint_of_lt h]
  rfl

/-- Of a number of elements the first part holds as many as the split point says. -/
theorem split_natCast (start : Nat) {left right : Nat} (hleft : 0 < left) (hright : 0 < right)
    (hsplit : left = below (left + right)) :
    split { start, size := (left + right : Nat) } =
      .ok (some ({ start, size := left }, { start := start + left, size := right })) := by
  rw [split_of_lt (by simp only [Nat.cast_add]; omega)]
  simp only [Int.toNat_natCast, ← hsplit]
  rw [Nat.cast_add, add_sub_cancel_left]

theorem split_of_le (h : p.size ≤ 0) : p.split = .error .domain := by
  rw [split, if_neg (by omega), splitPoint, if_neg (by omega)]
  rfl

/-- A part that holds something is one element, or falls into two parts that hold something.
None of the functions that choose the split point refuses it. -/
theorem split_cases (h : 1 ≤ p.size) :
    p.size = 1 ∧ p.split = .ok none ∨
      ∃ left right, p.split = .ok (some (left, right)) ∧ Splits p.size left.size right.size := by
  rcases h.eq_or_lt with hone | hmore
  · exact .inl ⟨hone.symm, split_of_one hone.symm⟩
  · exact .inr ⟨_, _, split_of_lt hmore, splits_below hmore⟩

end LeafRange

/-! ## The recursion -/

namespace Linking

/-- The leaf at a position. -/
def leafAt (leaves : List NodeId) (start : Nat) : Linking NodeId :=
  match leaves[start]? with
  | some leaf => return leaf
  | none => throw (.bounds .list)

/-- What making a tree over a part of the leaves comes to, call by call. -/
def Makes (leaves : List NodeId) : LeafRange → Linking NodeId → Prop :=
  Forks LeafRange.split (fun p => leafAt leaves p.start) throw fun left right => do
    join (← left) (← right)

/-- Whatever the part is, the recursion over it ends, and comes to what makes the tree. -/
theorem makes_makeTree (leaves : List NodeId) (p : LeafRange) :
    Makes leaves p (makeTree leaves p.start p.size.toNat) := by
  -- The calls are about smaller ranges, whatever their start is.
  induction hn : p.size.toNat using Nat.strong_induction_on generalizing p with
  | _ n ih =>
      subst hn
      rcases lt_trichotomy p.size 1 with hless | hone | hmore
      · have hzero : p.size.toNat = 0 := by omega
        rw [makeTree, hzero, if_neg (by decide), if_neg (by decide)]
        exact .refused (LeafRange.split_of_le (by omega))
      · rw [makeTree, hone]
        exact .single (LeafRange.split_of_one hone)
      · -- Neither part is the whole, so that both calls are about a smaller one.
        have hsplits := splits_below hmore
        have hleft := ih (below p.size.toNat) (below_lt (by omega))
          { start := p.start, size := below p.size.toNat } rfl
        have hright := ih (p.size.toNat - below p.size.toNat) (by have := hsplits.right_lt; omega)
          { start := p.start + below p.size.toNat, size := p.size - below p.size.toNat }
          (Int.toNat_sub' ..)
        rw [makeTree, if_neg (by omega), if_pos (by omega)]
        exact .joined (LeafRange.split_of_lt hmore) hleft hright

end Linking

namespace MerkleTree

/-- The tree over the leaf hash at a position. -/
def leafAt (hashes : List Bytes) (start : Nat) : Except Failure MerkleTree :=
  match hashes[start]? with
  | some value => .ok (leaf value)
  | none => .error (.bounds .list)

/-- What building a tree over a part of the leaf hashes comes to, call by call. -/
def Builds (hashes : List Bytes) : LeafRange → Except Failure MerkleTree → Prop :=
  Forks LeafRange.split (fun p => leafAt hashes p.start) .error fun left right => do
    return join (← left) (← right)

/-- The recursion over any part of a list that holds something comes to the tree over that part.
The induction follows the splits of the tree. -/
theorem builds_build (before after : List Bytes) {hashes : List Bytes} (hne : hashes ≠ []) :
    Builds (before ++ hashes ++ after) { start := before.length, size := hashes.length }
      (.ok (build hashes)) := by
  -- What stands before and behind the part does not matter, but it changes from call to call.
  induction hashes using splitInduction generalizing before after with
  | nil => exact absurd rfl hne
  | single value =>
      have hleaf : leafAt (before ++ [value] ++ after) before.length = .ok (leaf value) := by
        simp [leafAt]
      rw [build_singleton, ← hleaf]
      exact .single (LeafRange.split_of_one rfl)
  | append left right hleft hright hsplit ihLeft ihRight =>
      have hparts := LeafRange.split_natCast before.length (List.length_pos_iff.mpr hleft)
        (List.length_pos_iff.mpr hright) hsplit
      rw [← List.length_append, ← List.length_append] at hparts
      have hbuildLeft := ihLeft before (right ++ after) hleft
      have hbuildRight := ihRight (before ++ left) after hright
      simp only [List.append_assoc] at hbuildLeft hbuildRight ⊢
      rw [build_append hleft hright hsplit]
      exact Forks.joined hparts hbuildLeft hbuildRight

end MerkleTree

/-! ## The way down -/

/-- Every turn of the way down goes on with one of two parts of what was left. -/
theorem Place.turn_splits {p : Place} (h : 1 < p.size) :
    ∃ left right side next, Splits p.size left right ∧ p.turn = .ok (some (side, next)) ∧
      next.size = if side then right else left := by
  by_cases hside : p.index < below p.size.toNat
  · exact ⟨_, _, _, _, splits_below h, turn_left h hside, rfl⟩
  · exact ⟨_, _, _, _, splits_below h, turn_right h hside, rfl⟩

/-! ## Logarithms and splits -/

/-- The split point is the power of two below the number whose double is not below it. -/
theorem PowerOfTwo.splitPoint_exact {n : Int} (h : 2 ≤ n) :
    ∃ k : Nat, splitPoint n = .ok (2 ^ k) ∧ belowInt n = .ok (2 ^ k) ∧
      2 ^ k < n ∧ n ≤ 2 * 2 ^ k := by
  lift n to Nat using (zero_le_two.trans h)
  obtain ⟨k, hbelow, hlow, hhigh⟩ := below_eq_two_pow (n := n) (by omega)
  have hpoint : splitPoint n = .ok (2 ^ k) := by
    rw [splitPoint_of_lt (by omega), Int.toNat_natCast, hbelow]
  refine ⟨k, hpoint, (splitPoint_eq_belowInt n).symm.trans hpoint, by exact_mod_cast hlow, ?_⟩
  rw [← pow_succ']
  exact_mod_cast hhigh

/-- The two logarithms and the test for powers of two are exact for every positive integer, and
so is the split point for two or more.  Hence both parts of every split are something and less
than the whole, and the recursions that go from the whole to its parts end. -/
theorem splitting_exact :
    (∀ n : Int, 1 ≤ n → ∃ k : Nat,
      byDoubling doubleFits n = .ok k ∧ onPositive floorLog n = .ok k ∧
      2 ^ k ≤ n ∧ n < 2 ^ (k + 1) ∧ onPositive isPower n = .ok (decide (n = 2 ^ k))) ∧
    (∀ n : Int, 1 ≤ n → ∃ k : Nat,
      byDoubling fallsShort n = .ok k ∧ onPositive ceilLog n = .ok k ∧
      IsLeast {d : Nat | n ≤ 2 ^ d} k) ∧
    (∀ n : Int, 2 ≤ n → ∃ k : Nat, splitPoint n = .ok (2 ^ k) ∧ belowInt n = .ok (2 ^ k) ∧
      2 ^ k < n ∧ n ≤ 2 * 2 ^ k) ∧
    (∀ p : LeafRange, 1 ≤ p.size → p.size = 1 ∧ p.split = .ok none ∨
      ∃ left right, p.split = .ok (some (left, right)) ∧ Splits p.size left.size right.size) ∧
    (∀ p : Place, 1 < p.size → ∃ left right side next, Splits p.size left right ∧
      p.turn = .ok (some (side, next)) ∧ next.size = if side then right else left) ∧
    (∀ leaves p outcome, Linking.Makes leaves p outcome ↔
      outcome = Linking.makeTree leaves p.start p.size.toNat) ∧
    (∀ hashes outcome, hashes ≠ [] →
      (MerkleTree.Builds hashes { start := 0, size := hashes.length } outcome ↔
        outcome = .ok (.build hashes))) ∧
    ∀ p outcome, Loops Place.turn p outcome ↔
      outcome = .ok (merklePath p.size.toNat p.index.toNat) := by
  refine ⟨fun n => floorLog_exact, fun n => ceilLog_exact, fun n => splitPoint_exact,
    fun p => LeafRange.split_cases, fun p => Place.turn_splits, ?linked, ?built, ?path⟩
  case linked =>
    intro leaves p outcome
    exact (Linking.makes_makeTree leaves p).iff_eq
  case built =>
    intro hashes outcome hne
    have hbuilds := MerkleTree.builds_build [] [] hne
    rw [List.append_nil, List.nil_append] at hbuilds
    exact hbuilds.iff_eq
  case path =>
    intro p outcome
    exact p.loops_path.iff_eq

/-- Five is the number right above a power of two.  The logarithms part there, and it falls into
four and one. -/
theorem splitting_exact_of_five :
    byDoubling doubleFits 5 = .ok 2 ∧ onPositive isPower 5 = .ok false ∧
    byDoubling fallsShort 5 = .ok 3 ∧ splitPoint 5 = .ok 4 ∧
    (∃ left right, LeafRange.split { start := 0, size := 5 } = .ok (some (left, right)) ∧
      Splits 5 left.size right.size) ∧
    (∃ left right side next, Splits 5 left right ∧
      Place.turn { size := 5, index := 4 } = .ok (some (side, next)) ∧
      next.size = if side then right else left) ∧
    MerkleTree.Builds (List.replicate 5 emptyRoot) { start := 0, size := 5 }
      (.ok (.build (List.replicate 5 emptyRoot))) := by
  obtain ⟨hfloor, hceil, hpoint, hpart, hplace, -, hbuilds, -⟩ := splitting_exact
  obtain ⟨k, hfits, -, hlow, hhigh, hpower⟩ := hfloor 5 (by decide)
  obtain ⟨m, hshort, -, hmem, hleast⟩ := hceil 5 (by decide)
  obtain ⟨j, hsplit, -, hbelow, habove⟩ := hpoint 5 (by decide)
  have hfive : (5 : Int) < 2 ^ 3 := by decide
  have hk : k < 3 := (pow_lt_pow_iff_right₀ one_lt_two).mp (hlow.trans_lt hfive)
  have hm : m ≤ 3 := hleast hfive.le
  have hj : j < 3 := (pow_lt_pow_iff_right₀ one_lt_two).mp (hbelow.trans hfive)
  -- The bounds leave one exponent each.
  obtain rfl : k = 2 := by interval_cases k <;> omega
  obtain rfl : m = 3 := by
    change (5 : Int) ≤ 2 ^ m at hmem
    interval_cases m <;> omega
  obtain rfl : j = 2 := by interval_cases j <;> omega
  refine ⟨hfits, hpower, hshort, hsplit, ?_, hplace { size := 5, index := 4 } (by decide),
    (hbuilds _ _ (by decide)).mpr rfl⟩
  exact (hpart { start := 0, size := 5 } (by decide)).resolve_left fun h => absurd h.1 (by decide)

end SignerHost
