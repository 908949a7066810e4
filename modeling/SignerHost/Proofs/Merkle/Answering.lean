import SignerHost.Proofs.Merkle.Tree

/-!
# Malformed proofs are answered

The checker answers a malformed proof instead of failing.  On the way down it asks for the split
point of two or more leaves only.  On the way up every value that was hashed is a digest, and a
sibling is looked at before it is hashed.  The leaf is not, so it is the only one that may be no
digest when it is hashed.

* `Place.turn` is a turn of the way down on integers, where the functions on the way refuse what
  they are not made for; `Place.loops_path` says that none of them ever does, and that the way
  ends.
* `climb_eq_error` says which climbs fail.
* `verifyProof_answers_iff` says which proofs are answered, whatever the lengths of their parts.
-/

namespace SignerHost

open PowerOfTwo

/-! ## The way down -/

namespace PowerOfTwo

/-- The split point of an integer, where each function on the way refuses what it is not made
for.  It goes through the same tests as the recursion does. -/
def splitPoint (n : Int) : Except Failure Nat :=
  if 1 < n then do
    if ← onPositive isPower n then return n.toNat / 2
    return 1 <<< (← onPositive floorLog n)
  else .error .domain

theorem splitPoint_of_lt {n : Int} (h : 1 < n) : splitPoint n = .ok (below n.toNat) := by
  have hpositive {α : Type} (f : Nat → α) : onPositive f n = .ok (f n.toNat) :=
    if_pos (zero_lt_one.trans h)
  rw [splitPoint, if_pos h, hpositive, hpositive, below]
  cases isPower n.toNat <;> rfl

/-- None of the functions on the way refuses what the first one accepts. -/
theorem splitPoint_eq_belowInt (n : Int) : splitPoint n = belowInt n := by
  by_cases h : 1 < n
  · rw [splitPoint_of_lt h, belowInt, if_pos h]
  · rw [splitPoint, belowInt, if_neg h, if_neg h]

end PowerOfTwo

/-- A position among a number of leaves.  It need not lie among them. -/
structure Place where
  size : Int
  index : Int

namespace Place

/-- One turn of the way down: the side on which the position lies, and the position in the part on
that side.  The way ends as soon as no more than one leaf is left. -/
def turn (p : Place) : Except Failure (Option (Bool × Place)) :=
  if 1 < p.size then do
    let split ← splitPoint p.size
    if p.index < split then return some (false, { size := split, index := p.index })
    return some (true, { size := p.size - split, index := p.index - split })
  else .ok none

theorem turn_left {p : Place} (h : 1 < p.size) (hside : p.index < below p.size.toNat) :
    p.turn = .ok (some (false, { size := below p.size.toNat, index := p.index })) := by
  rw [turn, if_pos h, splitPoint_of_lt h]
  exact if_pos hside

theorem turn_right {p : Place} (h : 1 < p.size) (hside : ¬ p.index < below p.size.toNat) :
    p.turn = .ok (some (true,
      { size := p.size - below p.size.toNat, index := p.index - below p.size.toNat })) := by
  rw [turn, if_pos h, splitPoint_of_lt h]
  exact if_neg hside

/-- No turn is refused, each one makes the part smaller, and it goes where the path goes. -/
theorem turn_of_lt {p : Place} (h : 1 < p.size) :
    ∃ side q, p.turn = .ok (some (side, q)) ∧ q.size.toNat < p.size.toNat ∧
      merklePath p.size.toNat p.index.toNat =
        side :: merklePath q.size.toNat q.index.toNat := by
  have htwo : 2 ≤ p.size.toNat := by omega
  have hlt := below_lt htwo
  have hpos := below_pos htwo
  by_cases hside : p.index < below p.size.toNat
  · exact ⟨_, _, turn_left h hside, hlt, merklePath_left htwo (by omega)⟩
  · refine ⟨_, _, turn_right h hside, ?_⟩
    simp only [Int.toNat_sub']
    exact ⟨Nat.sub_lt_self hpos hlt.le, merklePath_right htwo (by omega)⟩

/-- The way down ends, without a failure, and its turns are those of the path.  The size gets
smaller with every turn, which bounds their number. -/
theorem loops_path (p : Place) :
    Step.Loops turn p (.ok (merklePath p.size.toNat p.index.toNat)) := by
  induction hn : p.size.toNat using Nat.strong_induction_on generalizing p with
  | _ n ih =>
      subst hn
      by_cases h : 1 < p.size
      · obtain ⟨side, q, hturn, hsmaller, hpath⟩ := turn_of_lt h
        rw [hpath]
        exact .turned hturn (ih _ hsmaller q rfl)
      · rw [merklePath_of_lt_two (by omega)]
        exact .ended (if_neg h)

end Place

/-! ## The way up -/

/-- From a digest the climb does not fail: what is hashed on it is a digest again.  Only the leaf
can be of another length, because siblings are looked at first. -/
theorem exists_climb_of_digest (steps : List (Bool × Bytes)) {value : Bytes}
    (h : value.length = 32) : ∃ top, climb steps value = .ok top := by
  induction steps generalizing value with
  | nil => exact ⟨_, rfl⟩
  | cons step steps ih =>
      obtain ⟨right, sibling⟩ := step
      rw [climb]
      by_cases hsibling : sibling.length = 32
      · rw [if_pos hsibling]
        cases right with
        | true =>
            simp only [if_true, combine_of_length hsibling h]
            exact ih (MerkleTree.length_pairHash _ _)
        | false =>
            simp only [Bool.false_eq_true, if_false, combine_of_length h hsibling]
            exact ih (MerkleTree.length_pairHash _ _)
      · exact ⟨_, if_neg hsibling⟩

/-- A climb fails if and only if it starts with a value that is no digest, beside a sibling that is
one. -/
theorem climb_eq_error {steps : List (Bool × Bytes)} {value : Bytes} {failure : Failure} :
    climb steps value = .error failure ↔
      value.length ≠ 32 ∧ (∃ step ∈ steps.head?, step.2.length = 32) ∧
        failure = .malformed .digestLength := by
  by_cases hvalue : value.length = 32
  · obtain ⟨top, htop⟩ := exists_climb_of_digest steps hvalue
    simp [htop, hvalue]
  · cases steps with
    | nil => simp [climb]
    | cons step steps =>
        obtain ⟨right, sibling⟩ := step
        by_cases hsibling : sibling.length = 32
        · cases right <;>
            simp [climb, hsibling, hvalue, combine_of_not_digest, eq_comm]
        · simp [climb, hsibling]

/-! ## Checking a proof -/

/-- A proof without the form that its position asks for is answered at once. -/
theorem verifyProof_of_not_form {root leaf : Bytes} {size index : Int} {proof : List Bytes}
    (h : ¬ (0 ≤ index ∧ index < size ∧
      proof.length = (merklePath size.toNat index.toNat).length)) :
    verifyProof root size index leaf proof = .ok false := by
  rw [verifyProof]
  split
  · rfl
  · exact if_pos fun hlength => h ⟨by omega, by omega, hlength⟩

/-- Any other proof is answered as soon as the climb along it ends. -/
theorem verifyProof_of_form {root leaf : Bytes} {size index : Int} {proof : List Bytes}
    (hnonneg : 0 ≤ index) (hlt : index < size)
    (hlength : proof.length = (merklePath size.toNat index.toNat).length) :
    verifyProof root size index leaf proof =
      (climb ((merklePath size.toNat index.toNat).reverse.zip proof) leaf).map
        fun top => decide (top = some root) := by
  rw [verifyProof, if_neg (by omega)]
  simp only [hlength, ne_eq, not_true_eq_false, if_false]
  generalize climb _ leaf = top
  rcases top with _ | _ | _ <;> simp [Except.map]

/-- A proof that has the length of the path to its position, whose first sibling is a digest but
whose leaf is none. -/
structure HashesNoDigest (size index : Int) (leaf : Bytes) (proof : List Bytes) : Prop where
  nonneg : 0 ≤ index
  lt : index < size
  length : proof.length = (merklePath size.toNat index.toNat).length
  sibling : ∃ first ∈ proof.head?, first.length = 32
  leaf : leaf.length ≠ 32

theorem verifyProof_eq_error {root leaf : Bytes} {size index : Int} {proof : List Bytes}
    {failure : Failure} :
    verifyProof root size index leaf proof = .error failure ↔
      HashesNoDigest size index leaf proof ∧ failure = .malformed .digestLength := by
  by_cases hform : 0 ≤ index ∧ index < size ∧
      proof.length = (merklePath size.toNat index.toNat).length
  · obtain ⟨hnonneg, hlt, hlength⟩ := hform
    -- The climb starts beside the first sibling of the proof.
    have hproof : ((merklePath size.toNat index.toNat).reverse.zip proof).map Prod.snd = proof :=
      List.map_snd_zip (by simp [hlength])
    have hfirst : (∃ step ∈ ((merklePath size.toNat index.toNat).reverse.zip proof).head?,
        step.2.length = 32) ↔ ∃ first ∈ proof.head?, first.length = 32 := by
      conv_rhs => rw [← hproof, List.head?_map]
      simp only [Option.mem_map, exists_exists_and_eq_and]
    rw [verifyProof_of_form hnonneg hlt hlength, Step.map_eq_error, climb_eq_error, hfirst]
    constructor
    · rintro ⟨hleaf, hsibling, hfailure⟩
      exact ⟨⟨hnonneg, hlt, hlength, hsibling, hleaf⟩, hfailure⟩
    · rintro ⟨hflaw, hfailure⟩
      exact ⟨hflaw.leaf, hflaw.sibling, hfailure⟩
  · rw [verifyProof_of_not_form hform]
    constructor
    · rintro ⟨⟩
    · rintro ⟨hflaw, -⟩
      exact absurd ⟨hflaw.nonneg, hflaw.lt, hflaw.length⟩ hform

/-- The way down to any position ends, and no function on it refuses what it is given.  Checking a
proof then answers, unless the proof would hash a leaf that is no digest, and fails for no other
reason. -/
theorem verifyProof_answers_iff (root leaf : Bytes) (size index : Int) (proof : List Bytes) :
    (∀ outcome, Step.Loops Place.turn { size, index } outcome ↔
      outcome = .ok (merklePath size.toNat index.toNat)) ∧
    ((∃ answer, verifyProof root size index leaf proof = .ok answer) ↔
      ¬ HashesNoDigest size index leaf proof) ∧
    ∀ failure, verifyProof root size index leaf proof = .error failure ↔
      HashesNoDigest size index leaf proof ∧ failure = .malformed .digestLength := by
  refine ⟨fun outcome => (Place.loops_path { size, index }).iff_eq, ?_, fun failure => verifyProof_eq_error⟩
  constructor
  · rintro ⟨answer, hanswer⟩ hflaw
    cases hanswer.symm.trans (verifyProof_eq_error.mpr ⟨hflaw, rfl⟩)
  · intro hsound
    cases hresult : verifyProof root size index leaf proof with
    | ok answer => exact ⟨answer, rfl⟩
    | error failure => exact absurd (verifyProof_eq_error.mp hresult).1 hsound

/-- An empty leaf beside a digest is hashed and refused, where a malformed sibling is answered. -/
theorem verifyProof_of_empty_leaf :
    verifyProof emptyRoot 2 0 [] [emptyRoot] = .error (.malformed .digestLength) := by
  have hpath : merklePath 2 0 = [false] := by
    rw [merklePath_left (by decide) (by decide), merklePath_of_lt_two (by decide)]
  refine verifyProof_eq_error.mpr ⟨⟨by decide, by decide, ?_, ⟨emptyRoot, rfl, rfl⟩, by decide⟩, rfl⟩
  exact congrArg List.length hpath.symm

end SignerHost
