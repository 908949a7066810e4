import SignerHost.KeyPath
import SignerHost.Proofs.Layout

/-!
# Paths are read back

A path that was parsed has at most ten steps, and the index of each is below the bit that marks a
hardened one.  So the four bytes of a step, and the byte that counts the steps, lose nothing.

* `PathStep.ofNumber` and `KeyPath.read` are the inverses of `number` and `encode`.
* `KeyPath.finds_read` says what the reader of a path finds, with any bytes behind it: the steps of
  any path that `HasForm`, and so those of a path that was parsed.
-/

namespace SignerHost

open Step

/-! ## Steps -/

namespace PathStep

/-- The step of a number: the bit that marks a hardened step, and the index below it. -/
def ofNumber (n : Nat) : PathStep :=
  if hardenedBit ≤ n then ⟨n - hardenedBit, true⟩ else ⟨n, false⟩

/-- The index leaves the bit free that marks a hardened step. -/
def HasForm (s : PathStep) : Prop := s.index < hardenedBit

instance (s : PathStep) : Decidable s.HasForm := inferInstanceAs (Decidable (_ < _))

theorem ofNumber_number {s : PathStep} (h : s.HasForm) : ofNumber s.number = s := by
  obtain ⟨index, hardened⟩ := s
  change index < hardenedBit at h
  cases hardened with
  | true => simp [ofNumber, number]
  | false => simp [ofNumber, number, h]

theorem number_lt {s : PathStep} (h : s.HasForm) : s.number < 256 ^ 4 := by
  unfold HasForm hardenedBit at h
  unfold number hardenedBit
  split <;> omega

theorem hasForm_of_parse {path : String} {cs : List Char} {s : PathStep}
    (h : parse path cs = .ok s) : s.HasForm := by
  unfold parse at h
  simp only [] at h
  obtain ⟨-, h⟩ := guard_eq_ok.mp h
  obtain ⟨index, -, h⟩ := bind_eq_ok.mp h
  obtain ⟨hindex, h⟩ := guard_eq_ok.mp h
  cases h
  exact Nat.not_le.mp hindex

/-- Four bytes, most significant first. -/
def read : Reader PathStep := do
  return ofNumber (← Field.uint 4 .big)

theorem number_ofNumber (n : Nat) : (ofNumber n).number = n := by
  unfold ofNumber number
  split_ifs <;> simp_all

theorem hasForm_ofNumber {n : Nat} (h : n < 256 ^ 4) : (ofNumber n).HasForm := by
  unfold ofNumber
  split_ifs with hhardened
  · show n - hardenedBit < hardenedBit
    unfold hardenedBit
    omega
  · exact Nat.not_le.mp hhardened

theorem finds_read : read.Finds fun step s => step.HasForm ∧ s = step.encode := by
  refine ((Field.finds_uint (n := 4) (by decide)).bind
    fun n => Reader.finds_pure (ofNumber n)).congr fun step s => ?_
  constructor
  · rintro ⟨n, _, _, rfl, ⟨hn, rfl⟩, rfl, rfl⟩
    rw [encode, number_ofNumber, List.append_nil]
    exact ⟨hasForm_ofNumber hn, rfl⟩
  · rintro ⟨hform, rfl⟩
    exact ⟨step.number, _, _, (List.append_nil _).symm, ⟨number_lt hform, rfl⟩,
      (ofNumber_number hform).symm, rfl⟩

end PathStep

/-! ## Paths -/

namespace KeyPath

theorem length_le_of_parse {path : String} {steps : List PathStep}
    (h : parse path = .ok steps) : steps.length ≤ maxSteps := by
  unfold parse at h
  simp only [] at h
  split_ifs at h with hempty hlong
  · cases h
    exact Nat.zero_le _
  · rw [← (mapM_eq_ok.mp h).length_eq]
    exact Nat.not_lt.mp hlong

theorem length_encode (steps : List PathStep) :
    (encode steps).length = 1 + 4 * steps.length := by
  have hsteps : (steps.flatMap PathStep.encode).length = 4 * steps.length := by
    induction steps with
    | nil => rfl
    | cons step rest ih =>
        rw [List.flatMap_cons, List.length_append, ih, List.length_cons, PathStep.encode,
          Bytes.length_ofNatBE]
        ring
  rw [encode, List.length_cons, hsteps]
  ring

theorem hasForm_of_parse {path : String} {steps : List PathStep} (h : parse path = .ok steps) :
    ∀ s ∈ steps, s.HasForm := by
  unfold parse at h
  simp only [] at h
  split_ifs at h with hempty hlong
  · cases h
    intro s hs
    cases hs
  · intro s hs
    obtain ⟨cs, -, hparse⟩ := exists_of_mem_of_mapM h hs
    exact PathStep.hasForm_of_parse hparse

/-- One byte that counts the steps, and the steps. -/
def read : Reader (List PathStep) := do
  let count ← Field.uint 1 .big
  Wire.many PathStep.read count

/-- The steps can be counted in a byte, and each of them has a form. -/
structure HasForm (steps : List PathStep) : Prop where
  count : steps.length < 256
  steps : ∀ step ∈ steps, step.HasForm

theorem HasForm.of_parse {path : String} {steps : List PathStep}
    (h : parse path = .ok steps) : HasForm steps where
  count := (length_le_of_parse h).trans_lt (by decide)
  steps := hasForm_of_parse h

theorem finds_read : read.Finds fun steps s => HasForm steps ∧ s = encode steps := by
  refine ((Field.finds_uint (n := 1) (by decide)).bind
    (Wire.finds_many PathStep.finds_read)).congr fun steps s => ?_
  constructor
  · rintro ⟨_, _, _, rfl, ⟨hcount, rfl⟩, rfl, hforms, rfl⟩
    exact ⟨⟨hcount, hforms⟩, by rw [encode, Bytes.ofNatBE_one hcount, List.singleton_append]⟩
  · rintro ⟨⟨hcount, hforms⟩, rfl⟩
    exact ⟨_, _, _, by rw [encode, Bytes.ofNatBE_one hcount, List.singleton_append],
      ⟨hcount, rfl⟩, rfl, hforms, rfl⟩

end KeyPath
end SignerHost
