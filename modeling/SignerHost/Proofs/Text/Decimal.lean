import Mathlib.Data.List.TakeWhile
import Mathlib.Tactic
import SignerHost.Text.Decimal

/-!
# Numerals

A text of decimal digits stands for a number, unless it is empty or too long.

* `Numeral` says which texts are read as a number, in any script, and `natural_eq_ok` which number
  that is.
* `padded` writes a number in ASCII, with zeros in front, and `natural_ascii_eq_ok` says that these
  are all texts in ASCII that stand for it.
-/

namespace SignerHost
namespace Decimal

/-! ## Texts that are read as a number -/

/-- A text that is read as a number: it has a digit but not too many, and all have a value.  The
digits may be of any script. -/
structure Numeral (cs : List Char) : Prop where
  ne_nil : cs ≠ []
  decimal : ∀ c ∈ cs, (value? c).isSome = true
  length_le : cs.length ≤ maxDigits

theorem natural_of_numeral {cs : List Char} (h : Numeral cs) :
    natural cs = .ok (ofDigits (cs.filterMap value?)) := by
  have hleading : (cs.takeWhile fun c => (value? c).isSome) = cs :=
    List.takeWhile_eq_self_iff.mpr h.decimal
  rw [natural]
  simp only [hleading]
  rw [if_neg (Nat.not_lt.mpr h.length_le), if_pos (by simp [h.ne_nil])]

theorem natural_of_not_numeral {cs : List Char} (h : ¬ Numeral cs) :
    ∃ cause, natural cs = .error (.malformed cause) := by
  unfold natural
  simp only []
  split_ifs with hlong hall
  · exact ⟨_, rfl⟩
  · -- All of the text is decimal, so it could only be too long.
    have hself := (List.takeWhile_prefix fun c => (value? c).isSome).eq_of_length hall.1
    rw [hself] at hlong
    exact absurd ⟨hall.2, List.takeWhile_eq_self_iff.mp hself, Nat.not_lt.mp hlong⟩ h
  · exact ⟨_, rfl⟩

theorem natural_eq_ok {cs : List Char} {n : Nat} :
    natural cs = .ok n ↔ Numeral cs ∧ n = ofDigits (cs.filterMap value?) := by
  by_cases h : Numeral cs
  · rw [natural_of_numeral h]
    constructor
    · intro hok
      cases hok
      exact ⟨h, rfl⟩
    · rintro ⟨-, rfl⟩
      rfl
  · obtain ⟨cause, hcause⟩ := natural_of_not_numeral h
    rw [hcause]
    constructor
    · intro hok
      cases hok
    · rintro ⟨hnumeral, -⟩
      exact absurd hnumeral h

/-! ## ASCII -/

/-- The digits of ASCII are ten characters in a row. -/
theorem isDigit_iff {c : Char} : c.isDigit = true ↔ 48 ≤ c.toNat ∧ c.toNat ≤ 57 := by
  rw [Char.isDigit]
  simp only [ge_iff_le, Bool.and_eq_true, decide_eq_true_eq, UInt32.le_iff_toNat_le]
  rfl

/-- The digits of ASCII have the value of their place, and no other character of ASCII has one. -/
theorem value?_of_ascii {c : Char} (h : c.toNat < 128) :
    value? c = if c.isDigit then some (c.toNat - '0'.toNat) else none := by
  have hzeros : ∀ z ∈ zeros.tail, 128 ≤ z := by decide
  have hrest : zeros.tail.find? (fun z => z ≤ c.toNat && c.toNat < z + 10) = none := by
    refine List.find?_eq_none.mpr fun z hz => ?_
    have := hzeros z hz
    simp only [Bool.and_eq_true, decide_eq_true_eq]
    omega
  have hdigit : c.isDigit = (decide (0x30 ≤ c.toNat) && decide (c.toNat < 0x30 + 10)) := by
    rw [Bool.eq_iff_iff, isDigit_iff]
    simp only [Bool.and_eq_true, decide_eq_true_eq]
    omega
  rw [value?, show zeros = 0x30 :: zeros.tail from rfl, List.find?_cons, hrest, hdigit]
  cases decide (0x30 ≤ c.toNat) && decide (c.toNat < 0x30 + 10) <;> rfl

theorem value?_of_isDigit {c : Char} (h : c.isDigit = true) :
    value? c = some (c.toNat - '0'.toNat) := by
  have hbounds := isDigit_iff.mp h
  rw [value?_of_ascii (by omega), if_pos h]

/-- Digits of ASCII are read as the library reads them. -/
theorem ofDigits_filterMap {cs : List Char} (h : ∀ c ∈ cs, c.isDigit = true) :
    ofDigits (cs.filterMap value?) = Nat.ofDigitChars 10 cs 0 := by
  have hvalues : cs.filterMap value? = cs.map fun c => c.toNat - '0'.toNat := by
    rw [← List.filterMap_eq_map]
    exact List.filterMap_congr fun c hc => value?_of_isDigit (h c hc)
  rw [hvalues, ofDigits, List.foldl_map]
  rfl

/-- A number in decimal, with zeros in front. -/
def padded (zeros n : Nat) : List Char := List.replicate zeros '0' ++ Nat.toDigits 10 n

theorem isDigit_of_mem_padded {zeros n : Nat} {c : Char} (h : c ∈ padded zeros n) :
    c.isDigit = true := by
  rcases List.mem_append.mp h with hzero | hdigit
  · obtain rfl := List.eq_of_mem_replicate hzero
    rfl
  · exact Nat.isDigit_of_mem_toDigits (by decide) (by decide) hdigit

theorem padded_ne_nil (zeros n : Nat) : padded zeros n ≠ [] :=
  List.append_ne_nil_of_right_ne_nil _ Nat.toDigits_ne_nil

theorem ofDigitChars_padded (zeros n : Nat) : Nat.ofDigitChars 10 (padded zeros n) 0 = n := by
  rw [padded, Nat.ofDigitChars_append, Nat.ofDigitChars_replicate_zero, mul_zero,
    Nat.ofDigitChars_ten_toDigits]

/-- A digit is written for its value. -/
theorem toDigits_value {c : Char} (h : c.isDigit = true) :
    Nat.toDigits 10 (c.toNat - '0'.toNat) = [c] := by
  have hbounds := isDigit_iff.mp h
  have hlt : c.toNat - '0'.toNat < 10 := by
    show c.toNat - 48 < 10
    omega
  rw [Nat.toDigits_of_lt_base hlt, List.singleton_inj, ← Char.toNat_inj,
    Nat.toNat_digitChar_of_lt_ten hlt]
  show 48 + (c.toNat - 48) = c.toNat
  omega

/-- Digits behind a number other than zero go on with it. -/
theorem toDigits_append {n : Nat} (hn : 0 < n) {cs : List Char} (h : ∀ c ∈ cs, c.isDigit = true) :
    Nat.toDigits 10 n ++ cs = Nat.toDigits 10 (Nat.ofDigitChars 10 cs n) := by
  induction cs generalizing n with
  | nil => rw [List.append_nil, Nat.ofDigitChars_nil]
  | cons c cs ih =>
      obtain ⟨hc, hcs⟩ := List.forall_mem_cons.mp h
      have hbounds := isDigit_iff.mp hc
      have hnext := Nat.toDigits_append_toDigits (b := 10) (d := c.toNat - '0'.toNat)
        (by decide) hn (by show c.toNat - 48 < 10; omega)
      rw [Nat.ofDigitChars_cons, ← ih (by omega) hcs, ← hnext, toDigits_value hc, List.append_assoc,
        List.singleton_append]

/-- Digits of ASCII are a number with zeros in front. -/
theorem exists_padded {cs : List Char} (hne : cs ≠ []) (h : ∀ c ∈ cs, c.isDigit = true) :
    ∃ zeros, cs = padded zeros (Nat.ofDigitChars 10 cs 0) := by
  induction cs with
  | nil => exact absurd rfl hne
  | cons c cs ih =>
      obtain ⟨hc, hcs⟩ := List.forall_mem_cons.mp h
      rw [Nat.ofDigitChars_cons, mul_zero, zero_add]
      by_cases hzero : c.toNat - '0'.toNat = 0
      · -- A zero in front does not count, unless nothing stands behind it.
        have hdigit := toDigits_value hc
        rw [hzero, Nat.toDigits_zero] at hdigit
        obtain rfl := List.singleton_inj.mp hdigit
        cases cs with
        | nil => exact ⟨0, rfl⟩
        | cons d cs =>
            obtain ⟨zeros, hzeros⟩ := ih (List.cons_ne_nil d cs) hcs
            exact ⟨zeros + 1, congrArg ('0' :: ·) hzeros⟩
      · refine ⟨0, ?_⟩
        have hpos := Nat.pos_of_ne_zero hzero
        rw [padded, List.replicate_zero, List.nil_append, ← toDigits_append hpos hcs,
          toDigits_value hc, List.singleton_append]

/-- The texts in ASCII that stand for a number are those that write it with zeros in front. -/
theorem natural_ascii_eq_ok {cs : List Char} {n : Nat} :
    (∀ c ∈ cs, c.toNat < 128) ∧ natural cs = .ok n ↔
      cs.length ≤ maxDigits ∧ ∃ zeros, cs = padded zeros n := by
  rw [natural_eq_ok]
  constructor
  · rintro ⟨hascii, hnumeral, rfl⟩
    -- Among the ASCII characters only the ten usual digits have a value.
    have hdigits : ∀ c ∈ cs, c.isDigit = true := fun c hc => by
      have hvalue := hnumeral.decimal c hc
      rw [value?_of_ascii (hascii c hc)] at hvalue
      by_contra hnot
      rw [if_neg hnot] at hvalue
      cases hvalue
    rw [ofDigits_filterMap hdigits]
    exact ⟨hnumeral.length_le, exists_padded hnumeral.ne_nil hdigits⟩
  · rintro ⟨hlength, zeros, rfl⟩
    have hdigits : ∀ c ∈ padded zeros n, c.isDigit = true := fun c => isDigit_of_mem_padded
    refine ⟨fun c hc => (isDigit_iff.mp (hdigits c hc)).2.trans_lt (by decide), ⟨padded_ne_nil _ _,
      fun c hc => ?_, hlength⟩, ?_⟩
    · rw [value?_of_isDigit (hdigits c hc)]
      rfl
    · rw [ofDigits_filterMap hdigits, ofDigitChars_padded]

end Decimal
end SignerHost
