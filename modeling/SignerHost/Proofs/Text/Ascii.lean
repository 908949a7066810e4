import Mathlib.Tactic
import SignerHost.Proofs.Step
import SignerHost.Text.Basic

/-!
# Texts in ASCII

A text in ASCII is written with one byte for each character.  `Text.ofAscii_eq_ok` says that the
bytes that are read are those that write such a text, and `Text.ofAscii_eq_error` what is wrong with
all others.
-/

namespace SignerHost
namespace Text

def IsAscii (text : String) : Prop := ∀ c ∈ text.toList, c.toNat < 128

instance (text : String) : Decidable (IsAscii text) :=
  List.decidableBAll (fun c : Char => c.toNat < 128) text.toList

/-- The bytes of a text in ASCII. -/
def ascii (text : String) : Bytes := text.toList.map fun c => UInt8.ofNat c.toNat

theorem toNat_ofNat_of_lt {n : Nat} (h : n < 128) : (Char.ofNat n).toNat = n := by
  rw [Char.ofNat, dif_pos (.inl (by omega))]
  rfl

theorem ofAscii_ascii {text : String} (h : IsAscii text) : ofAscii (ascii text) = .ok text := by
  have hbyte (c : Char) (hc : c ∈ text.toList) : (UInt8.ofNat c.toNat).toNat = c.toNat :=
    UInt8.toNat_ofNat_of_lt' ((h c hc).trans (by decide))
  have hbound : (ascii text).all (fun b => b < 128) = true := by
    refine List.all_eq_true.mpr (List.forall_mem_map.mpr fun c hc => ?_)
    rw [decide_eq_true_eq, UInt8.lt_iff_toNat_lt, hbyte c hc]
    exact h c hc
  have hchars : (ascii text).map (fun b => Char.ofNat b.toNat) = text.toList := by
    rw [ascii, List.map_map]
    refine (List.map_congr_left fun c hc => ?_).trans (List.map_id _)
    rw [Function.comp_apply, hbyte c hc, Char.ofNat_toNat, id]
  rw [ofAscii, if_pos hbound, hchars, String.ofList_toList]

theorem eq_ascii_of_ofAscii {bs : Bytes} {text : String} (h : ofAscii bs = .ok text) :
    IsAscii text ∧ bs = ascii text := by
  unfold ofAscii at h
  split_ifs at h with hall
  cases h
  have hlow (b : UInt8) (hb : b ∈ bs) : b.toNat < 128 :=
    UInt8.lt_iff_toNat_lt.mp (of_decide_eq_true (List.all_eq_true.mp hall b hb))
  rw [IsAscii, ascii, String.toList_ofList, List.forall_mem_map, List.map_map]
  refine ⟨fun b hb => ?_, ?_⟩
  · rw [toNat_ofNat_of_lt (hlow b hb)]
    exact hlow b hb
  · refine (List.map_id bs).symm.trans (List.map_congr_left fun b hb => ?_)
    rw [Function.comp_apply, toNat_ofNat_of_lt (hlow b hb), UInt8.ofNat_toNat, id]

/-- What is read as a text in ASCII is what writes it. -/
theorem ofAscii_eq_ok {bs : Bytes} {text : String} :
    ofAscii bs = .ok text ↔ IsAscii text ∧ bs = ascii text := by
  constructor
  · exact eq_ascii_of_ofAscii
  · rintro ⟨hascii, rfl⟩
    exact ofAscii_ascii hascii

theorem ofAscii_eq_error {bs : Bytes} {failure : Failure} :
    ofAscii bs = .error failure ↔ (∃ b ∈ bs, 128 ≤ b.toNat) ∧ failure = .malformed .notAscii := by
  have hall : bs.all (fun b => b < 128) = true ↔ ¬ ∃ b ∈ bs, 128 ≤ b.toNat := by
    simp [UInt8.lt_iff_toNat_lt]
  unfold ofAscii
  split_ifs with h
  · simp [hall.mp h]
  · have hhigh := not_not.mp (mt hall.mpr h)
    simp [hhigh, eq_comm]

end Text
end SignerHost
