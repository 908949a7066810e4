import SignerHost.Proofs.Psbt.Failures
import SignerHost.Proofs.Text.Armor

/-!
# Three forms of one transaction

Bytes, hexadecimal text and text in base 64 stand for the same partially signed transaction.  Which
of the two forms a text has is told from its first characters.

* `PsbtSource.decodeText?_toHex` and `PsbtSource.decodeText?_encode` say that neither form of bytes
  that start with the magic number is taken for the other one.
* `PsbtSource.register_of_form` says that a form of bytes that are read is read, with blanks around
  it, and that the device gets the same commitments.
-/

namespace SignerHost

open Step

/-- Bytes that are read as a partially signed transaction start with the magic number. -/
theorem Psbt.exists_of_parse_eq_ok {bs : Bytes} {p : Psbt} (h : parse bs = .ok p) :
    ∃ rest, bs = magic ++ rest := by
  obtain ⟨start, s, hstart, h⟩ := run_bind_eq_ok.mp (Wire.whole_eq_ok.mp h)
  obtain ⟨hstart, -⟩ := EStateM.Result.ok.inj hstart
  have hmagic : bs.take magic.length = magic := by
    by_contra hne
    simp only [if_pos (hstart ▸ hne : start ≠ magic)] at h
    cases h
  exact ⟨_, (hmagic ▸ List.take_append_drop magic.length bs).symm⟩

namespace PsbtSource

theorem decodeText?_toHex (rest : Bytes) :
    decodeText? (Bytes.toHex (Psbt.magic ++ rest)).toList = some (Psbt.magic ++ rest) := by
  have hfront : (Bytes.toHex Psbt.magic).toList.isPrefixOf
      (Bytes.toHex (Psbt.magic ++ rest)).toList = true := by
    rw [Bytes.toList_toHex, Bytes.toList_toHex, Bytes.hexDigits_append, List.isPrefixOf_iff_prefix]
    exact List.prefix_append _ _
  rw [decodeText?, if_pos hfront, Bytes.ofHex?_toHex]

theorem decodeText?_encode (rest : Bytes) :
    decodeText? (Base64.encode (Psbt.magic ++ rest)).toList = some (Psbt.magic ++ rest) := by
  -- The first character is a letter, so the text does not start like the magic number in digits.
  have hfront : ¬ (Bytes.toHex Psbt.magic).toList.isPrefixOf
      (Base64.encode (Psbt.magic ++ rest)).toList = true := by
    rw [Base64.encode, String.toList_ofList]
    exact Bool.false_ne_true
  rw [decodeText?, if_neg hfront, Base64.decode?_encode]

/-- The text of a byte string, in one form or the other.  Hexadecimal digits are in lowercase. -/
inductive Form (bs : Bytes) : String → Prop
  | hexadecimal : Form bs (Bytes.toHex bs)
  | base64 : Form bs (Base64.encode bs)

namespace Form

variable {bs : Bytes} {form : String}

theorem isPlain (h : Form bs form) : ∀ c ∈ form.toList, Text.IsPlain c := by
  cases h with
  | hexadecimal => exact fun _ => Bytes.isPlain_of_mem_toHex
  | base64 => exact fun _ => Base64.isPlain_of_mem_encode

theorem decodes {rest : Bytes} (h : Form (Psbt.magic ++ rest) form) :
    PsbtSource.decodeText? form.toList = some (Psbt.magic ++ rest) := by
  cases h with
  | hexadecimal => exact decodeText?_toHex rest
  | base64 => exact decodeText?_encode rest

end Form

/-- A form of bytes that are read is read as the same transaction, with any blanks before and after
it, and whoever registers it learns and gets the same as from the bytes. -/
theorem register_of_form {bs : Bytes} {p : Psbt} (h : (bytes bs).normalize = .ok p)
    {form : String} (hform : Form bs form) {before after : String}
    (hbefore : ∀ c ∈ before.toList, Text.isBlank c = true)
    (hafter : ∀ c ∈ after.toList, Text.isBlank c = true) :
    (text (before ++ form ++ after)).normalize = .ok p ∧
      ∀ r, (text (before ++ form ++ after)).register.run r = (bytes bs).register.run r := by
  have hnormalize : (text (before ++ form ++ after)).normalize = .ok p := by
    obtain ⟨rest, rfl⟩ := Psbt.exists_of_parse_eq_ok h
    refine (normalize_of_data ?_).trans h
    rw [data?, String.toList_append, String.toList_append,
      Text.strip_of_plain hbefore hform.isPlain hafter]
    exact hform.decodes
  exact ⟨hnormalize, fun r => (run_register_of_ok hnormalize r).trans (run_register_of_ok h r).symm⟩

/-- The blanks of ASCII are among those that may stand around a form. -/
example : (" \t\n\r\x0b\x0c".toList.all Text.isBlank) = true := by decide

/-- A transaction of version 2 without inputs and outputs. -/
def emptyBytes : Bytes :=
  Psbt.magic ++ [0x01, 0xFB, 0x04, 0x02, 0x00, 0x00, 0x00, 0x01, 0x04, 0x01, 0x00, 0x01, 0x05, 0x01,
    0x00, 0x00]

/-- Its two texts, one at the end of a line and one on a line of its own. -/
theorem register_of_form_of_lines :
    let line := "  cHNidP8B+wQCAAAAAQQBAAEFAQAA\r\n"
    let digits := "\t70736274ff01fb0402000000010401000105010000\n"
    ∃ p, (bytes emptyBytes).normalize = .ok p ∧
      (text line).normalize = .ok p ∧ (text digits).normalize = .ok p ∧
      ∀ r, (text line).register.run r = (text digits).register.run r := by
  intro line digits
  have h : ∃ p, (bytes emptyBytes).normalize = .ok p := ⟨_, rfl⟩
  obtain ⟨p, hp⟩ := h
  have hline : line = "  " ++ Base64.encode emptyBytes ++ "\r\n" := by decide +kernel
  have hdigits : digits = "\t" ++ Bytes.toHex emptyBytes ++ "\n" := by decide +kernel
  have hindent : ∀ c ∈ "  ".toList, Text.isBlank c = true :=
    List.all_eq_true.mp (by decide)
  have hreturn : ∀ c ∈ "\r\n".toList, Text.isBlank c = true :=
    List.all_eq_true.mp (by decide)
  have htab : ∀ c ∈ "\t".toList, Text.isBlank c = true :=
    List.all_eq_true.mp (by decide)
  have hend : ∀ c ∈ "\n".toList, Text.isBlank c = true :=
    List.all_eq_true.mp (by decide)
  -- Blanks stand around both texts: an indent and a line end, a tab and a line feed.
  obtain ⟨hlineRead, hlineRun⟩ := register_of_form hp .base64 hindent hreturn
  obtain ⟨hdigitsRead, hdigitsRun⟩ := register_of_form hp .hexadecimal htab hend
  rw [hline, hdigits]
  exact ⟨p, hp, hlineRead, hdigitsRead, fun r => (hlineRun r).trans (hdigitsRun r).symm⟩

end PsbtSource
end SignerHost
