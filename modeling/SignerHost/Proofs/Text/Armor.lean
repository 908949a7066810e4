import Mathlib.Data.List.TakeWhile
import Mathlib.Tactic
import SignerHost.Text.Base64
import SignerHost.Text.Basic

/-!
# Bytes written as text

Bytes are written as text in hexadecimal or in base 64.  What is written in either form is read back
as the same bytes, and it is written in plain characters, so blanks around it can be told from it.

* `Bytes.ofHex?_toHex` and `Base64.decode?_encode` read the forms back.
* `Bytes.isPlain_of_mem_toHex` and `Base64.isPlain_of_mem_encode` say which characters they have.
* `Text.strip_of_plain` takes off the blanks around a text that has none.
-/

namespace SignerHost

/-! ## Blanks around a text -/

namespace Text

/-- A character in ASCII that is no blank. -/
def IsPlain (c : Char) : Prop := c.toNat < 128 ∧ isBlank c = false

instance (c : Char) : Decidable (IsPlain c) := inferInstanceAs (Decidable (_ ∧ _))

theorem dropWhile_of_forall {drops : Char → Bool} {cs : List Char}
    (h : ∀ c ∈ cs, drops c = false) : cs.dropWhile drops = cs :=
  List.dropWhile_eq_self_iff.mpr fun hlength => by simp [h _ (List.getElem_mem hlength)]

theorem trim_of_not_dropped {drops : Char → Bool} {before cs after : List Char}
    (hbefore : ∀ c ∈ before, drops c = true) (hcs : ∀ c ∈ cs, drops c = false)
    (hafter : ∀ c ∈ after, drops c = true) : trim drops (before ++ cs ++ after) = cs := by
  rw [trim, List.append_assoc, List.dropWhile_append_of_pos hbefore]
  rcases eq_or_ne cs [] with rfl | hne
  · rw [List.nil_append, List.dropWhile_eq_nil_iff.mpr hafter]
    rfl
  · -- The first character stays, so nothing more is dropped in front.
    obtain ⟨first, rest, rfl⟩ := List.exists_cons_of_ne_nil hne
    have hfirst : ¬ drops first = true := by simp [hcs first List.mem_cons_self]
    rw [List.cons_append, List.dropWhile_cons_of_neg hfirst, ← List.cons_append,
      List.reverse_append,
      List.dropWhile_append_of_pos fun c hc => hafter c (List.mem_reverse.mp hc),
      dropWhile_of_forall fun c hc => hcs c (List.mem_reverse.mp hc), List.reverse_reverse]

/-- Blanks around a text of plain characters are taken off, and nothing else. -/
theorem strip_of_plain {before cs after : List Char} (hbefore : ∀ c ∈ before, isBlank c = true)
    (hcs : ∀ c ∈ cs, IsPlain c) (hafter : ∀ c ∈ after, isBlank c = true) :
    strip (before ++ cs ++ after) = cs :=
  trim_of_not_dropped hbefore (fun c hc => (hcs c hc).2) hafter

end Text

/-! ## Hexadecimal text -/

namespace Bytes

theorem hexDigit_cases : ∀ n < 16, hexValue? (hexDigit n) = some n ∧ Text.IsPlain (hexDigit n) := by
  decide

/-- The digits of a byte string. -/
def hexDigits (bs : Bytes) : List Char :=
  bs.flatMap fun b => [hexDigit (b.toNat / 16), hexDigit (b.toNat % 16)]

theorem toList_toHex (bs : Bytes) : (toHex bs).toList = hexDigits bs := String.toList_ofList

theorem hexDigits_append (xs ys : Bytes) : hexDigits (xs ++ ys) = hexDigits xs ++ hexDigits ys :=
  List.flatMap_append

theorem ofHex?_hexDigits (bs : Bytes) : ofHex? (hexDigits bs) = some bs := by
  induction bs with
  | nil => rfl
  | cons b bs ih =>
      have hb := b.toNat_lt
      have hhigh := (hexDigit_cases (b.toNat / 16) (by omega)).1
      have hlow := (hexDigit_cases (b.toNat % 16) (by omega)).1
      have hbyte : UInt8.ofNat (16 * (b.toNat / 16) + b.toNat % 16) = b := by
        rw [Nat.div_add_mod, UInt8.ofNat_toNat]
      show ofHex? (hexDigit (b.toNat / 16) :: hexDigit (b.toNat % 16) :: hexDigits bs) = _
      rw [ofHex?, hhigh, hlow, ih]
      simp only [hbyte]

/-- Hexadecimal text is read back as the bytes that it was written for. -/
theorem ofHex?_toHex (bs : Bytes) : ofHex? (toHex bs).toList = some bs := by
  rw [toList_toHex, ofHex?_hexDigits]

theorem isPlain_of_mem_toHex {bs : Bytes} {c : Char} (h : c ∈ (toHex bs).toList) :
    Text.IsPlain c := by
  rw [toList_toHex] at h
  obtain ⟨b, -, hc⟩ := List.mem_flatMap.mp h
  have hb := b.toNat_lt
  rcases List.mem_pair.mp hc with rfl | rfl
  · exact (hexDigit_cases _ (by omega)).2
  · exact (hexDigit_cases _ (by omega)).2

end Bytes

/-! ## Base 64 -/

namespace Base64

theorem digit_cases : ∀ n < 64, value? (digit n) = some n ∧ digit n ≠ '=' ∧
    Text.IsPlain (digit n) := by
  decide

/-- What a character of the alphabet adds at a place of a group. -/
theorem decodeFrom_digit {place carry pads n : Nat} (hn : n < 64) (cs : List Char) :
    decodeFrom place carry pads (digit n :: cs) =
      if place = 0 then decodeFrom 1 n 0 cs
      else if place = 1 then
        (decodeFrom 2 (n % 16) 0 cs).map (UInt8.ofNat (carry * 4 + n / 16) :: ·)
      else if place = 2 then
        (decodeFrom 3 (n % 4) 0 cs).map (UInt8.ofNat (carry * 16 + n / 4) :: ·)
      else (decodeFrom 0 0 0 cs).map (UInt8.ofNat (carry * 64 + n) :: ·) := by
  obtain ⟨hvalue, hpad, -⟩ := digit_cases n hn
  rw [decodeFrom, if_neg hpad, hvalue]

/-- The first two characters of a group hold a byte and the front of the next one. -/
theorem decodeFrom_first {a : UInt8} {n : Nat} (hn : n < 16) (cs : List Char) :
    decodeFrom 0 0 0 (digit (a.toNat / 4) :: digit (a.toNat % 4 * 16 + n) :: cs) =
      (decodeFrom 2 n 0 cs).map (a :: ·) := by
  have ha := a.toNat_lt
  rw [decodeFrom_digit (by omega), if_pos rfl, decodeFrom_digit (by omega), if_neg (by decide),
    if_pos rfl, show a.toNat / 4 * 4 + (a.toNat % 4 * 16 + n) / 16 = a.toNat by omega,
    show (a.toNat % 4 * 16 + n) % 16 = n by omega, UInt8.ofNat_toNat]

/-- The third character ends the second byte. -/
theorem decodeFrom_second {b : UInt8} {n : Nat} (hn : n < 4) (cs : List Char) :
    decodeFrom 2 (b.toNat / 16) 0 (digit (b.toNat % 16 * 4 + n) :: cs) =
      (decodeFrom 3 n 0 cs).map (b :: ·) := by
  have hb := b.toNat_lt
  rw [decodeFrom_digit (by omega), if_neg (by decide), if_neg (by decide), if_pos rfl,
    show b.toNat / 16 * 16 + (b.toNat % 16 * 4 + n) / 4 = b.toNat by omega,
    show (b.toNat % 16 * 4 + n) % 4 = n by omega, UInt8.ofNat_toNat]

/-- The fourth character ends the third byte and the group. -/
theorem decodeFrom_third {c : UInt8} (cs : List Char) :
    decodeFrom 3 (c.toNat / 64) 0 (digit (c.toNat % 64) :: cs) =
      (decodeFrom 0 0 0 cs).map (c :: ·) := by
  have hc := c.toNat_lt
  rw [decodeFrom_digit (by omega), if_neg (by decide), if_neg (by decide), if_neg (by decide),
    show c.toNat / 64 * 64 + c.toNat % 64 = c.toNat by omega, UInt8.ofNat_toNat]

theorem decodeFrom_encodeChars (bs : Bytes) : decodeFrom 0 0 0 (encodeChars bs) = some bs := by
  induction bs using encodeChars.induct with
  | case1 => rfl
  | case2 a =>
      rw [encodeChars, ← Nat.add_zero (a.toNat % 4 * 16), decodeFrom_first (by decide)]
      rfl
  | case3 a b =>
      have hb := b.toNat_lt
      rw [encodeChars, decodeFrom_first (by omega), ← Nat.add_zero (b.toNat % 16 * 4),
        decodeFrom_second (by decide)]
      rfl
  | case4 a b c rest ih =>
      have hb := b.toNat_lt
      have hc := c.toNat_lt
      rw [encodeChars, decodeFrom_first (by omega), decodeFrom_second (by omega),
        decodeFrom_third, ih]
      rfl

theorem isPlain_of_mem_encodeChars (bs : Bytes) : ∀ c ∈ encodeChars bs, Text.IsPlain c := by
  have hdigit {n : Nat} (hn : n < 64) : Text.IsPlain (digit n) := (digit_cases n hn).2.2
  have hpad : Text.IsPlain '=' := by decide
  have hbyte (b : UInt8) : b.toNat < 256 := b.toNat_lt
  induction bs using encodeChars.induct with
  | case1 => exact List.forall_mem_nil _
  | case2 a =>
      have := hbyte a
      simp only [encodeChars, List.forall_mem_cons]
      exact ⟨hdigit (by omega), hdigit (by omega), hpad, hpad, List.forall_mem_nil _⟩
  | case3 a b =>
      have := hbyte a
      have := hbyte b
      simp only [encodeChars, List.forall_mem_cons]
      exact ⟨hdigit (by omega), hdigit (by omega), hdigit (by omega), hpad, List.forall_mem_nil _⟩
  | case4 a b c rest ih =>
      have := hbyte a
      have := hbyte b
      have := hbyte c
      simp only [encodeChars, List.forall_mem_cons]
      exact ⟨hdigit (by omega), hdigit (by omega), hdigit (by omega), hdigit (by omega), ih⟩

theorem isPlain_of_mem_encode {bs : Bytes} {c : Char} (h : c ∈ (encode bs).toList) :
    Text.IsPlain c := by
  rw [encode, String.toList_ofList] at h
  exact isPlain_of_mem_encodeChars bs c h

/-- Text in base 64 is read back as the bytes that it was written for.  Three bytes are read for
every four characters. -/
theorem decode?_encode (bs : Bytes) : decode? (encode bs).toList = some bs := by
  have hascii : (encode bs).toList.all (fun c => c.toNat < 128) = true :=
    List.all_eq_true.mpr fun c hc => decide_eq_true (isPlain_of_mem_encode hc).1
  rw [decode?, if_pos hascii, encode, String.toList_ofList, decodeFrom_encodeChars]

end Base64
end SignerHost
