import Mathlib.Data.List.GetD
import SignerHost.Proofs.Text.Replacement
import SignerHost.Proofs.Wallet.Policy

/-!
# Filling the placeholders of a template

A template is text with placeholders in it.  A descriptor should have each key at the places of its
placeholder, as if all of them were filled at once; it is made with one replacement for each key,
the last key first.  This comes to the same unless the digits in front of a key are read together
with it: in `@1@11`, the key 11 may complete `@1` to `@10`, and the key 10 is put in after it.

* `Template` has the placeholders of a text apart from the literals between them.
* `Confusable` tells the neighbours with which this can happen; they have nothing in between, and
  the key of the second one has to start with a digit.
* `fillFrom_of_clear` is the invariant: when the keys from a number on are in, the text is the
  template with these keys filled and all other placeholders in their places.
* `Fits.filled` says that all keys come to stand where they would be put at once, if those behind
  such neighbours start with something else than a digit.
-/

namespace SignerHost

open Text

/-- Whether the first character is a decimal digit. -/
def Text.startsWithDigit (text : List Char) : Bool := text.head?.any Char.isDigit

/-! ## Templates -/

/-- A placeholder with the literal behind it. -/
structure Template.Part where
  number : Nat
  literal : List Char
  plain : '@' ∉ literal
  apart : Text.startsWithDigit literal = false

/-- A literal, and then placeholders each with a literal behind it.  It is what a policy means by
its template, before any text is replaced. -/
structure Template where
  front : List Char
  plain : '@' ∉ front
  parts : List Template.Part

namespace Template

/-- The placeholder of a number, without the branch that may follow it. -/
def placeholder (i : Nat) : List Char := '@' :: Nat.toDigits 10 i

/-- The parts with a text in the place of each placeholder. -/
def fillParts (text : Nat → List Char) (parts : List Part) : List Char :=
  parts.flatMap fun part => text part.number ++ part.literal

/-- A text in the place of each placeholder, all of them at once. -/
def fill (t : Template) (text : Nat → List Char) : List Char := t.front ++ fillParts text t.parts

/-- The template as it is written. -/
def text (t : Template) : List Char := t.fill placeholder

end Template

/-- The key at a position; there is no text behind the last key. -/
def Policy.keyText (p : Policy) (i : Nat) : List Char := (p.keys.getD i "").toList

namespace Template

/-- The template is the one of the policy, every placeholder has a key, and no key has an `@`.
So the text of the policy can be read back as the template. -/
structure Fits (t : Template) (p : Policy) : Prop where
  text : p.template.toList = t.text
  number : ∀ part ∈ t.parts, part.number < p.keys.length
  plain : ∀ key ∈ p.keys, '@' ∉ key.toList

/-- Each key is in the places of its placeholder, and a branch and a wildcard are in place of each
`/**` of that text. -/
def Describes (t : Template) (key : Nat → List Char) (change : Bool)
    (descriptor : List Char) : Prop :=
  Replaced "/**".toList (if change then "/1/*" else "/0/*").toList (t.fill key) descriptor

/-- Nothing stands between the two placeholders, and the digits of the first one start those of
`k`, whose key is put in after the key of the second one and before the key of the first one. -/
def Confusable (k : Nat) (a b : Part) : Prop :=
  a.literal = [] ∧ a.number < k ∧ k < b.number ∧ Nat.toDigits 10 a.number <+: Nat.toDigits 10 k

/-- Behind each placeholder that may be taken for that of `k`, there is a key that starts with
something else than a digit. -/
def ClearAt (key : Nat → List Char) (k : Nat) (parts : List Part) : Prop :=
  ∀ a b, [a, b] <:+: parts → Confusable k a b →
    key b.number ≠ [] ∧ startsWithDigit (key b.number) = false

/-- With these keys no placeholder can be taken for another one.  This depends on the keys, in
contrast to `Unambiguous`. -/
def Separated (t : Template) (key : Nat → List Char) : Prop := ∀ k, ClearAt key k t.parts

/-- Some placeholder can be taken for that of `k`, depending on the keys. -/
def Confuses (t : Template) (k : Nat) : Prop :=
  ∃ a b, [a, b] <:+: t.parts ∧ Confusable k a b

/-- No placeholder can be taken for another one, whatever the keys are. -/
def Unambiguous (t : Template) : Prop := ∀ k, ¬ t.Confuses k

theorem mem_of_next {parts : List Part} {a b : Part} (hnext : [a, b] <:+: parts) : b ∈ parts :=
  hnext.subset (List.mem_cons_of_mem a List.mem_cons_self)

theorem clearAt_of_not_confuses {t : Template} {k : Nat} (h : ¬ t.Confuses k)
    (key : Nat → List Char) : ClearAt key k t.parts :=
  fun a b hnext hconfusable => absurd ⟨a, b, hnext, hconfusable⟩ h

theorem Unambiguous.separated {t : Template} (h : t.Unambiguous) (key : Nat → List Char) :
    t.Separated key := fun k => clearAt_of_not_confuses (h k) key

/-- Keys that start with something else than a digit are never read with a placeholder. -/
theorem separated_of_keys {t : Template} {key : Nat → List Char}
    (h : ∀ part ∈ t.parts,
      key part.number ≠ [] ∧ startsWithDigit (key part.number) = false) :
    t.Separated key := fun _ _ b hnext _ => h b (mem_of_next hnext)

/-! ## Digits -/

theorem length_toDigits_mono {i k : Nat} (h : i ≤ k) :
    (Nat.toDigits 10 i).length ≤ (Nat.toDigits 10 k).length :=
  (Nat.length_toDigits_le_iff (by decide) Nat.length_toDigits_pos).mpr
    (h.trans_lt ((Nat.length_toDigits_le_iff (by decide) Nat.length_toDigits_pos).mp le_rfl))

theorem toDigits_injective : Function.Injective (Nat.toDigits 10) := fun i k h => by
  rw [← Nat.ofDigitChars_ten_toDigits (n := i), h, Nat.ofDigitChars_ten_toDigits]

theorem not_mem_toDigits {x : Char} (h : x.isDigit = false) (i : Nat) : x ∉ Nat.toDigits 10 i :=
  fun hmem => Bool.false_ne_true
    (h.symm.trans (Nat.isDigit_of_mem_toDigits (by decide) (by decide) hmem))

/-- A larger number can only be read where the digits go on behind a smaller one. -/
theorem exists_more_digits {i k : Nat} (hik : i ≤ k) {rest : List Char}
    (h : Nat.toDigits 10 k <+: Nat.toDigits 10 i ++ rest) :
    ∃ more, Nat.toDigits 10 k = Nat.toDigits 10 i ++ more ∧ more <+: rest := by
  obtain ⟨more, hmore⟩ := List.prefix_of_prefix_length_le (List.prefix_append _ _) h
    (length_toDigits_mono hik)
  rw [← hmore] at h
  exact ⟨more, hmore.symm, (List.prefix_append_right_inj _).mp h⟩

theorem startsWithDigit_of_digits {i k : Nat} (hik : i < k) {more rest : List Char}
    (hmore : Nat.toDigits 10 k = Nat.toDigits 10 i ++ more) (hstarts : more <+: rest) :
    startsWithDigit rest = true := by
  obtain ⟨rest, rfl⟩ := hstarts
  cases more with
  | nil =>
      rw [List.append_nil] at hmore
      exact absurd (toDigits_injective hmore).symm hik.ne
  | cons c more =>
      refine Nat.isDigit_of_mem_toDigits (n := k) (b := 10) (by decide) (by decide) ?_
      rw [hmore]
      exact List.mem_append_right _ List.mem_cons_self

/-! ## One replacement -/

/-- The text at a placeholder when the keys from `k` on are in.  The keys go in from the last to
the first. -/
def stage (key : Nat → List Char) (k i : Nat) : List Char := if i < k then placeholder i else key i

section Stage

variable {key : Nat → List Char} {k : Nat} {part : Part} {parts : List Part} {x : Char}

theorem stage_below {i : Nat} (h : i < k) : stage key k i = placeholder i := if_pos h

theorem stage_above {i : Nat} (h : k ≤ i) : stage key k i = key i := if_neg (Nat.not_lt.mpr h)

theorem fillParts_cons (text : Nat → List Char) (part : Part) (parts : List Part) :
    fillParts text (part :: parts) =
      text part.number ++ (part.literal ++ fillParts text parts) := by
  rw [fillParts, List.flatMap_cons, List.append_assoc]
  rfl

/-- What stands behind a placeholder continues it with a digit only if a key behind it does. -/
theorem confusable_of_startsWithDigit (hnumber : part.number < k)
    (hstarts : Nat.toDigits 10 part.number <+: Nat.toDigits 10 k)
    (h : startsWithDigit (part.literal ++ fillParts (stage key (k + 1)) parts) = true) :
    ∃ next, [part, next] <:+: part :: parts ∧ Confusable k part next ∧
      (key next.number = [] ∨ startsWithDigit (key next.number) = true) := by
  -- Literal text never starts with a digit, so the digit comes from the next placeholder.
  have hliteral : part.literal = [] := by
    by_contra hne
    obtain ⟨c, literal, hcons⟩ := List.exists_cons_of_ne_nil hne
    have hapart := part.apart
    rw [hcons] at h hapart
    exact Bool.false_ne_true (hapart.symm.trans h)
  rw [hliteral, List.nil_append] at h
  cases parts with
  | nil => exact absurd h Bool.false_ne_true
  | cons next parts =>
      rw [fillParts_cons] at h
      have habove : k < next.number := by
        by_contra hle
        rw [stage_below (by omega)] at h
        exact Bool.false_ne_true h
      rw [stage_above habove] at h
      refine ⟨next, ⟨[], parts, rfl⟩, ⟨hliteral, hnumber, habove, hstarts⟩, ?_⟩
      cases hkey : key next.number with
      | nil => exact .inl rfl
      | cons c text =>
          rw [hkey] at h
          exact .inr h

/-- Putting in the key `k` fills its placeholders and leaves all others.  This is the step; the
filled template comes from it by induction on the keys. -/
theorem replaceAll_fillParts (hplain : ∀ i, '@' ∉ key i) (hclear : ClearAt key k parts) :
    replaceAll '@' (Nat.toDigits 10 k) (key k) (fillParts (stage key (k + 1)) parts) =
      fillParts (stage key k) parts := by
  induction parts with
  | nil => rfl
  | cons part parts ih =>
      have ih := ih fun a b hnext => hclear a b (List.infix_cons hnext)
      rw [fillParts_cons, fillParts_cons, ← ih, ← replaceAll_append part.plain]
      rcases lt_trichotomy part.number k with hlt | rfl | hgt
      · -- A smaller placeholder stays, because the digits of `k` could only end in a key behind it.
        rw [stage_below (by omega), stage_below hlt, placeholder, List.cons_append,
          replaceAll_miss, replaceAll_append (not_mem_toDigits rfl _), List.cons_append]
        intro hmatch
        obtain ⟨more, hmore, hrest⟩ :=
          exists_more_digits hlt.le (List.cons_prefix_cons.mp hmatch).2
        obtain ⟨next, hnext, hconfusable, hkey⟩ := confusable_of_startsWithDigit hlt
          ⟨more, hmore.symm⟩ (startsWithDigit_of_digits hlt hmore hrest)
        obtain ⟨hne, hother⟩ := hclear part next hnext hconfusable
        exact hkey.elim hne fun hdigit => Bool.false_ne_true (hother.symm.trans hdigit)
      · rw [stage_below (Nat.lt_succ_self _), stage_above le_rfl, placeholder, List.cons_append,
          replaceAll_hit]
      · -- The key of a larger one is in already, and no placeholder starts in it.
        rw [stage_above hgt, stage_above hgt.le, replaceAll_append (hplain _)]

theorem replaceAll_fill {t : Template} (hplain : ∀ i, '@' ∉ key i)
    (hclear : ClearAt key k t.parts) :
    replaceAll '@' (Nat.toDigits 10 k) (key k) (t.fill (stage key (k + 1))) =
      t.fill (stage key k) := by
  rw [fill, replaceAll_append t.plain, replaceAll_fillParts hplain hclear, fill]

theorem fill_congr {t : Template} {f g : Nat → List Char}
    (h : ∀ part ∈ t.parts, f part.number = g part.number) : t.fill f = t.fill g := by
  rw [fill, fill, fillParts, fillParts,
    List.flatMap_congr fun part hpart => by rw [h part hpart]]

end Stage

end Template

/-! ## One replacement after the other -/

namespace Policy

open Template

/-- The template with the keys from a number on put in, the last key first. -/
def fillFrom (p : Policy) (m : Nat) : List Char :=
  ((p.keys.drop m).zipIdx m).foldr (fun key text => fillPlaceholder text key) p.template.toList

variable {p : Policy}

theorem fillFrom_zero (p : Policy) : p.fillFrom 0 = p.filled := List.foldl_reverse.symm

theorem fillFrom_length (p : Policy) : p.fillFrom p.keys.length = p.template.toList := by
  rw [fillFrom, List.drop_length, List.zipIdx_nil, List.foldr_nil]

theorem fillFrom_succ {m : Nat} (hm : m < p.keys.length) :
    p.fillFrom m =
      replaceAll '@' (Nat.toDigits 10 m) (p.keyText m) (p.fillFrom (m + 1)) := by
  rw [fillFrom, List.drop_eq_getElem_cons hm, List.zipIdx_cons, List.foldr_cons, ← fillFrom,
    fillPlaceholder, keyText, List.getD_eq_getElem _ _ hm]

end Policy

namespace Template

variable {t : Template} {p : Policy}

theorem Fits.not_mem_keyText (h : t.Fits p) (i : Nat) : '@' ∉ p.keyText i := by
  rw [Policy.keyText]
  by_cases hi : i < p.keys.length
  · rw [List.getD_eq_getElem _ _ hi]
    exact h.plain _ (List.getElem_mem hi)
  · rw [List.getD_eq_default _ _ (Nat.not_lt.mp hi)]
    exact List.not_mem_nil

/-- With the keys from a number on put in, only their placeholders are filled. -/
theorem Fits.fillFrom_of_clear (h : t.Fits p) {m : Nat} (hm : m ≤ p.keys.length)
    (hclear : ∀ k, m ≤ k → ClearAt p.keyText k t.parts) :
    p.fillFrom m = t.fill (stage p.keyText m) := by
  induction hm using Nat.decreasingInduction with
  | self =>
      rw [p.fillFrom_length, h.text, Template.text]
      exact fill_congr fun part hpart => (stage_below (h.number part hpart)).symm
  | of_succ m hm ih =>
      rw [Policy.fillFrom_succ hm, ih fun k hk => hclear k (Nat.le_of_succ_le hk),
        replaceAll_fill h.not_mem_keyText (hclear m le_rfl)]

theorem Fits.filled (h : t.Fits p) (hseparated : t.Separated p.keyText) :
    p.filled = t.fill p.keyText := by
  rw [← p.fillFrom_zero, h.fillFrom_of_clear (Nat.zero_le _) fun k _ => hseparated k]
  exact fill_congr fun part _ => stage_above (Nat.zero_le _)

theorem describes_iff {key : Nat → List Char} {change : Bool} {descriptor : List Char} :
    t.Describes key change descriptor ↔ descriptor = Policy.fillBranch change (t.fill key) := by
  cases change <;> exact replaced_iff

end Template

end SignerHost
