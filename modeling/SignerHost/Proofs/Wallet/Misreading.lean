import SignerHost.Proofs.Wallet.Placeholders

/-!
# When a placeholder is misread

The keys of a template are put in one after the other, so what stands behind a placeholder may be a
key already, and its digits are read with those of the placeholder.

* `count_replaceAll_fillParts` counts: putting in a key fills its placeholders and those misread.
* `exists_misread_of_confusable` gives keys, for every template with neighbours that can be misread,
  with which they are.
* `descriptor_exact` says for which templates and keys the descriptor has all keys in their places.
-/

namespace SignerHost

open Text

namespace Template

/-! ## The placeholders that are misread -/

/-- The number of smaller placeholders taken for that of `k` when its key is put in.  If it is
positive, the descriptor is not the one that was meant. -/
def misread (key : Nat → List Char) (k : Nat) : List Part → Nat
  | [] => 0
  | part :: parts =>
      let rest := part.literal ++ fillParts (stage key (k + 1)) parts
      let here := part.number < k ∧ Nat.toDigits 10 k <+: Nat.toDigits 10 part.number ++ rest
      (if here then 1 else 0) + misread key k parts

section Count

variable {key : Nat → List Char} {k : Nat} {x : Char}

theorem count_toDigits (hx : x.isDigit = false) (i : Nat) : (Nat.toDigits 10 i).count x = 0 :=
  List.count_eq_zero_of_not_mem (not_mem_toDigits hx i)

theorem count_placeholder (hx : x.isDigit = false) (hat : x ≠ '@') (i : Nat) :
    (placeholder i).count x = 0 := by
  rw [placeholder, List.count_cons_of_ne hat.symm, count_toDigits hx]

theorem count_fillParts_congr {f g : Nat → List Char} (h : ∀ i, (f i).count x = (g i).count x)
    (parts : List Part) : (fillParts f parts).count x = (fillParts g parts).count x := by
  induction parts with
  | nil => rfl
  | cons part parts ih =>
      rw [fillParts_cons, fillParts_cons, List.count_append, List.count_append, List.count_append,
        List.count_append, h, ih]

/-- A placeholder that is not behind `k` gives a new text if it is read as that of `k`. -/
theorem count_replaceAll_placeholder (hx : x.isDigit = false) (hat : x ≠ '@') {i : Nat}
    (hik : i ≤ k) (rest : List Char) :
    (replaceAll '@' (Nat.toDigits 10 k) [x] (placeholder i ++ rest)).count x =
      (if Nat.toDigits 10 k <+: Nat.toDigits 10 i ++ rest then 1 else 0) +
        (replaceAll '@' (Nat.toDigits 10 k) [x] rest).count x := by
  rw [placeholder, List.cons_append]
  split
  · next hmatch =>
      obtain ⟨more, hmore, rest, rfl⟩ := exists_more_digits hik hmatch
      have hmem : ∀ c ∈ more, c ∈ Nat.toDigits 10 k := fun c hc => by
        rw [hmore]
        exact List.mem_append_right _ hc
      have hplain : '@' ∉ more := fun hc => not_mem_toDigits rfl k (hmem _ hc)
      have hcount : more.count x = 0 :=
        List.count_eq_zero_of_not_mem fun hc => not_mem_toDigits hx k (hmem _ hc)
      rw [← List.append_assoc, ← hmore, replaceAll_hit, replaceAll_append hplain,
        List.count_append, List.count_append, List.count_singleton_self, hcount, Nat.zero_add]
  · next hmatch =>
      have hmiss : ¬ '@' :: Nat.toDigits 10 k <+: '@' :: (Nat.toDigits 10 i ++ rest) := fun h =>
        hmatch (List.cons_prefix_cons.mp h).2
      rw [replaceAll_miss hmiss, replaceAll_append (not_mem_toDigits rfl _),
        List.count_cons_of_ne hat.symm, List.count_append, count_toDigits hx]

/-- Putting in a key that is one character: it stands where it should and where it is misread.
Counting this character therefore tells whether anything was misread. -/
theorem count_replaceAll_fillParts (hx : x.isDigit = false) (hat : x ≠ '@') (hkey : key k = [x])
    (hplain : ∀ i, '@' ∉ key i) (parts : List Part) :
    (replaceAll '@' (Nat.toDigits 10 k) [x] (fillParts (stage key (k + 1)) parts)).count x =
      (fillParts (stage key k) parts).count x + misread key k parts := by
  induction parts with
  | nil => rfl
  | cons part parts ih =>
      rw [fillParts_cons, fillParts_cons, List.count_append, List.count_append, misread]
      rcases lt_trichotomy part.number k with hlt | heq | hgt
      · rw [stage_below (by omega), stage_below hlt, count_replaceAll_placeholder hx hat hlt.le,
          count_placeholder hx hat, replaceAll_append part.plain, List.count_append, ih]
        simp only [hlt, true_and]
        omega
      · have hself : Nat.toDigits 10 k <+: Nat.toDigits 10 part.number ++
            (part.literal ++ fillParts (stage key (k + 1)) parts) := by
          rw [heq]
          exact List.prefix_append _ _
        rw [stage_below (by omega), stage_above heq.ge,
          count_replaceAll_placeholder hx hat heq.le, if_pos hself, heq, hkey,
          List.count_singleton_self, replaceAll_append part.plain, List.count_append, ih]
        simp only [lt_irrefl, false_and, if_false]
        omega
      · rw [stage_above hgt, stage_above hgt.le, replaceAll_append (hplain _),
          replaceAll_append part.plain, List.count_append, List.count_append, ih]
        simp only [hgt.not_gt, false_and, if_false]
        omega

/-- A placeholder is misread if the key behind it has the missing digits. -/
theorem misread_pos {parts : List Part} {a b : Part} (hnext : [a, b] <:+: parts)
    (hconfusable : Confusable k a b)
    (hdigits : Nat.toDigits 10 k = Nat.toDigits 10 a.number ++ key b.number) :
    0 < misread key k parts := by
  obtain ⟨before, behind, rfl⟩ := hnext
  obtain ⟨hliteral, hbelow, habove, -⟩ := hconfusable
  induction before with
  | nil =>
      have hmatch : Nat.toDigits 10 k <+: Nat.toDigits 10 a.number ++
          (a.literal ++ fillParts (stage key (k + 1)) (b :: behind)) := by
        rw [hliteral, List.nil_append, fillParts_cons, stage_above habove, ← List.append_assoc,
          ← hdigits]
        exact List.prefix_append _ _
      change 0 < misread key k (a :: b :: behind)
      rw [misread, if_pos ⟨hbelow, hmatch⟩]
      omega
  | cons part before ih =>
      change 0 < misread key k (part :: (before ++ [a, b] ++ behind))
      rw [misread]
      omega

end Count

end Template

/-! ## The text with all keys in it -/

namespace Policy

variable {p : Policy} {x : Char}

/-- Keys without a character keep it as often as it was. -/
theorem count_filled (hx : x.isDigit = false) (hat : x ≠ '@') {m : Nat} (hm : m ≤ p.keys.length)
    (hkey : ∀ i < m, x ∉ p.keyText i) : p.filled.count x = (p.fillFrom m).count x := by
  induction m with
  | zero => rw [p.fillFrom_zero]
  | succ m ih =>
      have hpattern : x ∉ '@' :: Nat.toDigits 10 m :=
        List.not_mem_cons_of_ne_of_not_mem hat (Template.not_mem_toDigits hx m)
      rw [ih (by omega) fun i hi => hkey i (by omega), fillFrom_succ hm,
        (replaced_replaceAll _).count_eq hpattern (hkey m (Nat.lt_succ_self m))]

theorem count_fillBranch (change : Bool) (text : List Char) :
    (fillBranch change text).count 'x' = text.count 'x' := by
  refine (replaced_replaceAll text).count_eq (by decide) ?_
  cases change <;> decide

end Policy

namespace Template

variable {t : Template} {p : Policy} {x : Char}

/-- If the key `k` is a character that no key before it has, it stands where it should and where a
placeholder was misread. -/
theorem Fits.count_filled (h : t.Fits p) (hx : x.isDigit = false) (hat : x ≠ '@') {k : Nat}
    (hk : k < p.keys.length) (hclear : ∀ m, k < m → ClearAt p.keyText m t.parts)
    (hkey : p.keyText k = [x]) (hbelow : ∀ i < k, x ∉ p.keyText i) :
    p.filled.count x = (t.fill p.keyText).count x + misread p.keyText k t.parts := by
  have hstage : ∀ i, (stage p.keyText k i).count x = (p.keyText i).count x := fun i => by
    rcases Nat.lt_or_ge i k with hi | hi
    · rw [stage_below hi, count_placeholder hx hat,
        List.count_eq_zero_of_not_mem (hbelow i hi)]
    · rw [stage_above hi]
  rw [Policy.count_filled hx hat hk.le hbelow, Policy.fillFrom_succ hk,
    h.fillFrom_of_clear hk hclear, fill, replaceAll_append t.plain, hkey, List.count_append,
    count_replaceAll_fillParts hx hat hkey h.not_mem_keyText, count_fillParts_congr hstage, fill,
    List.count_append, Nat.add_assoc]

theorem Confuses.lt {k n : Nat} (h : t.Confuses k)
    (hnumber : ∀ part ∈ t.parts, part.number < n) : k < n := by
  obtain ⟨a, b, hnext, -, -, hk, -⟩ := h
  exact hk.trans (hnumber b (mem_of_next hnext))

/-- Among the numbers whose placeholder can be read too early, there is a greatest one.  The key
with this number is the first one that goes wrong when the keys are put in. -/
theorem exists_greatest_confused {n : Nat} (h : ¬ t.Unambiguous)
    (hnumber : ∀ part ∈ t.parts, part.number < n) :
    ∃ k, t.Confuses k ∧ ∀ m, k < m → ¬ t.Confuses m := by
  classical
  obtain ⟨k, hk⟩ : ∃ k, t.Confuses k := not_forall_not.mp h
  refine ⟨_, Nat.findGreatest_spec (hk.lt hnumber).le hk, fun m hm hconfuses => ?_⟩
  exact Nat.findGreatest_is_greatest hm (hconfuses.lt hnumber).le hconfuses

end Template

/-! ## A policy with given keys -/

namespace Policy

open Template

/-- A policy without a name. -/
def ofTemplate (t : Template) (n : Nat) (key : Nat → List Char) : Policy where
  name := ""
  version := .v2
  template := String.ofList t.text
  keys := (List.range n).map fun i => String.ofList (key i)

variable {t : Template} {n : Nat} {key : Nat → List Char}

theorem length_keys_ofTemplate : (ofTemplate t n key).keys.length = n := by
  rw [ofTemplate, List.length_map, List.length_range]

theorem made_ofTemplate (hn : n ≤ maxKeys) : (ofTemplate t n key).Made :=
  made_iff_bounded.mpr ⟨rfl, ⟨[], rfl, Nat.zero_le _⟩, length_keys_ofTemplate.trans_le hn⟩

theorem keyText_ofTemplate {i : Nat} (hi : i < n) : (ofTemplate t n key).keyText i = key i := by
  have hlength : i < (ofTemplate t n key).keys.length := length_keys_ofTemplate ▸ hi
  rw [keyText, List.getD_eq_getElem _ _ hlength]
  simp [ofTemplate]

theorem fits_ofTemplate (hnumber : ∀ part ∈ t.parts, part.number < n)
    (hplain : ∀ i, '@' ∉ key i) : t.Fits (ofTemplate t n key) where
  text := String.toList_ofList
  number := by
    rw [length_keys_ofTemplate]
    exact hnumber
  plain := by
    intro text htext
    obtain ⟨i, -, rfl⟩ := List.mem_map.mp htext
    rw [String.toList_ofList]
    exact hplain i

end Policy

namespace Template

/-- One letter for the key that is misread, the missing digits for the key that it is misread with,
and nothing for all others. -/
def confusingKey (k next : Nat) (more : List Char) (i : Nat) : List Char :=
  if i = k then ['x'] else if i = next then more else []

section Keys

variable {k next : Nat} {more : List Char}

theorem confusingKey_self : confusingKey k next more k = ['x'] := if_pos rfl

theorem confusingKey_next (h : k < next) : confusingKey k next more next = more := by
  rw [confusingKey, if_neg h.ne', if_pos rfl]

theorem confusingKey_below {i : Nat} (hi : i < k) (h : k < next) :
    confusingKey k next more i = [] := by
  rw [confusingKey, if_neg hi.ne, if_neg (hi.trans h).ne]

theorem not_mem_confusingKey {c : Char} (hc : c ≠ 'x') (hmore : c ∉ more) (i : Nat) :
    c ∉ confusingKey k next more i := by
  unfold confusingKey
  split_ifs
  · exact fun hmem => hc (List.mem_singleton.mp hmem)
  · exact hmore
  · exact List.not_mem_nil

end Keys

variable {t : Template}

/-- For a template with neighbours that can be misread, there are keys with which they are: the
second one has the missing digits, and the key that is put in too often is a letter. -/
theorem exists_misread_of_confusable (h : ¬ t.Unambiguous) {n : Nat} (hn : n ≤ Policy.maxKeys)
    (hnumber : ∀ part ∈ t.parts, part.number < n) :
    ∃ p : Policy, p.Made ∧ p.keys.length = n ∧ t.Fits p ∧
      (t.fill p.keyText).count 'x' < p.filled.count 'x' := by
  obtain ⟨k, ⟨a, b, hnext, hconfusable⟩, hgreatest⟩ := exists_greatest_confused h hnumber
  have hb : b.number < n := hnumber b (mem_of_next hnext)
  have hkb : k < b.number := hconfusable.2.2.1
  obtain ⟨more, hmore⟩ := hconfusable.2.2.2
  let p := Policy.ofTemplate t n (confusingKey k b.number more)
  have hlength : p.keys.length = n := Policy.length_keys_ofTemplate
  have hfits : t.Fits p := Policy.fits_ofTemplate hnumber fun i =>
    not_mem_confusingKey (by decide) (fun hmem => not_mem_toDigits rfl k (hmore ▸
      List.mem_append_right _ hmem)) i
  have hkey : ∀ i < n, p.keyText i = confusingKey k b.number more i := fun i hi =>
    Policy.keyText_ofTemplate hi
  -- No placeholder is misread before the key `k` is put in, and none gives a letter afterwards.
  have hclear : ∀ m, k < m → ClearAt p.keyText m t.parts := fun m hm =>
    clearAt_of_not_confuses (hgreatest m hm) p.keyText
  have hbelow : ∀ i < k, 'x' ∉ p.keyText i := fun i hi => by
    rw [hkey i (by omega), confusingKey_below hi hkb]
    exact List.not_mem_nil
  have hat : p.keyText k = ['x'] := (hkey k (hkb.trans hb)).trans confusingKey_self
  have hdigits : Nat.toDigits 10 k = Nat.toDigits 10 a.number ++ p.keyText b.number := by
    rw [hkey _ hb, confusingKey_next hkb, hmore]
  refine ⟨p, Policy.made_ofTemplate hn, hlength, hfits, ?_⟩
  rw [hfits.count_filled rfl (by decide) (hlength ▸ hkb.trans hb) hclear hat hbelow]
  exact Nat.lt_add_of_pos_right (misread_pos hnext hconfusable hdigits)

/-- The descriptor has every key in its places if the keys are separated from the placeholders in
front of them, and only the templates in which they always are have it for all keys. -/
theorem descriptor_exact (t : Template) :
    (∀ p, t.Fits p → t.Separated p.keyText →
      ∀ change, t.Describes p.keyText change (p.descriptor change).toList) ∧
    (¬ t.Unambiguous → ∀ n ≤ Policy.maxKeys, (∀ part ∈ t.parts, part.number < n) →
      ∃ p : Policy, p.Made ∧ p.keys.length = n ∧ t.Fits p ∧
        ∀ change, ¬ t.Describes p.keyText change (p.descriptor change).toList) := by
  constructor
  · intro p hfits hseparated change
    rw [describes_iff, Policy.descriptor, String.toList_ofList, hfits.filled hseparated]
  · intro h n hn hnumber
    obtain ⟨p, hmade, hlength, hfits, hcount⟩ := exists_misread_of_confusable h hn hnumber
    refine ⟨p, hmade, hlength, hfits, fun change hdescribes => hcount.ne ?_⟩
    rw [describes_iff, Policy.descriptor, String.toList_ofList] at hdescribes
    rw [← Policy.count_fillBranch change p.filled, hdescribes, Policy.count_fillBranch]

/-- Keys with a bracket in front are not read with the placeholder that they follow. -/
theorem descriptor_exact_of_bracketed_keys :
    ∃ (p : Policy) (t : Template),
      Policy.make "" .v2 "tr(@1@11/**)"
        ["a", "b", "c", "d", "e", "f", "g", "h", "i", "j", "k", "[02]"] = .ok p ∧
      t.Fits p ∧ t.Separated p.keyText ∧
      t.Describes p.keyText true (p.descriptor true).toList ∧
      p.descriptor true = "tr(b[02]/1/*)" := by
  let p : Policy :=
    { name := "", version := .v2, template := "tr(@1@11/**)",
      keys := ["a", "b", "c", "d", "e", "f", "g", "h", "i", "j", "k", "[02]"] }
  let t : Template :=
    { front := "tr(".toList, plain := by decide,
      parts := [⟨1, [], by decide, rfl⟩, ⟨11, "/**)".toList, by decide, rfl⟩] }
  have hfits : t.Fits p := ⟨by decide, by decide, by decide⟩
  have hseparated : t.Separated p.keyText := separated_of_keys (by decide)
  have hdescriptor : p.descriptor true = "tr(b[02]/1/*)" := by decide
  exact ⟨p, t, rfl, hfits, hseparated, (descriptor_exact t).1 p hfits hseparated true, hdescriptor⟩

/-- The key 11 completes the placeholder `@1` in front of it to that of the key 10. -/
theorem not_describes_of_digits_in_key :
    ∃ (p : Policy) (t : Template),
      Policy.make "" .v2 "@1@11"
        ["a", "b", "c", "d", "e", "f", "g", "h", "i", "j", "k", "02"] = .ok p ∧
      t.Fits p ∧ t.fill p.keyText = "b02".toList ∧ p.descriptor false = "k2" ∧
      ¬ t.Describes p.keyText false (p.descriptor false).toList := by
  let p : Policy :=
    { name := "", version := .v2, template := "@1@11",
      keys := ["a", "b", "c", "d", "e", "f", "g", "h", "i", "j", "k", "02"] }
  let t : Template :=
    { front := [], plain := List.not_mem_nil,
      parts := [⟨1, [], by decide, rfl⟩, ⟨11, [], by decide, rfl⟩] }
  have hfill : t.fill p.keyText = "b02".toList := by decide
  have hdescriptor : p.descriptor false = "k2" := by decide
  refine ⟨p, t, rfl, ⟨by decide, by decide, by decide⟩, hfill, hdescriptor, ?_⟩
  rw [describes_iff, hfill, hdescriptor]
  decide

end Template

end SignerHost
