import Mathlib.Data.List.Basic
import SignerHost.Text.Basic

/-!
# Replacing a pattern from left to right

`Replaced` says what it means that every occurrence of a pattern is replaced from left to right:
an occurrence is taken as soon as it starts, and reading goes on behind it.  A pattern with a first
character has exactly one such result (`replaced_iff`), the one that `replaceAll` computes.

* Text without the first character of the pattern passes unchanged (`replaceAll_append`), and so
  does text without the pattern in front of the first occurrence (`replaceAll_first`).
* A character that neither the pattern nor its replacement has is kept as often as it was there
  (`Replaced.count_eq`).
-/

namespace SignerHost

namespace Text

/-- The second text is the first one with every occurrence of the pattern replaced. -/
inductive Replaced (pattern replacement : List Char) : List Char → List Char → Prop
  | nil : Replaced pattern replacement [] []
  | hit {text result : List Char} (rest : Replaced pattern replacement text result) :
      Replaced pattern replacement (pattern ++ text) (replacement ++ result)
  | miss {c : Char} {text result : List Char} (noMatch : ¬ pattern <+: c :: text)
      (rest : Replaced pattern replacement text result) :
      Replaced pattern replacement (c :: text) (c :: result)

variable {p : Char} {ps replacement : List Char}

/-! ## One step of the replacement -/

theorem replaceFrom_eq_drop (skip : Nat) (cs : List Char) :
    replaceFrom p ps replacement skip cs = replaceAll p ps replacement (cs.drop skip) := by
  induction skip generalizing cs with
  | zero => rfl
  | succ skip ih =>
      cases cs with
      | nil => rfl
      | cons c cs => exact ih cs

theorem replaceAll_nil : replaceAll p ps replacement [] = [] := rfl

theorem replaceAll_hit (cs : List Char) :
    replaceAll p ps replacement (p :: (ps ++ cs)) =
      replacement ++ replaceAll p ps replacement cs := by
  have hmatch : p = p ∧ ps.isPrefixOf (ps ++ cs) = true :=
    ⟨rfl, List.isPrefixOf_iff_prefix.mpr (List.prefix_append ps cs)⟩
  rw [replaceAll, replaceFrom, if_pos hmatch, replaceFrom_eq_drop, List.drop_left]

theorem replaceAll_miss {c : Char} {cs : List Char} (h : ¬ p :: ps <+: c :: cs) :
    replaceAll p ps replacement (c :: cs) = c :: replaceAll p ps replacement cs := by
  have hmatch : ¬ (c = p ∧ ps.isPrefixOf cs = true) := fun ⟨hc, hstarts⟩ =>
    h (List.cons_prefix_cons.mpr ⟨hc.symm, List.isPrefixOf_iff_prefix.mp hstarts⟩)
  rw [replaceAll, replaceFrom, if_neg hmatch, replaceAll]

/-- Text in which the pattern cannot start passes unchanged. -/
theorem replaceAll_append {front : List Char} (h : p ∉ front) (cs : List Char) :
    replaceAll p ps replacement (front ++ cs) = front ++ replaceAll p ps replacement cs := by
  induction front with
  | nil => rfl
  | cons c front ih =>
      obtain ⟨hc, hfront⟩ := List.ne_and_not_mem_of_not_mem_cons h
      have hmiss : ¬ p :: ps <+: c :: (front ++ cs) := fun hstarts =>
        hc (List.cons_prefix_cons.mp hstarts).1
      rw [List.cons_append, replaceAll_miss hmiss, ih hfront, List.cons_append]

theorem replaceAll_of_not_mem {text : List Char} (h : p ∉ text) :
    replaceAll p ps replacement text = text := by
  calc replaceAll p ps replacement text = replaceAll p ps replacement (text ++ []) := by
        rw [List.append_nil]
    _ = text := by rw [replaceAll_append h, replaceAll_nil, List.append_nil]

/-- The first occurrence is replaced if the text in front has none: none can start in that text and
end behind it, because the pattern does not start again inside itself. -/
theorem replaceAll_first {front : List Char} (hp : p ∉ ps) (h : ¬ p :: ps <:+: front)
    (cs : List Char) :
    replaceAll p ps replacement (front ++ p :: (ps ++ cs)) =
      front ++ (replacement ++ replaceAll p ps replacement cs) := by
  induction front with
  | nil => exact replaceAll_hit cs
  | cons c front ih =>
      have hmiss : ¬ p :: ps <+: c :: (front ++ p :: (ps ++ cs)) := by
        intro hmatch
        obtain ⟨hc, hstarts⟩ := List.cons_prefix_cons.mp hmatch
        -- A match that starts here ends inside the front, or reaches the first character of the
        -- pattern.
        rcases List.prefix_or_prefix_of_prefix hstarts (List.prefix_append front _) with
          hshort | ⟨more, rfl⟩
        · exact h (List.cons_prefix_cons.mpr ⟨hc, hshort⟩).isInfix
        · cases more with
          | nil =>
              rw [hc, List.append_nil] at h
              exact h (List.infix_refl _)
          | cons x more =>
              have hfirst := List.cons_prefix_cons.mp ((List.prefix_append_right_inj _).mp hstarts)
              exact hp (by simp [hfirst.1])
      have hfront : ¬ p :: ps <:+: front := fun hinfix => h (List.infix_cons hinfix)
      rw [List.cons_append, replaceAll_miss hmiss, ih hfront, List.cons_append]

/-- In a list of parts, each with a separator in front and the pattern behind it, all patterns are
replaced. -/
theorem replaceAll_flatMap {separator : Char} {parts : List (List Char)} (hp : p ∉ ps)
    (hseparator : p ≠ separator) (h : ∀ part ∈ parts, ¬ p :: ps <:+: part) (rest : List Char) :
    replaceAll p ps replacement
        (parts.flatMap (fun part => separator :: (part ++ p :: ps)) ++ rest) =
      parts.flatMap (fun part => separator :: (part ++ replacement)) ++
        replaceAll p ps replacement rest := by
  induction parts with
  | nil => rfl
  | cons part parts ih =>
      obtain ⟨hpart, hparts⟩ := List.forall_mem_cons.mp h
      have hmiss : p ∉ [separator] := by simpa using hseparator
      let tail := parts.flatMap (fun part => separator :: (part ++ p :: ps)) ++ rest
      have hfront : (part :: parts).flatMap (fun part => separator :: (part ++ p :: ps)) ++ rest =
          [separator] ++ (part ++ p :: (ps ++ tail)) := by simp [tail]
      rw [hfront, replaceAll_append hmiss, replaceAll_first hp hpart, ih hparts]
      simp

/-! ## The result of a replacement -/

theorem replaced_replaceAll (cs : List Char) :
    Replaced (p :: ps) replacement cs (replaceAll p ps replacement cs) := by
  match cs with
  | [] => exact .nil
  | c :: cs =>
      by_cases hmatch : p :: ps <+: c :: cs
      · obtain ⟨rest, hrest⟩ := hmatch
        -- After a match the text is shorter by the whole pattern, so the recursion is on its
        -- length.
        have hshorter : rest.length < (c :: cs).length := by
          rw [← hrest, List.length_append, List.length_cons]
          omega
        rw [← hrest, List.cons_append, replaceAll_hit]
        exact .hit (replaced_replaceAll rest)
      · rw [replaceAll_miss hmatch]
        exact .miss hmatch (replaced_replaceAll cs)
termination_by cs.length
decreasing_by
  · exact hshorter
  · exact Nat.lt_succ_self _

/-- There is one result, and it is the computed one.  So whatever is proved of the relation holds
of the function, and the other way round. -/
theorem replaced_iff {cs result : List Char} :
    Replaced (p :: ps) replacement cs result ↔ result = replaceAll p ps replacement cs := by
  constructor
  · intro h
    induction h with
    | nil => exact replaceAll_nil.symm
    | hit _ ih => rw [List.cons_append, replaceAll_hit, ih]
    | miss noMatch _ ih => rw [replaceAll_miss noMatch, ih]
  · rintro rfl
    exact replaced_replaceAll cs

/-- What stands neither in the pattern nor in the replacement stays as often as it was. -/
theorem Replaced.count_eq {pattern text result : List Char} {x : Char}
    (h : Replaced pattern replacement text result) (hpattern : x ∉ pattern)
    (hreplacement : x ∉ replacement) : result.count x = text.count x := by
  induction h with
  | nil => rfl
  | hit _ ih =>
      rw [List.count_append, List.count_append, List.count_eq_zero_of_not_mem hpattern,
        List.count_eq_zero_of_not_mem hreplacement, ih]
  | miss _ _ ih => rw [List.count_cons, List.count_cons, ih]

end Text

end SignerHost
