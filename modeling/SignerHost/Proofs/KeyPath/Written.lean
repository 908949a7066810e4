import SignerHost.Proofs.KeyPath
import SignerHost.Proofs.Text.Ascii
import SignerHost.Proofs.Text.Decimal

/-!
# Written paths

A step is written in decimal, with any number of zeros in front, and with one of two markers behind
it if it is hardened.  A path is its steps between slashes, and an `m` may stand in front.

* `PathStep.readIndex` is what is read of a step once its marker was taken off, and
  `PathStep.parse_eq_ok` says which texts, in any script, are read as a step.
* `PathStep.parse_ascii_eq_ok` says that the texts in ASCII that are read as a step are those that
  write it; `KeyPath.parse_ascii_eq_ok` says so for paths.
* `KeyPath.parse_exact` is the same with the four bytes of each step in place of the steps.
-/

namespace SignerHost

open Step

/-! ## Parts between separators -/

namespace Text

theorem splitAt_eq_splitOn (sep : Char) (cs : List Char) : splitAt sep cs = cs.splitOn sep := by
  induction cs with
  | nil => rfl
  | cons c cs ih =>
      rw [splitAt, List.splitOn_cons_eq_if_modifyHead, ih]
      by_cases hsep : c = sep
      · simp [hsep]
      · rw [if_neg hsep, if_neg (by simpa using hsep)]
        cases hparts : cs.splitOn sep with
        | nil => exact absurd hparts (List.splitOn_ne_nil sep cs)
        | cons part parts => rfl

theorem splitAt_intercalate {sep : Char} {parts : List (List Char)}
    (hplain : ∀ part ∈ parts, sep ∉ part) (hne : parts ≠ []) :
    splitAt sep ([sep].intercalate parts) = parts := by
  rw [splitAt_eq_splitOn, List.splitOn_intercalate sep hplain hne]

theorem intercalate_splitAt (sep : Char) (cs : List Char) :
    [sep].intercalate (splitAt sep cs) = cs := by
  rw [splitAt_eq_splitOn, List.intercalate_splitOn]

theorem splitAt_ne_nil (sep : Char) (cs : List Char) : splitAt sep cs ≠ [] := by
  rw [splitAt_eq_splitOn]
  exact List.splitOn_ne_nil sep cs

/-- What holds of the separator holds of a joined text if it holds of the parts. -/
theorem forall_mem_intercalate {P : Char → Prop} {sep : Char} (hsep : P sep)
    {parts : List (List Char)} :
    (∀ c ∈ [sep].intercalate parts, P c) ↔ ∀ part ∈ parts, ∀ c ∈ part, P c := by
  induction parts with
  | nil => simp
  | cons part parts ih =>
      cases parts with
      | nil => simp
      | cons next parts =>
          rw [List.intercalate_cons_cons, List.forall_mem_cons, ← ih]
          simp [or_imp, forall_and, hsep]

end Text

/-! ## Steps -/

namespace PathStep

/-- A text that writes a step. -/
inductive Written : PathStep → List Char → Prop
  | plain {zeros index : Nat} (h : (Decimal.padded zeros index).length ≤ Decimal.maxDigits) :
      Written ⟨index, false⟩ (Decimal.padded zeros index)
  | hardened {zeros index : Nat} {marker : Char}
      (h : (Decimal.padded zeros index).length ≤ Decimal.maxDigits)
      (hmarker : marker = '\x27' ∨ marker = 'h') :
      Written ⟨index, true⟩ (Decimal.padded zeros index ++ [marker])

theorem isMarker_iff {c : Char} : isMarker c = true ↔ c = '\x27' ∨ c = 'h' := by
  simp [isMarker]

namespace Written

variable {s : PathStep} {cs : List Char}

theorem ne_nil (h : Written s cs) : cs ≠ [] := by
  cases h with
  | plain => exact Decimal.padded_ne_nil _ _
  | hardened => exact List.append_ne_nil_of_left_ne_nil (Decimal.padded_ne_nil _ _) _

theorem isDigit_or_isMarker (h : Written s cs) :
    ∀ c ∈ cs, c.isDigit = true ∨ isMarker c = true := by
  cases h with
  | plain => exact fun c hc => .inl (Decimal.isDigit_of_mem_padded hc)
  | hardened _ hmarker =>
      intro c hc
      rcases List.mem_append.mp hc with hdigit | hlast
      · exact .inl (Decimal.isDigit_of_mem_padded hdigit)
      · obtain rfl := List.mem_singleton.mp hlast
        exact .inr (isMarker_iff.mpr hmarker)

theorem not_mem (h : Written s cs) {c : Char} (hdigit : c.isDigit = false)
    (hmarker : isMarker c = false) : c ∉ cs := by
  intro hmem
  rcases h.isDigit_or_isMarker c hmem with htrue | htrue
  · exact absurd (hdigit.symm.trans htrue) (by decide)
  · exact absurd (hmarker.symm.trans htrue) (by decide)

end Written

/-- Reads the index of a step whose marker was taken off.  It fails where the text is no number,
or where the number is too large. -/
def readIndex (path : String) (hardened : Bool) (digits : List Char) : Except Failure PathStep := do
  if digits = [] ∨ ¬ digits.all Decimal.isDigit then throw (.input (.pathFormat path))
  let index ← Decimal.natural digits
  if hardenedBit ≤ index then throw (.input (.pathFormat path))
  return { index, hardened }

/-- A text has a marker behind its digits, or its last character is none. -/
theorem marked_or_not (cs : List Char) :
    (∃ digits marker, isMarker marker = true ∧ cs = digits ++ [marker]) ∨
      cs.getLast?.any isMarker = false := by
  rcases List.eq_nil_or_concat cs with rfl | ⟨digits, last, rfl⟩
  · exact .inr rfl
  · rw [List.concat_eq_append, List.getLast?_concat]
    cases hlast : isMarker last with
    | true => exact .inl ⟨digits, last, hlast, rfl⟩
    | false => exact .inr hlast

theorem parse_of_marked (path : String) {digits : List Char} {marker : Char}
    (h : isMarker marker = true) :
    parse path (digits ++ [marker]) = readIndex path true digits := by
  have hlast : (digits ++ [marker]).getLast?.any isMarker = true := by
    rw [List.getLast?_concat]
    exact h
  rw [parse, readIndex]
  simp only [hlast, if_true, List.dropLast_concat]

theorem parse_of_not_marked (path : String) {cs : List Char}
    (h : cs.getLast?.any isMarker = false) : parse path cs = readIndex path false cs := by
  rw [parse, readIndex]
  simp only [h, Bool.false_eq_true, if_false]

theorem readIndex_eq_ok {path : String} {hardened : Bool} {digits : List Char} {s : PathStep} :
    readIndex path hardened digits = .ok s ↔
      Decimal.natural digits = .ok s.index ∧ s.HasForm ∧ s.hardened = hardened := by
  unfold readIndex
  rw [guard_eq_ok, bind_eq_ok]
  constructor
  · rintro ⟨-, index, hindex, h⟩
    obtain ⟨hform, h⟩ := guard_eq_ok.mp h
    cases h
    exact ⟨hindex, Nat.not_le.mp hform, rfl⟩
  · rintro ⟨hindex, hform, rfl⟩
    have hnumeral := (Decimal.natural_eq_ok.mp hindex).1
    refine ⟨?_, s.index, hindex, guard_eq_ok.mpr ⟨Nat.not_le.mpr hform, rfl⟩⟩
    have hdigits : digits.all Decimal.isDigit = true := List.all_eq_true.mpr fun c hc => by
      rw [Decimal.isDigit, hnumeral.decimal c hc, Bool.true_or]
    simp [hnumeral.ne_nil, hdigits]

/-- A marker has no value, so a numeral does not end with one. -/
theorem not_marked_of_numeral {cs : List Char} (h : Decimal.Numeral cs) :
    cs.getLast?.any isMarker = false := by
  rcases marked_or_not cs with ⟨digits, marker, hmarker, rfl⟩ | hnot
  · have hvalue := h.decimal marker (List.mem_append_right _ List.mem_cons_self)
    rcases isMarker_iff.mp hmarker with rfl | rfl <;> cases hvalue
  · exact hnot

/-- A step is read from a numeral, or from a numeral with a marker behind it. -/
theorem parse_eq_ok {path : String} {cs : List Char} {s : PathStep} :
    parse path cs = .ok s ↔ s.HasForm ∧
      ((s.hardened = false ∧ Decimal.natural cs = .ok s.index) ∨
        (s.hardened = true ∧ ∃ digits marker, isMarker marker = true ∧ cs = digits ++ [marker] ∧
          Decimal.natural digits = .ok s.index)) := by
  constructor
  · intro h
    -- A marker at the end decides whether the step is hardened, whatever stands before it.
    rcases marked_or_not cs with ⟨digits, marker, hmarker, rfl⟩ | hnot
    · rw [parse_of_marked path hmarker, readIndex_eq_ok] at h
      exact ⟨h.2.1, .inr ⟨h.2.2, digits, marker, hmarker, rfl, h.1⟩⟩
    · rw [parse_of_not_marked path hnot, readIndex_eq_ok] at h
      exact ⟨h.2.1, .inl ⟨h.2.2, h.1⟩⟩
  · rintro ⟨hform, ⟨hplain, hindex⟩ | ⟨hhardened, digits, marker, hmarker, rfl, hindex⟩⟩
    · have hnot := not_marked_of_numeral (Decimal.natural_eq_ok.mp hindex).1
      rw [parse_of_not_marked path hnot]
      exact readIndex_eq_ok.mpr ⟨hindex, hform, hplain⟩
    · rw [parse_of_marked path hmarker]
      exact readIndex_eq_ok.mpr ⟨hindex, hform, hhardened⟩

theorem parse_ascii_eq_ok {path : String} {cs : List Char} {s : PathStep} :
    (∀ c ∈ cs, c.toNat < 128) ∧ parse path cs = .ok s ↔ s.HasForm ∧ Written s cs := by
  obtain ⟨index, hardened⟩ := s
  rw [parse_eq_ok]
  constructor
  · rintro ⟨hascii, hform, ⟨rfl, hindex⟩ | ⟨rfl, digits, marker, hmarker, rfl, hindex⟩⟩
    · obtain ⟨hlength, zeros, rfl⟩ := Decimal.natural_ascii_eq_ok.mp ⟨hascii, hindex⟩
      exact ⟨hform, .plain hlength⟩
    · have hdigits : ∀ c ∈ digits, c.toNat < 128 := fun c hc =>
        hascii c (List.mem_append_left _ hc)
      obtain ⟨hlength, zeros, rfl⟩ := Decimal.natural_ascii_eq_ok.mp ⟨hdigits, hindex⟩
      exact ⟨hform, .hardened hlength (isMarker_iff.mp hmarker)⟩
  · rintro ⟨hform, hwritten⟩
    refine ⟨fun c hc => ?_, hform, ?_⟩
    · rcases hwritten.isDigit_or_isMarker c hc with hdigit | hmarker
      · exact (Decimal.isDigit_iff.mp hdigit).2.trans_lt (by decide)
      · rcases isMarker_iff.mp hmarker with rfl | rfl <;> decide
    · cases hwritten with
      | plain hlength =>
          exact .inl ⟨rfl, (Decimal.natural_ascii_eq_ok.mpr ⟨hlength, _, rfl⟩).2⟩
      | hardened hlength hmarker =>
          exact .inr ⟨rfl, _, _, isMarker_iff.mpr hmarker, rfl,
            (Decimal.natural_ascii_eq_ok.mpr ⟨hlength, _, rfl⟩).2⟩

theorem parse_parts_eq_ok {path : String} {parts : List (List Char)} {steps : List PathStep} :
    (∀ part ∈ parts, ∀ c ∈ part, c.toNat < 128) ∧
        List.Forall₂ (fun part s => parse path part = .ok s) parts steps ↔
      (∀ s ∈ steps, s.HasForm) ∧ List.Forall₂ Written steps parts := by
  rw [← List.forall₂_and_left, ← List.forall₂_and_left]
  constructor
  · exact fun h => (h.imp fun _ _ => parse_ascii_eq_ok.mp).flip
  · exact fun h => (h.imp fun _ _ => parse_ascii_eq_ok.mpr).flip

end PathStep

/-! ## Paths -/

namespace KeyPath

/-- A text that writes a path: its steps between slashes, with or without an `m` in front. -/
def Written (steps : List PathStep) (path : String) : Prop :=
  ∃ parts, List.Forall₂ PathStep.Written steps parts ∧
    (path.toList = ['/'].intercalate parts ∨ path.toList = ['/'].intercalate (['m'] :: parts))

variable {path : String} {steps : List PathStep} {parts : List (List Char)}

theorem components_of_marked (h : Text.splitAt '/' path.toList = ['m'] :: parts) :
    components path = parts := by
  rw [components, h]
  rfl

theorem components_of_not_marked (h : Text.splitAt '/' path.toList = parts)
    (hhead : parts.head? ≠ some ['m']) : components path = parts := by
  rw [components, h]
  split
  · exact absurd rfl hhead
  · rfl

/-- The parts of a path are what stands between its slashes, or what stands behind an `m`.
Nothing else of a path is lost when it is taken apart. -/
theorem intercalate_components (path : String) :
    components path ≠ [] ∧ path.toList = ['/'].intercalate (components path) ∨
      path.toList = ['/'].intercalate (['m'] :: components path) := by
  have hjoin := Text.intercalate_splitAt '/' path.toList
  by_cases hmarked : ∃ rest, Text.splitAt '/' path.toList = ['m'] :: rest
  · obtain ⟨rest, hrest⟩ := hmarked
    rw [components_of_marked hrest, ← hrest]
    exact .inr hjoin.symm
  · have hhead : (Text.splitAt '/' path.toList).head? ≠ some ['m'] := fun h =>
      hmarked ((List.head?_eq_some_iff).mp h)
    rw [components_of_not_marked rfl hhead]
    exact .inl ⟨Text.splitAt_ne_nil _ _, hjoin.symm⟩

/-- A path is in ASCII if its parts are. -/
theorem ascii_iff_components :
    Text.IsAscii path ↔ ∀ part ∈ components path, ∀ c ∈ part, c.toNat < 128 := by
  rw [Text.IsAscii]
  rcases intercalate_components path with ⟨-, hjoin⟩ | hjoin
  · rw [hjoin, Text.forall_mem_intercalate (by decide)]
  · rw [hjoin, Text.forall_mem_intercalate (by decide), List.forall_mem_cons]
    exact and_iff_right (List.forall_mem_singleton.mpr (by decide))

/-- Whether a path has no steps. -/
def IsEmpty (path : String) : Prop := components path = [] ∨ components path = [[]]

theorem parse_of_isEmpty (h : IsEmpty path) : parse path = .ok [] := by
  rw [parse]
  exact if_pos h

theorem parse_of_not_isEmpty (h : ¬ IsEmpty path) :
    parse path =
      if maxSteps < (components path).length then .error (.input (.pathLength path))
      else (components path).mapM (PathStep.parse path) := by
  rw [parse]
  exact if_neg h

/-- A path is read from its parts, one step from each. -/
theorem parse_eq_ok (h : ¬ IsEmpty path) :
    parse path = .ok steps ↔ (components path).length ≤ maxSteps ∧
      List.Forall₂ (fun part s => PathStep.parse path part = .ok s) (components path) steps := by
  rw [parse_of_not_isEmpty h, ← mapM_eq_ok, ite_eq_ok]
  constructor
  · rintro (⟨-, hok⟩ | ⟨hlong, hok⟩)
    · cases hok
    · exact ⟨Nat.not_lt.mp hlong, hok⟩
  · rintro ⟨hlength, hok⟩
    exact .inr ⟨Nat.not_lt.mpr hlength, hok⟩

namespace Written

/-- No part of a written path has a slash in it or is an `m`. -/
theorem plain_parts (hparts : List.Forall₂ PathStep.Written steps parts) :
    ∀ part ∈ parts, '/' ∉ part ∧ part ≠ ['m'] ∧ part ≠ [] := by
  induction hparts with
  | nil => exact fun part hpart => by cases hpart
  | cons hfirst _ ih =>
      refine List.forall_mem_cons.mpr ⟨⟨hfirst.not_mem rfl rfl, ?_, hfirst.ne_nil⟩, ih⟩
      rintro rfl
      exact hfirst.not_mem (c := 'm') rfl rfl List.mem_cons_self

/-- The parts of a written path are the texts of its steps. -/
theorem components_cases (h : Written steps path) :
    steps = [] ∧ IsEmpty path ∨
      ¬ IsEmpty path ∧ List.Forall₂ PathStep.Written steps (components path) := by
  obtain ⟨parts, hparts, hpath⟩ := h
  have hplain := plain_parts hparts
  have hslash : ∀ part ∈ parts, '/' ∉ part := fun part hpart => (hplain part hpart).1
  -- Without components there is nothing behind the root, which has two spellings.
  by_cases hnil : parts = []
  · obtain rfl := hnil
    obtain rfl := List.forall₂_nil_right_iff.mp hparts
    refine .inl ⟨rfl, ?_⟩
    rcases hpath with hpath | hpath
    · exact .inr (by rw [components, hpath]; rfl)
    · exact .inl (by rw [components, hpath]; rfl)
  · have hcomponents : components path = parts := by
      rcases hpath with hpath | hpath
      · refine components_of_not_marked ?_ fun hhead => ?_
        · rw [hpath, Text.splitAt_intercalate hslash hnil]
        · exact (hplain _ (List.mem_of_head? hhead)).2.1 rfl
      · refine components_of_marked ?_
        rw [hpath, Text.splitAt_intercalate (List.forall_mem_cons.mpr ⟨by decide, hslash⟩)
          (List.cons_ne_nil _ _)]
    rw [IsEmpty, hcomponents]
    refine .inr ⟨?_, hparts⟩
    rintro (h | h)
    · exact hnil h
    · exact (hplain [] (h ▸ List.mem_cons_self)).2.2 rfl

end Written

/-- The texts that write the path without steps are those that have none, and one more. -/
theorem written_iff_of_isEmpty (h : IsEmpty path) :
    Written steps path ∨ steps = [] ∧ path = "m/" ↔ steps = [] := by
  constructor
  · rintro (hwritten | ⟨rfl, -⟩)
    · exact (hwritten.components_cases.resolve_right fun hparts => hparts.1 h).1
    · rfl
  · rintro rfl
    rcases intercalate_components path with ⟨hne, hjoin⟩ | hjoin
    · rw [h.resolve_left hne] at hjoin
      exact .inl ⟨[], .nil, .inl hjoin⟩
    · rcases h with hnone | hblank
      · rw [hnone] at hjoin
        exact .inl ⟨[], .nil, .inr hjoin⟩
      · rw [hblank] at hjoin
        exact .inr ⟨rfl, String.toList_inj.mp hjoin⟩

theorem written_iff_of_not_isEmpty (h : ¬ IsEmpty path) :
    Written steps path ∨ steps = [] ∧ path = "m/" ↔
      List.Forall₂ PathStep.Written steps (components path) := by
  constructor
  · rintro (hwritten | ⟨-, rfl⟩)
    · exact (hwritten.components_cases.resolve_left fun hempty => h hempty.2).2
    · exact absurd (.inr rfl) h
  · exact fun hparts => .inl ⟨_, hparts, (intercalate_components path).imp_left And.right⟩

theorem ascii_of_isEmpty (h : IsEmpty path) : Text.IsAscii path := by
  rw [ascii_iff_components]
  intro part hpart
  rcases h with h | h
  · rw [h] at hpart
    cases hpart
  · rw [h, List.mem_singleton] at hpart
    simp [hpart]

/-- The texts in ASCII that are read as a path are those that write it, and one more for the path
without steps. -/
theorem parse_ascii_eq_ok :
    Text.IsAscii path ∧ parse path = .ok steps ↔
      steps.length ≤ maxSteps ∧ (∀ s ∈ steps, s.HasForm) ∧
        (Written steps path ∨ steps = [] ∧ path = "m/") := by
  by_cases hempty : IsEmpty path
  · rw [parse_of_isEmpty hempty, written_iff_of_isEmpty hempty]
    constructor
    · rintro ⟨-, hok⟩
      cases hok
      exact ⟨Nat.zero_le _, by simp, rfl⟩
    · rintro ⟨-, -, rfl⟩
      exact ⟨ascii_of_isEmpty hempty, rfl⟩
  · rw [parse_eq_ok hempty, written_iff_of_not_isEmpty hempty, ascii_iff_components]
    constructor
    · rintro ⟨hascii, hlength, hrows⟩
      obtain ⟨hforms, hparts⟩ := PathStep.parse_parts_eq_ok.mp ⟨hascii, hrows⟩
      exact ⟨hrows.length_eq ▸ hlength, hforms, hparts⟩
    · rintro ⟨hlength, hforms, hparts⟩
      obtain ⟨hascii, hrows⟩ := PathStep.parse_parts_eq_ok.mpr ⟨hforms, hparts⟩
      exact ⟨hascii, hparts.length_eq ▸ hlength, hrows⟩

/-- A path in ASCII gives the numbers of its steps in four bytes each exactly if it is written with
at most ten steps whose indices leave the bit of hardened ones free. -/
theorem parse_exact {encoded : List Bytes} :
    Text.IsAscii path ∧ (parse path).map (List.map PathStep.encode) = .ok encoded ↔
      ∃ steps : List PathStep,
        steps.length ≤ 10 ∧ (∀ s ∈ steps, s.index < 2 ^ 31) ∧
          encoded = steps.map (fun s => Bytes.ofNatBE 4 (s.index + 2 ^ 31 * s.hardened.toNat)) ∧
          (Written steps path ∨ steps = [] ∧ path = "m/") := by
  -- Hardened indices are written with the highest bit set.
  have hencode : PathStep.encode =
      fun s => Bytes.ofNatBE 4 (s.index + 2 ^ 31 * s.hardened.toNat) := by
    funext s
    rw [PathStep.encode, PathStep.number]
    cases s.hardened <;> rfl
  rw [← hencode]
  constructor
  · rintro ⟨hascii, hok⟩
    cases hparse : parse path with
    | error e =>
        rw [hparse] at hok
        cases hok
    | ok steps =>
        rw [hparse] at hok
        cases hok
        obtain ⟨hlength, hforms, hwritten⟩ := parse_ascii_eq_ok.mp ⟨hascii, hparse⟩
        exact ⟨steps, hlength, hforms, rfl, hwritten⟩
  · rintro ⟨steps, hlength, hforms, rfl, hwritten⟩
    obtain ⟨hascii, hparse⟩ := parse_ascii_eq_ok.mpr ⟨hlength, hforms, hwritten⟩
    rw [hparse]
    exact ⟨hascii, rfl⟩

example : (parse "m/044'/0h/1").map (List.map PathStep.encode) =
    .ok [[0x80, 0x00, 0x00, 0x2c], [0x80, 0x00, 0x00, 0x00], [0x00, 0x00, 0x00, 0x01]] := by
  rfl

end KeyPath
end SignerHost
