import SignerHost.Proofs.Client.Operation
import SignerHost.Proofs.KeyPath.Written

/-!
# Paths that are refused

The check in front of the conversion of an index looks for digits only.  A digit without a decimal
value passes it, and so does a text of more digits than the conversion takes; then it is the
conversion that fails, and not the check.

* `Decimal.Valueless` are the texts that pass the check and are not converted.
* `KeyPath.parse_eq_malformed` says that a path fails in the conversion exactly if it is
  `Overlooked`: a part of it is such a text, behind parts that are read.
* `KeyPath.outcome_of_parse` adds that every other path is read or refused, and that the operations
  that are given a path fail as its reading does, before anything is sent.
-/

namespace SignerHost

open Step

/-! ## Digits without a value -/

namespace Decimal

/-- A text of digits that stands for no number.  It has a digit without a value, or too many
digits. -/
structure Valueless (cs : List Char) : Prop where
  ne_nil : cs ≠ []
  digits : ∀ c ∈ cs, isDigit c = true
  unread : (∃ c ∈ cs, value? c = none) ∨ maxDigits < cs.length

/-- A text of digits stands for a number or is valueless.  There is no third kind. -/
theorem valueless_iff_not_numeral {cs : List Char} (hne : cs ≠ [])
    (hdigits : ∀ c ∈ cs, isDigit c = true) : Valueless cs ↔ ¬ Numeral cs := by
  constructor
  · rintro h hnumeral
    rcases h.unread with ⟨c, hc, hnone⟩ | hlong
    · have hsome := hnumeral.decimal c hc
      rw [hnone] at hsome
      cases hsome
    · exact absurd hlong (Nat.not_lt.mpr hnumeral.length_le)
  · intro h
    refine ⟨hne, hdigits, ?_⟩
    by_contra hread
    rw [not_or, not_exists] at hread
    exact h ⟨hne, fun c hc => Option.isSome_iff_ne_none.mpr fun hnone => hread.1 c ⟨hc, hnone⟩,
      Nat.not_lt.mp hread.2⟩

end Decimal

/-! ## Steps -/

namespace PathStep

variable {path : String} {part digits : List Char} {hardened : Bool}

/-- A text that is not read as a step, and that the check does not refuse. -/
def Overlooked (part : List Char) : Prop :=
  Decimal.Valueless part ∨
    ∃ digits marker, isMarker marker = true ∧ part = digits ++ [marker] ∧ Decimal.Valueless digits

theorem readIndex_of_valueless (h : Decimal.Valueless digits) :
    ∃ cause, readIndex path hardened digits = .error (.malformed cause) := by
  have hcheck : ¬ (digits = [] ∨ ¬ digits.all Decimal.isDigit = true) := by
    rw [not_or, not_not]
    exact ⟨h.ne_nil, List.all_eq_true.mpr h.digits⟩
  obtain ⟨cause, hcause⟩ := Decimal.natural_of_not_numeral
    ((Decimal.valueless_iff_not_numeral h.ne_nil h.digits).mp h)
  refine ⟨cause, ?_⟩
  unfold readIndex
  rw [if_neg hcheck, hcause]
  rfl

theorem readIndex_of_not_valueless (h : ¬ Decimal.Valueless digits) :
    (∃ s, readIndex path hardened digits = .ok s) ∨
      readIndex path hardened digits = .error (.input (.pathFormat path)) := by
  unfold readIndex
  by_cases hcheck : digits = [] ∨ ¬ digits.all Decimal.isDigit = true
  · rw [if_pos hcheck]
    exact .inr rfl
  · rw [if_neg hcheck]
    rw [not_or, not_not] at hcheck
    have hnumeral : Decimal.Numeral digits := not_not.mp fun hnot =>
      h ((Decimal.valueless_iff_not_numeral hcheck.1 (List.all_eq_true.mp hcheck.2)).mpr hnot)
    rw [Decimal.natural_of_numeral hnumeral]
    by_cases hbound : hardenedBit ≤ Decimal.ofDigits (digits.filterMap Decimal.value?)
    · exact .inr (if_pos hbound)
    · exact .inl ⟨_, if_neg hbound⟩

/-- What has a marker at its end is overlooked because of the text in front of the marker. -/
theorem overlooked_marked_iff {marker : Char} (hmarker : isMarker marker = true) :
    Overlooked (digits ++ [marker]) ↔ Decimal.Valueless digits := by
  constructor
  · rintro (h | ⟨digits', marker', -, heq, h⟩)
    · have hdigit := h.digits marker (List.mem_append_right _ List.mem_cons_self)
      rcases isMarker_iff.mp hmarker with rfl | rfl <;> cases hdigit
    · rw [List.append_inj_left' heq rfl]
      exact h
  · exact fun h => .inr ⟨digits, marker, hmarker, rfl, h⟩

theorem overlooked_not_marked_iff (h : part.getLast?.any isMarker = false) :
    Overlooked part ↔ Decimal.Valueless part := by
  constructor
  · rintro (hvalueless | ⟨digits, marker, hmarker, rfl, -⟩)
    · exact hvalueless
    · rw [List.getLast?_concat] at h
      exact absurd (h.symm.trans hmarker) (by decide)
  · exact .inl

theorem parse_of_overlooked (path : String) (h : Overlooked part) :
    ∃ cause, parse path part = .error (.malformed cause) := by
  rcases marked_or_not part with ⟨digits, marker, hmarker, rfl⟩ | hnot
  · rw [parse_of_marked path hmarker]
    exact readIndex_of_valueless ((overlooked_marked_iff hmarker).mp h)
  · rw [parse_of_not_marked path hnot]
    exact readIndex_of_valueless ((overlooked_not_marked_iff hnot).mp h)

theorem parse_of_not_overlooked (path : String) (h : ¬ Overlooked part) :
    (∃ s, parse path part = .ok s) ∨ parse path part = .error (.input (.pathFormat path)) := by
  rcases marked_or_not part with ⟨digits, marker, hmarker, rfl⟩ | hnot
  · rw [parse_of_marked path hmarker]
    exact readIndex_of_not_valueless fun hvalueless =>
      h ((overlooked_marked_iff hmarker).mpr hvalueless)
  · rw [parse_of_not_marked path hnot]
    exact readIndex_of_not_valueless fun hvalueless =>
      h ((overlooked_not_marked_iff hnot).mpr hvalueless)

theorem overlooked_iff :
    Overlooked part ↔ ∃ cause, parse path part = .error (.malformed cause) := by
  refine ⟨parse_of_overlooked path, fun ⟨cause, hcause⟩ => not_not.mp fun hnot => ?_⟩
  rcases parse_of_not_overlooked path hnot with ⟨s, hs⟩ | hformat
  · rw [hs] at hcause
    cases hcause
  · rw [hformat] at hcause
    cases hcause

end PathStep

/-! ## Paths -/

namespace KeyPath

variable {path : String}

/-- A path that is not read, and that the checks do not refuse: it is not too long, and the first
of its parts that is not read is overlooked. -/
def Overlooked (path : String) : Prop :=
  (components path).length ≤ maxSteps ∧
    ∃ front part rest, components path = front ++ part :: rest ∧
      (∀ earlier ∈ front, ∃ s, PathStep.parse path earlier = .ok s) ∧ PathStep.Overlooked part

theorem not_overlooked_of_isEmpty (h : IsEmpty path) : ¬ Overlooked path := by
  rintro ⟨-, front, part, rest, hparts, -, hpart⟩
  have hmem : part ∈ components path := by
    rw [hparts]
    exact List.mem_append_right _ List.mem_cons_self
  rcases h with hnone | hblank
  · rw [hnone] at hmem
    cases hmem
  · rw [hblank, List.mem_singleton] at hmem
    -- The text without a character is no text of digits.
    subst hmem
    rcases hpart with h | ⟨digits, marker, -, hnil, -⟩
    · exact h.ne_nil rfl
    · exact absurd hnil.symm (List.append_ne_nil_of_right_ne_nil _ (List.cons_ne_nil _ _))

/-- A path fails in the conversion of an index exactly if it is overlooked.  No other reason lets
the reading of a path end in this failure. -/
theorem parse_eq_malformed :
    Overlooked path ↔ ∃ cause, parse path = .error (.malformed cause) := by
  -- The length is checked before any component is read, so a long path overlooks nothing.
  by_cases hempty : IsEmpty path
  · rw [parse_of_isEmpty hempty]
    exact iff_of_false (not_overlooked_of_isEmpty hempty) fun ⟨_, h⟩ => by cases h
  · rw [parse_of_not_isEmpty hempty]
    by_cases hlong : maxSteps < (components path).length
    · rw [if_pos hlong]
      exact iff_of_false (fun h => absurd h.1 (Nat.not_le.mpr hlong)) fun ⟨_, h⟩ => by cases h
    · rw [if_neg hlong]
      constructor
      · rintro ⟨-, front, part, rest, hparts, hfront, hpart⟩
        obtain ⟨cause, hcause⟩ := PathStep.parse_of_overlooked path hpart
        exact ⟨cause, mapM_eq_error_iff.mpr ⟨front, part, rest, hparts, hfront, hcause⟩⟩
      · rintro ⟨cause, h⟩
        obtain ⟨front, part, rest, hparts, hfront, hcause⟩ := mapM_eq_error_iff.mp h
        exact ⟨Nat.not_lt.mp hlong, front, part, rest, hparts, hfront,
          PathStep.overlooked_iff.mpr ⟨cause, hcause⟩⟩

/-- A path that is not overlooked is read, or refused as too long or for the form of a part. -/
theorem parse_of_not_overlooked (h : ¬ Overlooked path) :
    (∃ steps, parse path = .ok steps) ∨
      parse path = .error (.input (.pathLength path)) ∨
      parse path = .error (.input (.pathFormat path)) := by
  cases hparse : parse path with
  | ok steps => exact .inl ⟨steps, rfl⟩
  | error failure =>
      have hfailure := hparse
      rw [parse] at hfailure
      split_ifs at hfailure with hempty hlong
      · exact .inr (.inl hfailure.symm)
      · obtain ⟨part, -, hpart⟩ := exists_of_mapM_eq_error hfailure
        -- A later component may be overlooked.  It is the first failure that counts.
        by_cases hover : PathStep.Overlooked part
        · obtain ⟨cause, hcause⟩ := PathStep.parse_of_overlooked path hover
          obtain rfl := Except.error.inj (hpart.symm.trans hcause)
          exact absurd (parse_eq_malformed.mpr ⟨cause, hparse⟩) h
        · rcases PathStep.parse_of_not_overlooked path hover with ⟨s, hs⟩ | hformat
          · cases hpart.symm.trans hs
          · obtain rfl := Except.error.inj (hpart.symm.trans hformat)
            exact .inr (.inr rfl)

end KeyPath

/-! ## Operations on a path -/

namespace Client

variable {client : Client} {path : String} {failure : Failure}

theorem run_getExtendedPubkey_of_refused (h : KeyPath.parse path = .error failure) (display : Bool)
    (link : Link) : (client.getExtendedPubkey path display).run link = .error failure link := by
  have hcommand : Command.getExtendedPubkey path display = .error failure := by
    rw [Command.getExtendedPubkey, h]
    rfl
  rw [getExtendedPubkey, hcommand]
  rfl

theorem run_signMessage_of_refused (h : KeyPath.parse path = .error failure) (message : Bytes)
    (link : Link) : (client.signMessage message path).run link = .error failure link := by
  have hcommand (length : Int) (root : Bytes) :
      Command.signMessage length root path = .error failure := by
    rw [Command.signMessage, h]
    rfl
  obtain ⟨⟨root, responder⟩, hlearned⟩ :
      ∃ learned, prepared (Responder.addList (chunks message)) {} = .ok learned :=
    ⟨_, prepared_eq_ok.mpr (Responder.run_addList _ _)⟩
  rw [signMessage, prepare_eq, hlearned, run_bind_of_ok (run_ofExcept_ok _ link)]
  simp only [hcommand]
  rfl

end Client

namespace KeyPath

/-- A path that is not overlooked is read as at most ten steps of four bytes or blamed on the
caller, a path that is overlooked fails in the conversion of an index, and so do the operations. -/
theorem outcome_of_parse (path : String) :
    (¬ Overlooked path →
        (∃ steps, parse path = .ok steps ∧ steps.length ≤ 10 ∧
            ∀ bs ∈ steps.map PathStep.encode, bs.length = 4) ∨
          parse path = .error (.input (.pathLength path)) ∨
          parse path = .error (.input (.pathFormat path))) ∧
      (Overlooked path ↔ ∃ cause, parse path = .error (.malformed cause)) ∧
      ∀ failure, parse path = .error failure → ∀ (client : Client) (link : Link),
        (∀ display, (client.getExtendedPubkey path display).run link = .error failure link) ∧
          ∀ source, (client.sign source path).run link = .error failure link := by
  refine ⟨fun h => ?_, parse_eq_malformed, fun failure h client link =>
    ⟨fun display => Client.run_getExtendedPubkey_of_refused h display link,
      fun source => Client.run_signMessage_of_refused h source.content link⟩⟩
  refine (parse_of_not_overlooked h).imp_left ?_
  rintro ⟨steps, hsteps⟩
  refine ⟨steps, hsteps, length_le_of_parse hsteps, fun bs hbs => ?_⟩
  obtain ⟨s, -, rfl⟩ := List.mem_map.mp hbs
  exact Bytes.length_ofNatBE 4 s.number

/-- A superscript is a digit without a value. -/
theorem not_blamed_of_superscript :
    ¬ ((∃ steps, parse "m/²" = .ok steps) ∨ ∃ cause, parse "m/²" = .error (.input cause)) := by
  have hparse : parse "m/²" = .error (.malformed (.notDecimal "²")) := by decide
  rw [hparse]
  rintro (⟨steps, h⟩ | ⟨cause, h⟩) <;> cases h

end KeyPath
end SignerHost
