import SignerHost.Proofs.Client.Operation

/-!
# Signatures of inputs

A fragment that signs an input is the index of the input, in any form of a compact size, and the
bytes of a signature up to the end.

* `SignsInput` says what a fragment has to be for an entry of the result.
* `readSignatures_eq_ok` says that the entries are those of the fragments, one by one.  The other
  two lemmas about `readSignatures` say which data an invalid result has.
-/

namespace SignerHost

open Step

/-! ## Signatures -/

namespace PartialSignature

variable {isSignature : Bytes → Bool}

/-- The bytes pass the check of the scheme.  What looks like a signature with integers is one.
It is not checked against any key. -/
def WellFormed (isSignature : Bytes → Bool) (s : PartialSignature) : Prop :=
  match s.scheme with
  | .ecdsa => isEcdsa isSignature s.bytes = true
  | .schnorr => isEcdsa isSignature s.bytes = false ∧ isSchnorr s.bytes = true

theorem ofBytes_eq_ok {bs : Bytes} {s : PartialSignature} :
    ofBytes isSignature bs = .ok s ↔ s.bytes = bs ∧ s.WellFormed isSignature := by
  obtain ⟨scheme, bytes⟩ := s
  have hcases : ofBytes isSignature bs = .ok ⟨scheme, bytes⟩ ↔
      (isEcdsa isSignature bs = true ∧ scheme = .ecdsa ∧ bytes = bs) ∨
        (isEcdsa isSignature bs = false ∧ isSchnorr bs = true ∧ scheme = .schnorr ∧
          bytes = bs) := by
    unfold ofBytes
    cases isEcdsa isSignature bs <;> cases isSchnorr bs <;> simp [eq_comm]
  rw [hcases, WellFormed]
  constructor
  · rintro (⟨hecdsa, rfl, rfl⟩ | ⟨hecdsa, hschnorr, rfl, rfl⟩)
    · exact ⟨rfl, hecdsa⟩
    · exact ⟨rfl, hecdsa, hschnorr⟩
  · rintro ⟨rfl, h⟩
    cases scheme with
    | ecdsa => exact .inl ⟨h, rfl, rfl⟩
    | schnorr => exact .inr ⟨h.1, h.2, rfl, rfl⟩

/-- No check accepts an empty signature. -/
theorem WellFormed.ne_nil {s : PartialSignature} (h : s.WellFormed isSignature) : s.bytes ≠ [] := by
  obtain ⟨scheme, bytes⟩ := s
  rintro rfl
  cases scheme with
  | ecdsa => exact absurd (show isEcdsa isSignature [] = true from h) (by simp [isEcdsa])
  | schnorr => exact absurd (show isSchnorr [] = true from h.2) (by decide)

end PartialSignature

/-- A fragment signs an input: it is the index, in any form, and the bytes of the signature.  The
number of the inputs bounds the index. -/
structure SignsInput (isSignature : Bytes → Bool) (inputCount : Nat) (fragment : Bytes)
    (entry : Nat × PartialSignature) : Prop where
  bound : entry.1 < inputCount
  parts : ∃ index, CompactSize.Form entry.1 index ∧ fragment = index ++ entry.2.bytes
  wellFormed : entry.2.WellFormed isSignature

namespace SignsInput

variable {isSignature : Bytes → Bool} {inputCount : Nat} {fragment : Bytes}
  {entry : Nat × PartialSignature}

theorem one_lt_length (h : SignsInput isSignature inputCount fragment entry) :
    1 < fragment.length := by
  obtain ⟨index, hform, rfl⟩ := h.parts
  have hindex := List.length_pos_iff.mpr hform.ne_nil
  have hbytes := List.length_pos_iff.mpr h.wellFormed.ne_nil
  rw [List.length_append]
  omega

/-- An index that is written and the bytes of a signature sign the input. -/
theorem of_write {index : Bytes} (hbound : entry.1 < inputCount)
    (hindex : CompactSize.write entry.1 = .ok index) (hformed : entry.2.WellFormed isSignature) :
    SignsInput isSignature inputCount (index ++ entry.2.bytes) entry where
  bound := hbound
  parts := by
    obtain ⟨hlt, rfl⟩ := CompactSize.write_ofNat_eq_ok.mp hindex
    exact ⟨_, CompactSize.form_encode hlt, rfl⟩
  wellFormed := hformed

end SignsInput

/-! ## Reading a fragment -/

section Reading

variable {isSignature : Bytes → Bool}

/-- What is read behind an index. -/
def readBehindIndex (isSignature : Bytes → Bool) (inputCount : Int) (index : Nat) :
    Reader (Nat × PartialSignature) := do
  if inputCount ≤ index then throw (.malformed (.inputIndex index))
  let signature ← MonadExcept.ofExcept (PartialSignature.ofBytes isSignature (← Reader.remaining))
  return (index, signature)

theorem readInputSignature_eq (inputCount : Int) :
    readInputSignature isSignature inputCount =
      CompactSize.read >>= readBehindIndex isSignature inputCount := rfl

theorem run_readBehindIndex_eq_ok {inputCount index : Nat} {bs rest : Bytes}
    {entry : Nat × PartialSignature} :
    (readBehindIndex isSignature inputCount index).run bs = .ok entry rest ↔
      (index < inputCount ∧ entry.1 = index ∧ entry.2.bytes = bs ∧
        entry.2.WellFormed isSignature) ∧ rest = [] := by
  unfold readBehindIndex
  by_cases hbound : index < inputCount
  · have hremaining : Reader.remaining.run bs = .ok bs [] := rfl
    rw [if_neg (by omega), run_bind_of_ok hremaining, run_bind_eq_ok]
    constructor
    · rintro ⟨signature, s, hread, h⟩
      obtain ⟨hbytes, rfl⟩ := run_ofExcept_eq_ok.mp hread
      cases h
      exact ⟨⟨hbound, rfl, PartialSignature.ofBytes_eq_ok.mp hbytes⟩, rfl⟩
    · rintro ⟨⟨-, rfl, hbytes⟩, rfl⟩
      exact ⟨entry.2, [], run_ofExcept_eq_ok.mpr ⟨PartialSignature.ofBytes_eq_ok.mpr hbytes, rfl⟩,
        rfl⟩
  · rw [if_pos (by omega), run_bind_of_error (run_throw _ _)]
    constructor
    · intro h
      cases h
    · -- An index that is too large is refused before the signature is looked at.
      rintro ⟨⟨h, -⟩, -⟩
      exact absurd h hbound

theorem run_readInputSignature_eq_ok {inputCount : Nat} {fragment rest : Bytes}
    {entry : Nat × PartialSignature} :
    (readInputSignature isSignature inputCount).run fragment = .ok entry rest ↔
      SignsInput isSignature inputCount fragment entry ∧ rest = [] := by
  rw [readInputSignature_eq, run_bind_eq_ok]
  constructor
  · rintro ⟨index, bs, hread, h⟩
    obtain ⟨⟨hbound, rfl, rfl, hformed⟩, rfl⟩ := run_readBehindIndex_eq_ok.mp h
    exact ⟨⟨hbound, CompactSize.run_read_eq_ok.mp hread, hformed⟩, rfl⟩
  · rintro ⟨h, rfl⟩
    exact ⟨entry.1, entry.2.bytes, CompactSize.run_read_eq_ok.mpr h.parts,
      run_readBehindIndex_eq_ok.mpr ⟨⟨h.bound, rfl, rfl, h.wellFormed⟩, rfl⟩⟩

end Reading

/-! ## Reading all fragments -/

namespace Client

variable {isSignature : Bytes → Bool} {command : Command} {inputCount : Nat}
  {fragments : List Bytes}

/-- The entry of one fragment. -/
def readEntry (isSignature : Bytes → Bool) (command : Command) (inputCount : Int)
    (fragment : Bytes) :
    Except Failure (Nat × PartialSignature) :=
  match readInputSignature isSignature inputCount fragment with
  | .ok signature _ => .ok signature
  | .error (.malformed cause) _ => .error (unexpected command fragment (.partialSignature cause))
  | .error failure _ => .error failure

theorem readSignatures_eq (isSignature : Bytes → Bool) (command : Command) (inputCount : Int)
    (fragments : List Bytes) :
    readSignatures isSignature command inputCount fragments =
      if fragments.any fun f => f.length ≤ 1 then
        .error (unexpected command fragments.flatten .fragment)
      else fragments.mapM (readEntry isSignature command inputCount) := rfl

theorem readEntry_eq_ok {fragment : Bytes} {entry : Nat × PartialSignature} :
    readEntry isSignature command inputCount fragment = .ok entry ↔
      SignsInput isSignature inputCount fragment entry := by
  have hread :
      (∃ rest, (readInputSignature isSignature inputCount).run fragment = .ok entry rest) ↔
      SignsInput isSignature inputCount fragment entry := by
    simp [run_readInputSignature_eq_ok]
  rw [← hread, readEntry]
  show _ ↔ ∃ rest, readInputSignature isSignature inputCount fragment = .ok entry rest
  split <;> simp_all

/-- A fragment that signs no input is the data of an invalid result. -/
theorem readEntry_of_unreadable (command : Command) {fragment : Bytes}
    (h : ¬ ∃ entry, SignsInput isSignature inputCount fragment entry) :
    ∃ cause, readEntry isSignature command inputCount fragment =
      .error (unexpected command fragment (.partialSignature cause)) := by
  cases hrun : (readInputSignature isSignature inputCount).run fragment with
  | ok entry rest => exact absurd ⟨entry, (run_readInputSignature_eq_ok.mp hrun).1⟩ h
  | error failure rest =>
      obtain ⟨cause, rfl⟩ := (ensures_readInputSignature _ inputCount).error hrun
      refine ⟨cause, ?_⟩
      rw [readEntry, show readInputSignature isSignature inputCount fragment = _ from hrun]

/-- One entry for each fragment, in order.  The order is that in which the device handed the
fragments over. -/
theorem readSignatures_eq_ok {entries : List (Nat × PartialSignature)} :
    readSignatures isSignature command inputCount fragments = .ok entries ↔
      List.Forall₂ (SignsInput isSignature inputCount) fragments entries := by
  have hentries : fragments.mapM (readEntry isSignature command inputCount) = .ok entries ↔
      List.Forall₂ (SignsInput isSignature inputCount) fragments entries := by
    rw [mapM_eq_ok]
    simp only [readEntry_eq_ok]
  rw [readSignatures_eq]
  split_ifs with hshort
  · refine ⟨fun h => (by cases h), fun h => ?_⟩
    -- Every fragment that has an entry is longer than that.
    have hlong : ∀ f ∈ fragments, 1 < f.length :=
      ((List.forall₂_and_left fragments entries).mp
        (h.imp fun _ _ hentry => ⟨hentry.one_lt_length, hentry⟩)).1
    obtain ⟨f, hf, hlength⟩ := List.any_eq_true.mp hshort
    exact absurd (of_decide_eq_true hlength) (Nat.not_le.mpr (hlong f hf))
  · exact hentries

/-- A short fragment makes the result an invalid one, with the data of all fragments. -/
theorem readSignatures_of_short (h : ∃ f ∈ fragments, f.length ≤ 1) :
    readSignatures isSignature command inputCount fragments =
      .error (unexpected command fragments.flatten .fragment) := by
  obtain ⟨f, hf, hlength⟩ := h
  rw [readSignatures_eq, if_pos (List.any_eq_true.mpr ⟨f, hf, decide_eq_true hlength⟩)]

/-- Otherwise the first fragment that signs no input does so, with its own data. -/
theorem readSignatures_of_unreadable (command : Command) {front rest : List Bytes}
    {fragment : Bytes}
    (hlong : ∀ f ∈ front ++ fragment :: rest, 1 < f.length)
    (hfront : ∀ f ∈ front, ∃ entry, SignsInput isSignature inputCount f entry)
    (hfragment : ¬ ∃ entry, SignsInput isSignature inputCount fragment entry) :
    ∃ cause, readSignatures isSignature command inputCount (front ++ fragment :: rest) =
      .error (unexpected command fragment (.partialSignature cause)) := by
  obtain ⟨cause, hcause⟩ := readEntry_of_unreadable command hfragment
  have hany : ¬ ((front ++ fragment :: rest).any fun f => decide (f.length ≤ 1)) = true := by
    rw [List.any_eq_true]
    rintro ⟨f, hf, hlength⟩
    exact absurd (of_decide_eq_true hlength) (Nat.not_le.mpr (hlong f hf))
  rw [readSignatures_eq, if_neg hany]
  refine ⟨cause, mapM_eq_error (fun f hf => ?_) hcause⟩
  obtain ⟨entry, hentry⟩ := hfront f hf
  exact ⟨entry, readEntry_eq_ok.mpr hentry⟩

end Client

end SignerHost
