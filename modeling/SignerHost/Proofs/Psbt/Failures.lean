import SignerHost.Proofs.Psbt.Counts
import SignerHost.Proofs.Psbt.Unsigned

/-!
# How a transaction may fail to be registered

Data that is no partially signed transaction, or one that contradicts itself, is refused as such.
Other data fails in another way: data that ends where a count is due, a key by its abscissa of the
wrong length, a stated length that no data can have, and a number that does not fit into the bytes
in which the device gets it.

* `Psbt.NumbersFit` says which numbers fit; only a transaction whose numbers fit is registered.
* `PsbtSource.Blames` lists the failures, with what in the source each of them comes from.
* `PsbtSource.outcome_of_register` has both for any bytes and any text, and
  `PsbtSource.overflow_of_longVersion` has data that fails in another way.
-/

namespace SignerHost

open Step

/-! ## Numbers that fit -/

/-- The numbers of a transaction have the lengths in which they are written for the device.
Reading does not check them. -/
structure Psbt.NumbersFit (p : Psbt) : Prop where
  txVersion : Bytes.fits 4 (p.txVersion.getD defaultTxVersion) = true
  lockTime : ∀ n ∈ p.lockTime, Bytes.fits 4 n = true
  position : ∀ s ∈ p.inputs, ∀ n ∈ s.vout, Bytes.fits 4 n = true
  sequence : ∀ s ∈ p.inputs,
    Bytes.fits 4 (s.sequence.getD InputScope.finalSequence) = true
  amount : ∀ s ∈ p.outputs, ∀ n ∈ s.value, Bytes.fits 8 n = true

/-- How flattening may fail.  Integers in the fields are at fault only in a transaction that was
changed after it was read. -/
inductive Psbt.Unfit (p : Psbt) : Failure → Prop
  | invalid (cause : PsbtCause) : Unfit p (.psbt cause)
  | number (h : ¬ p.NumbersFit) : Unfit p .overflow
  | field (h : ¬ p.FieldsFit) : Unfit p .overflow
  | count {n : Nat} (hn : 2 ^ 64 ≤ n) (h : n = p.inputs.length ∨ n = p.outputs.length) :
      Unfit p (.malformed (.compactSizeBound n))

theorem failsOnly_fixedLE {P : Failure → Prop} {width : Nat} {n : Int}
    (h : Bytes.fits width n = false → P .overflow) : FailsOnly P (fixedLE width n) := by
  unfold fixedLE
  exact .ite (fun _ => .pure _) fun hfits => .error (h (by simpa using hfits))

theorem failsOnly_write {P : Failure → Prop} {n : Nat}
    (h : 2 ^ 64 ≤ n → P (.malformed (.compactSizeBound n))) :
    FailsOnly P (CompactSize.write n) := by
  by_cases hn : n < 2 ^ 64
  · rw [CompactSize.write_ofNat hn]
    exact .pure _
  · rcases CompactSize.write_ofNat_cases n with hwrite | hwrite
    · rw [hwrite]
      exact .pure _
    · rw [hwrite]
      exact .error (h (Nat.le_of_not_lt hn))

/-! ## How flattening fails -/

theorem failsOnly_ofWritten {P : Failure → Prop} (hinvalid : ∀ cause, P (.psbt cause))
    (pairs : List (Bytes × Bytes)) : FailsOnly P (ByteMap.ofWritten pairs) :=
  .foldlM (fun _ _ _ => .ite (fun _ => .error (hinvalid _)) fun _ => .pure _) _

theorem failsOnly_writeFields {P : Failure → Prop} {fits : Bool} {pairs : List (Bytes × Bytes)}
    (h : fits = false → P .overflow) : FailsOnly P (Scope.write fits pairs) := by
  unfold Scope.write
  exact .ite (fun _ => .pure _) fun hfits => .error (h (by simpa using hfits))

namespace InputScope

variable {P : Failure → Prop} (hinvalid : ∀ cause, P (.psbt cause))

include hinvalid

theorem failsOnly_unsigned (s : InputScope) (index : Int) : FailsOnly P (s.unsigned index) := by
  unfold unsigned
  split
  · exact .pure _
  · exact .error (hinvalid _)

theorem failsOnly_check {s : InputScope} (hfields : s.fits = false → P .overflow) (txid : Bytes)
    (vout : Int) : FailsOnly P (s.check txid vout) := by
  unfold check
  refine .guard (hinvalid _) fun _ => ?_
  split
  · next t ht =>
      refine .ite (fun hfits => .error (hfields ?_)) fun _ => ?_
      · rw [← Bool.not_eq_true, fits_iff, ht]
        exact fun h => hfits h.1
      · exact .guard (hinvalid _) fun _ => .guard (hinvalid _) fun _ => .pure _
  · exact .pure _

/-- Apart from contradictions only integers can be at fault: those in the fields, the position and
the sequence. -/
theorem failsOnly_flatten {s : InputScope} {declared : UnsignedInput}
    (hfields : s.fits = false → P .overflow)
    (hposition : Bytes.fits 4 declared.vout = false → P .overflow)
    (hsequence : Bytes.fits 4 declared.sequence = false → P .overflow) :
    FailsOnly P (s.flatten (some declared)) := by
  obtain ⟨txid, vout, sequence⟩ := declared
  cases txid with
  | none => exact .error (hinvalid _)
  | some txid =>
      refine (failsOnly_check hinvalid hfields txid vout).bind fun _ _ => ?_
      refine (failsOnly_writeFields hfields).bind fun pairs _ => ?_
      refine (failsOnly_ofWritten hinvalid pairs).bind fun m _ => ?_
      refine (failsOnly_fixedLE hposition).bind fun position _ => ?_
      exact (failsOnly_fixedLE hsequence).bind fun sequence _ => .pure _

end InputScope

namespace OutputScope

variable {P : Failure → Prop} (hinvalid : ∀ cause, P (.psbt cause))

include hinvalid

theorem failsOnly_unsigned (s : OutputScope) (index : Int) : FailsOnly P (s.unsigned index) := by
  unfold unsigned
  split
  · exact .pure _
  · exact .error (hinvalid _)

theorem failsOnly_check (s : OutputScope) (value : Int) (script : Bytes) :
    FailsOnly P (s.check value script) := by
  unfold check
  exact .guard (hinvalid _) fun _ => .guard (hinvalid _) fun _ => .pure _

/-- Apart from contradictions only integers can be at fault: those in the fields and the amount. -/
theorem failsOnly_flatten {s : OutputScope} {declared : UnsignedOutput}
    (hfields : s.fits = false → P .overflow)
    (hamount : Bytes.fits 8 declared.value = false → P .overflow) :
    FailsOnly P (s.flatten (some declared)) := by
  obtain ⟨value, script⟩ := declared
  cases script with
  | none => exact .error (hinvalid _)
  | some script =>
      refine (failsOnly_check hinvalid s value script).bind fun _ _ => ?_
      refine (failsOnly_writeFields hfields).bind fun pairs _ => ?_
      refine (failsOnly_ofWritten hinvalid pairs).bind fun m _ => ?_
      exact (failsOnly_fixedLE hamount).bind fun amount _ => .pure _

end OutputScope

theorem mem_of_elementAt {α : Type} {xs : List α} {i : Int} {x : α}
    (h : elementAt xs i = some x) : x ∈ xs := by
  unfold elementAt at h
  split_ifs at h
  exact List.mem_of_getElem? h

namespace Psbt

variable {p : Psbt}

theorem failsOnly_flattenGlobal (p : Psbt) : FailsOnly p.Unfit p.flattenGlobal := by
  unfold flattenGlobal
  refine .bind (failsOnly_writeFields fun hfits => .field fun h => ?_) fun xpubs _ => ?_
  · exact absurd h.xpubs (by simpa using hfits)
  refine .bind (failsOnly_fixedLE fun hfits => .number fun h => ?_) fun txVersion _ => ?_
  · rw [h.txVersion] at hfits
    cases hfits
  refine .bind ?_ fun lockTime _ => ?_
  · cases hlockTime : p.lockTime with
    | none => exact .pure _
    | some n =>
        refine .bind (failsOnly_fixedLE fun hfits => .number fun h => ?_) fun _ _ => .pure _
        rw [h.lockTime n hlockTime] at hfits
        cases hfits
  refine .bind (failsOnly_write fun hn => .count hn (.inl rfl)) fun inputs _ => ?_
  refine .bind (failsOnly_write fun hn => .count hn (.inr rfl)) fun outputs _ => ?_
  exact .foldlM (fun m pair _ => .ite (fun _ => .error (.invalid _)) fun _ => .pure _) _

theorem failsOnly_flattenInput {scope : InputScope × Nat} (hscope : scope.1 ∈ p.inputs) :
    FailsOnly p.Unfit (p.flattenInput scope) := by
  unfold flattenInput unsignedInput
  cases helement : elementAt p.inputs scope.2 with
  | none => exact .error (.invalid _)
  | some s =>
      have hs := mem_of_elementAt helement
      refine (s.failsOnly_unsigned .invalid _).bind fun declared hdeclared => ?_
      obtain ⟨txid, vout, -, hvout, rfl⟩ := InputScope.unsigned_eq_ok.mp hdeclared
      refine InputScope.failsOnly_flatten .invalid (fun hfits => .field fun h => ?_)
        (fun hfits => .number fun h => ?_) fun hfits => .number fun h => ?_
      · rw [h.inputs _ hscope] at hfits
        cases hfits
      · rw [h.position s hs vout hvout] at hfits
        cases hfits
      · rw [h.sequence s hs] at hfits
        cases hfits

theorem failsOnly_flattenOutput {scope : OutputScope × Nat} (hscope : scope.1 ∈ p.outputs) :
    FailsOnly p.Unfit (p.flattenOutput scope) := by
  unfold flattenOutput unsignedOutput
  cases helement : elementAt p.outputs scope.2 with
  | none => exact .error (.invalid _)
  | some s =>
      have hs := mem_of_elementAt helement
      refine (s.failsOnly_unsigned .invalid _).bind fun declared hdeclared => ?_
      obtain ⟨value, script, hvalue, -, rfl⟩ := OutputScope.unsigned_eq_ok.mp hdeclared
      refine OutputScope.failsOnly_flatten .invalid (fun hfits => .field fun h => ?_)
        fun hfits => .number fun h => ?_
      · rw [h.outputs _ hscope] at hfits
        cases hfits
      · rw [h.amount s hs value hvalue] at hfits
        cases hfits

theorem failsOnly_flatten (p : Psbt) : FailsOnly p.Unfit p.flatten := by
  unfold flatten
  refine .bind p.failsOnly_flattenGlobal fun globalMap _ => ?_
  refine .bind (.mapM fun scope hscope => failsOnly_flattenInput (List.fst_mem_of_mem_zipIdx hscope))
    fun inputs _ => ?_
  exact .bind (.mapM fun scope hscope =>
    failsOnly_flattenOutput (List.fst_mem_of_mem_zipIdx hscope)) fun outputs _ => .pure _

/-! ## What was flattened -/

/-- The map of a scope was flattened at the place of the scope. -/
theorem exists_of_mem_scopes {α β : Type} {flatten : α × Nat → Except Failure β} {scopes : List α}
    {ms : List β} (h : scopes.zipIdx.mapM flatten = .ok ms) {s : α} (hs : s ∈ scopes) :
    ∃ (i : Nat) (m : β), elementAt scopes i = some s ∧ flatten (s, i) = .ok m := by
  obtain ⟨hlength, hat⟩ := exists_of_mapM_zipIdx h
  obtain ⟨i, hi, rfl⟩ := List.getElem_of_mem hs
  exact ⟨i, ms[i], elementAt_ofNat hi, hat i hi (hlength ▸ hi)⟩

/-- Only a transaction whose numbers fit is flattened. -/
theorem numbersFit_of_flatten {f : Flattened} (h : p.flatten = .ok f) : p.NumbersFit := by
  obtain ⟨hglobal, hinputs, houtputs⟩ := flatten_eq_ok.mp h
  obtain ⟨-, -, ⟨txVersion, htxVersion, -⟩, hlockTime, -, -⟩ := find?_flattenGlobal hglobal
  -- Each number was written with its width on the way to the maps, so it fits there.
  have hinput : ∀ s ∈ p.inputs, (∀ n ∈ s.vout, Bytes.fits 4 n = true) ∧
      Bytes.fits 4 (s.sequence.getD InputScope.finalSequence) = true := by
    intro s hs
    obtain ⟨i, m, hplace, hm⟩ := exists_of_mem_scopes hinputs hs
    obtain ⟨declared, hdeclared, hm⟩ := flattenInput_eq_ok.mp hm
    rw [unsignedInput, hplace] at hdeclared
    obtain ⟨txid, vout, -, hvout, rfl⟩ := InputScope.unsigned_eq_ok.mp hdeclared
    obtain ⟨-, -, position, sequence, -, -, hposition, hsequence, -⟩ :=
      InputScope.exists_of_flatten hm
    refine ⟨fun n hn => ?_, (fixedLE_eq_ok.mp hsequence).1⟩
    cases hvout.symm.trans hn
    exact (fixedLE_eq_ok.mp hposition).1
  have houtput : ∀ s ∈ p.outputs, ∀ n ∈ s.value, Bytes.fits 8 n = true := by
    intro s hs n hn
    obtain ⟨i, m, hplace, hm⟩ := exists_of_mem_scopes houtputs hs
    obtain ⟨declared, hdeclared, hm⟩ := flattenOutput_eq_ok.mp hm
    rw [unsignedOutput, hplace] at hdeclared
    obtain ⟨value, script, hvalue, -, rfl⟩ := OutputScope.unsigned_eq_ok.mp hdeclared
    obtain ⟨-, -, amount, -, -, hamount, -⟩ := OutputScope.exists_of_flatten hm
    cases hvalue.symm.trans hn
    exact (fixedLE_eq_ok.mp hamount).1
  exact {
    txVersion := (fixedLE_eq_ok.mp htxVersion).1
    lockTime := fun n hn => by
      obtain ⟨bs, hbs, -⟩ := hlockTime n hn
      exact (fixedLE_eq_ok.mp hbs).1
    position := fun s hs => (hinput s hs).1
    sequence := fun s hs => (hinput s hs).2
    amount := houtput }

end Psbt

/-! ## How registering fails -/

theorem failsOnly_mapCommitment (m : ByteMap) :
    FailsOnly (fun failure => 2 ^ 64 ≤ m.size ∧ failure = .malformed (.compactSizeBound m.size))
      (mapCommitment m) :=
  (failsOnly_write fun hsize => ⟨hsize, rfl⟩).bind fun _ _ => .pure _

/-- Making maps known fails only for a map that has no count. -/
theorem Responder.ensures_addMap (m : ByteMap) :
    Ensures (addMap m) (fun _ => True) fun failure =>
      2 ^ 64 ≤ m.size ∧ failure = .malformed (.compactSizeBound m.size) where
  ok := fun _ => trivial
  error := by
    intro r r' failure hrun
    rw [run_addMap] at hrun
    cases hcommitment : mapCommitment m with
    | ok commitment =>
        rw [hcommitment] at hrun
        cases hrun
    | error failure' =>
        rw [hcommitment] at hrun
        cases hrun
        exact failsOnly_mapCommitment m _ hcommitment

theorem Flattened.ensures_register (f : Flattened) :
    Ensures f.register (fun _ => True) fun failure =>
      ∃ m ∈ f.maps, 2 ^ 64 ≤ m.size ∧ failure = .malformed (.compactSizeBound m.size) := by
  have hmap : ∀ m ∈ f.maps, Ensures (Responder.addMap m) (fun _ => True) fun failure =>
      ∃ m ∈ f.maps, 2 ^ 64 ≤ m.size ∧ failure = .malformed (.compactSizeBound m.size) :=
    fun m hm => (Responder.ensures_addMap m).mono (fun _ h => h) fun _ h => ⟨m, hm, h⟩
  have hlist {P : Failure → Prop} (elements : List Bytes) :
      Ensures (Responder.addList elements) (fun _ => True) P :=
    { ok := fun _ => trivial
      error := fun hrun => by
        rw [Responder.run_addList] at hrun
        cases hrun }
  have hinputs : ∀ m ∈ f.inputs, m ∈ f.maps :=
    fun m hm => List.mem_cons_of_mem _ (List.mem_append_left _ hm)
  have houtputs : ∀ m ∈ f.outputs, m ∈ f.maps :=
    fun m hm => List.mem_cons_of_mem _ (List.mem_append_right _ hm)
  -- The three kinds of maps are added one after the other, and lists cannot be refused.
  unfold register
  refine .bind (hmap _ List.mem_cons_self) fun globalMap _ => ?_
  refine .bind (.mapM fun m hm => hmap m (hinputs m hm)) fun inputs _ => ?_
  refine .bind (.mapM fun m hm => hmap m (houtputs m hm)) fun outputs _ => ?_
  exact .bind (hlist _) fun _ _ => .bind (hlist _) fun _ _ => .pure trivial

/-! ## From a source to commitments -/

namespace PsbtSource

/-- The bytes of a source, unless it was read before or is a text without bytes.  A source that
was read before may have been changed since, so it has no bytes. -/
def data? : PsbtSource → Option Bytes
  | .bytes bs => some bs
  | .text content => decodeText? (Text.strip content.toList)
  | .parsed _ => none

/-- Reads a source and makes the transaction known.  It is what signing does with a source,
without the wallet. -/
def register (source : PsbtSource) : Dialogue PsbtCommitments := do
  let p ← MonadExcept.ofExcept source.normalize
  p.register

/-- How a source may fail.  Every case but the first says what in the data causes the failure. -/
inductive Blames (source : PsbtSource) : Failure → Prop
  /-- The data is refused as no partially signed transaction, or as one that contradicts itself. -/
  | invalid (cause : PsbtCause) : Blames source (.psbt cause)
  /-- The data, or the value of a field in it, ends where a count or a length is due. -/
  | missingCompactSize {bs : Bytes} (h : source.normalize = .error .missingCompactSize)
      (hdata : source.data? = some bs)
      (hends : EndsBeforeCount Psbt.read bs ∨
        ∃ key value, StatesField bs key value ∧ EndsEarly key value) :
      Blames source .missingCompactSize
  /-- A field in the data has a key by its abscissa that has another length than 32. -/
  | xOnlyLength {bs key value : Bytes} (h : source.normalize = .error .xOnlyLength)
      (hdata : source.data? = some bs) (hfield : StatesField bs key value)
      (hmisfit : MisfitsKey key value) : Blames source .xOnlyLength
  /-- The data states a length that is no word. -/
  | length {bs : Bytes} {n : Nat} (h : source.normalize = .error .overflow)
      (hdata : source.data? = some bs) (hn : 2 ^ 63 ≤ n) (hstated : StatesNumber bs n) :
      Blames source .overflow
  /-- A number does not fit into the bytes in which the device gets it. -/
  | number {p : Psbt} (h : source.normalize = .ok p) (hnumber : ¬ p.NumbersFit) :
      Blames source .overflow
  /-- There is hardly less data than fields that can be counted. -/
  | count {bs : Bytes} {n : Nat} (hdata : source.data? = some bs) (hn : 2 ^ 64 ≤ n)
      (hbound : n ≤ bs.length + 12) : Blames source (.malformed (.compactSizeBound n))

theorem normalize_of_data {source : PsbtSource} {bs : Bytes} (h : source.data? = some bs) :
    source.normalize = Psbt.parse bs := by
  cases source with
  | bytes data =>
      cases h
      rfl
  | text content =>
      rw [normalize, show decodeText? (Text.strip content.toList) = some bs from h]
  | parsed p => cases h

theorem normalize_of_no_data {source : PsbtSource} (hsource : ∀ p, source ≠ .parsed p)
    (h : source.data? = none) : source.normalize = .error (.psbt .unreadable) := by
  cases source with
  | bytes data => cases h
  | text content =>
      rw [normalize, show decodeText? (Text.strip content.toList) = none from h]
  | parsed p => exact absurd rfl (hsource p)

/-- Reading fails for data that is no transaction, or for a count, a key or a length in it. -/
theorem blames_of_normalize {source : PsbtSource} (hsource : ∀ p, source ≠ .parsed p)
    {failure : Failure} (h : source.normalize = .error failure) : source.Blames failure := by
  -- A text that is not decoded has no data, and is refused as no transaction.
  cases hdata : source.data? with
  | none =>
      cases (normalize_of_no_data hsource hdata).symm.trans h
      exact .invalid _
  | some bs =>
      have hparse : Psbt.parse bs = .error failure := (normalize_of_data hdata).symm.trans h
      rcases Psbt.fault_of_parse hparse with rfl | ⟨rest, hread, hfault⟩
      · exact .invalid _
      cases hfault with
      | stop hstop =>
          cases hstop with
          | unreadable => exact .invalid _
          | missingCompactSize => exact .missingCompactSize h hdata (.inl hread)
          | overflow hn hstated => exact .length h hdata hn hstated
      | field hfield hfault =>
          cases hfault with
          | unreadable => exact .invalid _
          | missingCompactSize hends =>
              exact .missingCompactSize h hdata (.inr ⟨_, _, hfield, hends⟩)
          | xOnlyLength hmisfit => exact .xOnlyLength h hdata hfield hmisfit
          | overflow hn hstated =>
              exact .length h hdata hn (hstated.mono hfield.value_infix)

theorem data_of_normalize {source : PsbtSource} (hsource : ∀ p, source ≠ .parsed p) {p : Psbt}
    (h : source.normalize = .ok p) : ∃ bs, source.data? = some bs ∧ Psbt.parse bs = .ok p := by
  cases hdata : source.data? with
  | none => cases (normalize_of_no_data hsource hdata).symm.trans h
  | some bs => exact ⟨bs, rfl, (normalize_of_data hdata).symm.trans h⟩

/-- A transaction that was read is registered only if its numbers fit; otherwise its numbers or its
counts are at fault. -/
theorem ensures_register_of_parse {source : PsbtSource} {bs : Bytes} {p : Psbt}
    (hdata : source.data? = some bs) (hparse : Psbt.parse bs = .ok p) :
    Ensures p.register (fun _ => p.NumbersFit) source.Blames := by
  have hnormalize : source.normalize = .ok p := (normalize_of_data hdata).trans hparse
  have hcounts := Psbt.atMost_of_parse hparse
  refine .bind (Q := fun f => p.flatten = .ok f) (.ofExcept (fun _ h => h) ?_) fun f hflatten => ?_
  · intro failure hflatten
    -- Fields that were read can be written again, so only the numbers can be at fault.
    cases p.failsOnly_flatten failure hflatten with
    | invalid cause => exact .invalid cause
    | number h => exact .number hnormalize h
    | field h => exact absurd (Psbt.fieldsFit_of_parse hparse) h
    | count hn h =>
        have hinputs := hcounts.inputs
        have houtputs := hcounts.outputs
        exact .count hdata hn (by omega)
  · refine f.ensures_register.mono (fun _ _ => Psbt.numbersFit_of_flatten hflatten) ?_
    rintro failure ⟨m, hm, hsize, rfl⟩
    exact .count hdata hsize (Psbt.size_le_of_mem_maps hcounts hflatten hm)

/-- Any bytes and any text are registered only if all their numbers fit, or they fail for one of the
reasons that `Blames` lists, whatever the responder knows. -/
theorem outcome_of_register {source : PsbtSource} (hsource : ∀ p, source ≠ .parsed p) :
    Ensures source.register (fun _ => ∃ p, source.normalize = .ok p ∧ p.NumbersFit)
      source.Blames := by
  refine .bind (Q := fun p => source.normalize = .ok p)
    (.ofExcept (fun _ h => h) fun _ => blames_of_normalize hsource) fun p hp => ?_
  obtain ⟨bs, hdata, hparse⟩ := data_of_normalize hsource hp
  exact (ensures_register_of_parse hdata hparse).mono (fun _ hfit => ⟨p, hp, hfit⟩) fun _ h => h

theorem run_register_of_ok {source : PsbtSource} {p : Psbt} (h : source.normalize = .ok p)
    (r : Responder) : source.register.run r = p.register.run r := by
  rw [register, h]
  exact run_bind_of_ok (run_ofExcept_ok p r)

/-- A transaction of one input whose numbers fit is registered. -/
theorem outcome_of_register_of_one_input :
    (∀ p, PsbtSource.bytes (oneInputBytes []) ≠ .parsed p) ∧
      ∃ c r' p, (PsbtSource.bytes (oneInputBytes [])).register.run {} = .ok c r' ∧
        (PsbtSource.bytes (oneInputBytes [])).normalize = .ok p ∧ p.NumbersFit := by
  have hsource : ∀ p, PsbtSource.bytes (oneInputBytes []) ≠ .parsed p := by simp
  have hensures := outcome_of_register hsource
  obtain ⟨p, f, r', hp, -, -, hrun⟩ := exists_register_of_described
    (oneInputBytes []) oneInput.described (by decide +kernel)
  -- The bytes are no longer needed, and unfolding them is slow.
  generalize PsbtSource.bytes (oneInputBytes []) = source at *
  have hregister : source.register.run {} = .ok f.commitments r' :=
    (run_register_of_ok hp {}).trans hrun
  obtain ⟨q, hq, hfit⟩ := hensures.ok hregister
  exact ⟨hsource, _, r', q, hregister, hq, hfit⟩

/-- A transaction that cannot be read or flattened leaves the responder as it was. -/
theorem run_register_of_error {source : PsbtSource} {failure : Failure}
    (h : (source.normalize >>= Psbt.flatten).map (fun _ => ()) = .error failure) (r : Responder) :
    source.register.run r = .error failure r := by
  cases hnormalize : source.normalize with
  | error failure' =>
      rw [hnormalize] at h
      cases h
      rw [register, hnormalize]
      rfl
  | ok p =>
      rw [run_register_of_ok hnormalize, Psbt.register]
      rw [hnormalize] at h
      cases hflatten : p.flatten with
      | ok f =>
          rw [show (Except.ok p >>= Psbt.flatten) = .ok f from hflatten] at h
          cases h
      | error failure' =>
          rw [show (Except.ok p >>= Psbt.flatten) = .error failure' from hflatten] at h
          cases h
          rfl

/-- A transaction of version 2 without inputs and outputs, whose version number has five bytes. -/
def longVersion : PsbtSource :=
  .bytes [0x70, 0x73, 0x62, 0x74, 0xFF, 0x01, 0xFB, 0x04, 0x02, 0x00, 0x00, 0x00, 0x01, 0x04, 0x01,
    0x00, 0x01, 0x05, 0x01, 0x00, 0x01, 0x02, 0x05, 0x00, 0x00, 0x00, 0x00, 0x01, 0x00]

/-- Neither a transaction with a version number of five bytes nor data that ends after the magic is
refused as a transaction. -/
theorem overflow_of_longVersion :
    longVersion.register.run {} = .error .overflow {} ∧
      (PsbtSource.bytes Psbt.magic).register.run {} = .error .missingCompactSize {} ∧
      ∀ cause, Failure.overflow ≠ .psbt cause ∧ Failure.missingCompactSize ≠ .psbt cause :=
  ⟨run_register_of_error (by decide +kernel) {}, run_register_of_error (by decide +kernel) {},
    by simp⟩

end PsbtSource
end SignerHost
