import SignerHost.Proofs.Psbt.Parsing
import SignerHost.Proofs.Psbt.Places

/-!
# What reading a transaction blames

A byte string that is no partially signed transaction is refused as one, with three exceptions: a
count or a length may be missing altogether, a key by its abscissa may have another length than 32,
and a length may be stated that no byte string can have.  Each of them is due to something that
stands in the data.

* `FieldFault` lists the failures of a field by its key and its value, and `Fault` those of a whole
  transaction: either the data stops, or one of its fields is at fault.
* `Psbt.fault_of_parse` has the result for any bytes.
* `Psbt.fieldsFit_of_parse` says that all integers in the fields of what was read can be written
  again.
-/

namespace SignerHost

open Step

/-! ## Faults of fields -/

/-- A place in the data right behind a key.  The key has its length in front of it, in any form. -/
def Behind (data key s : Bytes) : Prop :=
  ∃ start, Within data start ∧ Wire.string.run start = .ok key s

/-- A field stands in the data: a key behind its length, and then a value behind its length. -/
def StatesField (data key value : Bytes) : Prop :=
  ∃ s rest, Behind data key s ∧ Wire.string.run s = .ok value rest

theorem StatesField.value_infix {data key value : Bytes} (h : StatesField data key value) :
    value <:+: data := by
  obtain ⟨s, rest, ⟨start, hstart, hkey⟩, hvalue⟩ := h
  have hs := (Parses.string.ok hstart hkey).1.isInfix.trans hstart
  exact (Parses.string.ok hs hvalue).2

/-- A reader takes all bytes, and then a count or a length is due. -/
def EndsBeforeCount {α : Type} (reader : Reader α) (bs : Bytes) : Prop :=
  reader.run bs = .error .missingCompactSize []

/-- The value of a field ends where a count or a length is due, in one of the structures that a
value can have: a transaction, a count, an output, a witness, or the origin of a key in leaves. -/
inductive EndsEarly : Bytes → Bytes → Prop
  | transaction {value : Bytes} (h : EndsBeforeCount Transaction.read value) :
      EndsEarly [0x00] value
  | count {key : Bytes} (hkey : key = [0x04] ∨ key = [0x05]) : EndsEarly key []
  | spent {value : Bytes} (h : EndsBeforeCount TxOutput.read value) : EndsEarly [0x01] value
  | witness {value : Bytes} (h : EndsBeforeCount Witness.read value) : EndsEarly [0x08] value
  | leafOrigin {kind : UInt8} {rest value : Bytes} (hkind : kind = 0x16 ∨ kind = 0x07)
      (h : EndsBeforeCount LeafOrigin.read value) : EndsEarly (kind :: rest) value

/-- A field has a key by its abscissa, in its own key or as its value, that has another length than
32. -/
inductive MisfitsKey : Bytes → Bytes → Prop
  | key {kind : UInt8} {rest value : Bytes} (hkind : kind = 0x16 ∨ kind = 0x07)
      (hlength : rest.length ≠ 32) : MisfitsKey (kind :: rest) value
  | value {kind : UInt8} {rest value : Bytes} (hkind : kind = 0x17 ∨ kind = 0x05)
      (hlength : value.length ≠ 32) : MisfitsKey (kind :: rest) value

/-- How a field may be at fault, given its key and its value.  Every case but the first says what
in the key or the value causes the failure. -/
inductive FieldFault (key value : Bytes) : Failure → Prop
  | unreadable : FieldFault key value (.psbt .unreadable)
  | missingCompactSize (h : EndsEarly key value) : FieldFault key value .missingCompactSize
  | xOnlyLength (h : MisfitsKey key value) : FieldFault key value .xOnlyLength
  | overflow {n : Nat} (hn : 2 ^ 63 ≤ n) (h : StatesNumber value n) :
      FieldFault key value .overflow

/-- How reading a transaction may fail, given what is left of the data: the data stops, or one of
its fields is at fault. -/
inductive Fault (data : Bytes) : Bytes → Failure → Prop
  | stop {rest : Bytes} {failure : Failure} (h : Stop data rest failure) : Fault data rest failure
  | field {rest key value : Bytes} {failure : Failure} (hfield : StatesField data key value)
      (h : FieldFault key value failure) : Fault data rest failure

/-- A reader of the fields of a transaction.  Whatever it fails with is a fault of the data. -/
abbrev Scans {α : Type} (data : Bytes) (x : Reader α) (Q : α → Prop) : Prop :=
  Parses (Fault data) (Within data) x Q

/-- A field whose key was read. -/
abbrev ScansField {α : Type} (data key : Bytes) (x : Reader α) (Q : α → Prop) : Prop :=
  Parses (Fault data) (Behind data key) x Q

/-! ## Fields of the maps -/

section Fields

variable {key value : Bytes}

/-- A result that is refused as no transaction, inside a field. -/
theorem Refuses.fieldFault {α : Type} {x : Except Failure α} (h : Refuses x) :
    FailsOnly (FieldFault key value) x := fun failure hfailure => by
  rw [h failure hfailure]
  exact .unreadable

/-- A value that is read to its end. -/
theorem Parses.failsOnly_whole {α : Type} {x : Reader α} {Q : α → Prop} (hx : Takes value x Q)
    (hends : EndsBeforeCount x value → EndsEarly key value) :
    FailsOnly (FieldFault key value) (Wire.whole x value) := by
  unfold Wire.whole
  cases hrun : x.run value with
  | ok a rest =>
      rw [show x value = _ from hrun]
      cases rest with
      | nil => exact .pure a
      | cons b rest => exact Refuses.refuse.fieldFault
  | error failure rest =>
      rw [show x value = _ from hrun]
      refine .error ?_
      cases hx.error (List.infix_refl value) hrun with
      | unreadable => exact .unreadable
      | missingCompactSize => exact .missingCompactSize (hends hrun)
      | overflow hn h => exact .overflow hn h

theorem Parses.of_whole {α : Type} {x : Reader α} {Q : α → Prop} (hx : Takes value x Q) {a : α}
    (h : Wire.whole x value = .ok a) : Q a :=
  (hx.ok (List.infix_refl value) (Wire.whole_eq_ok.mp h)).2

namespace Scope

variable {P : Failure → Prop} (hP : P (.psbt .unreadable))

include hP

theorem failsOnly_once {α : Type} {rest : Bytes} {old : Option α} {new : Except Failure α}
    (h : rest = [] → FailsOnly P new) : FailsOnly P (once rest old new) :=
  .ite (fun hc => (h hc.1).bind fun a _ => .pure (some a)) fun _ => .error hP

theorem failsOnly_addNew {κ ν : Type} [DecidableEq κ] {entries : List (κ × ν)}
    {key : Except Failure κ} {value : Except Failure ν} (hkey : FailsOnly P key)
    (hvalue : FailsOnly P value) : FailsOnly P (addNew entries key value) :=
  hkey.bind fun _ _ => .ite (fun _ => .error hP) fun _ => hvalue.bind fun _ _ => .pure _

omit hP

theorem refuses_publicKey (bs : Bytes) : Refuses (publicKey bs) := by
  unfold publicKey
  split
  · exact .pure _
  · exact .refuse

theorem failsOnly_xOnlyKey {bs : Bytes} (h : bs.length ≠ 32 → MisfitsKey key value) :
    FailsOnly (FieldFault key value) (xOnlyKey bs) := by
  unfold xOnlyKey
  refine .ite (fun hlength => .error (.xOnlyLength (h hlength))) fun _ => ?_
  split
  · exact .pure _
  · exact Refuses.refuse.fieldFault

theorem failsOnly_addLeafOrigin {kind : UInt8} (hkind : kind = 0x16 ∨ kind = 0x07)
    (entries : List (PublicKey × LeafOrigin)) (rest : Bytes) :
    FailsOnly (FieldFault (kind :: rest) value) (addLeafOrigin entries rest value) :=
  (failsOnly_xOnlyKey (.key hkind)).bind fun _ _ => .ite (fun _ => .pure _) fun _ =>
    (LeafOrigin.takes_read.failsOnly_whole (.leafOrigin hkind)).bind fun _ _ => .pure _

/-! ### Integers that are kept -/

theorem all_of_once {α : Type} {p : α → Bool} {rest : Bytes} {old result : Option α}
    {new : Except Failure α} (h : once rest old new = .ok result)
    (hnew : ∀ a, new = .ok a → p a = true) : result.all p = true := by
  rcases ite_eq_ok.mp h with ⟨-, h⟩ | ⟨-, h⟩
  · cases hvalue : new with
    | ok a =>
        rw [hvalue] at h
        cases h
        exact hnew a hvalue
    | error failure =>
        rw [hvalue] at h
        cases h
  · cases h

theorem all_of_addNew {κ ν : Type} [DecidableEq κ] {p : ν → Bool} {entries entries' : List (κ × ν)}
    {key : Except Failure κ} {value : Except Failure ν}
    (h : addNew entries key value = .ok entries') (hentries : entries.all (fun e => p e.2) = true)
    (hvalue : ∀ v, value = .ok v → p v = true) : entries'.all (fun e => p e.2) = true := by
  obtain ⟨k, -, h⟩ := bind_eq_ok.mp h
  rcases ite_eq_ok.mp h with ⟨-, h⟩ | ⟨-, h⟩
  · cases h
  · obtain ⟨v, hv, h⟩ := bind_eq_ok.mp h
    cases h
    simp [List.all_append, hentries, hvalue v hv]

theorem all_of_addLeafOrigin {entries entries' : List (PublicKey × LeafOrigin)} {rest : Bytes}
    (h : addLeafOrigin entries rest value = .ok entries')
    (hentries : entries.all (fun e => e.2.origin.fits) = true) :
    entries'.all (fun e => e.2.origin.fits) = true := by
  obtain ⟨k, -, h⟩ := bind_eq_ok.mp h
  rcases ite_eq_ok.mp h with ⟨-, h⟩ | ⟨-, h⟩
  · cases h
    exact hentries
  · obtain ⟨v, hv, h⟩ := bind_eq_ok.mp h
    cases h
    simp [List.all_append, hentries, LeafOrigin.takes_read.of_whole hv]

end Scope

namespace InputScope

theorem refuses_signatureHashOf (value : Bytes) : Refuses (signatureHashOf value) :=
  .ite (fun _ => .pure _) fun _ => Refuses.refuse

theorem fits_signatureHashOf {value : Bytes} {n : Int} (h : signatureHashOf value = .ok n) :
    Bytes.fits 4 n = true := by
  rcases ite_eq_ok.mp h with ⟨hlength, h⟩ | ⟨-, h⟩
  · cases h
    exact Bytes.fits_toNatLE hlength.le
  · cases h

/-- The abscissa is cut out of the key with its length. -/
theorem failsOnly_leafKey (rest : Bytes) : FailsOnly (FieldFault key value) (leafKey rest) := by
  unfold leafKey
  refine .ite (fun _ => Refuses.refuse.fieldFault) fun hlength => ?_
  have hkey : FailsOnly (FieldFault key value) (Scope.xOnlyKey (rest.take 32)) :=
    Scope.failsOnly_xOnlyKey fun hne => by
      rw [List.length_take] at hne
      omega
  exact hkey.bind fun _ _ => .pure _

/-- One case for each kind of field, in the order of the definition. -/
theorem failsOnly_set (s : InputScope) (kind : UInt8) (rest value : Bytes) :
    FailsOnly (FieldFault (kind :: rest) value) (s.set kind rest value) := by
  have hrefused : FieldFault (kind :: rest) value (.psbt .unreadable) := .unreadable
  have hplain : FailsOnly (FieldFault (kind :: rest) value) (.ok value : Except Failure Bytes) :=
    .pure value
  unfold set
  refine .ite (fun hkind => (Scope.failsOnly_once hrefused fun hrest =>
    TxOutput.takes_read.failsOnly_whole fun h => ?_).bind fun _ _ => .pure _) fun _ => ?_
  · rw [hkind, hrest]
    exact .spent h
  refine .ite (fun _ => (Scope.failsOnly_addNew hrefused
    (Scope.refuses_publicKey rest).fieldFault hplain).bind fun _ _ => .pure _) fun _ => ?_
  refine .ite (fun _ => (Scope.failsOnly_once hrefused fun _ =>
    (refuses_signatureHashOf value).fieldFault).bind fun _ _ => .pure _) fun _ => ?_
  iterate 2
    refine .ite (fun _ => (Scope.failsOnly_once hrefused fun _ => hplain).bind
      fun _ _ => .pure _) fun _ => ?_
  refine .ite (fun _ => (Scope.failsOnly_addNew hrefused (Scope.refuses_publicKey rest).fieldFault
    (KeyOrigin.refuses_ofBytes value).fieldFault).bind fun _ _ => .pure _) fun _ => ?_
  refine .ite (fun _ => (Scope.failsOnly_once hrefused fun _ => hplain).bind
    fun _ _ => .pure _) fun _ => ?_
  refine .ite (fun hkind => (Scope.failsOnly_once hrefused fun hrest =>
    Witness.takes_read.failsOnly_whole fun h => ?_).bind fun _ _ => .pure _) fun _ => ?_
  · rw [hkind, hrest]
    exact .witness h
  refine .ite (fun _ => (Scope.failsOnly_addNew hrefused (failsOnly_leafKey rest) hplain).bind
    fun _ _ => .pure _) fun _ => ?_
  refine .ite (fun _ => (Scope.failsOnly_addNew hrefused (.pure rest) hplain).bind
    fun _ _ => .pure _) fun _ => ?_
  refine .ite (fun hkind => (Scope.failsOnly_addLeafOrigin (.inl hkind) _ rest).bind
    fun _ _ => .pure _) fun _ => ?_
  refine .ite (fun hkind => (Scope.failsOnly_xOnlyKey (.value (.inl hkind))).bind
    fun _ _ => .pure _) fun _ => ?_
  -- The script root, the outpoint and the sequence are taken as they are.
  iterate 4 refine .ite (fun _ => .pure _) fun _ => ?_
  exact (Scope.failsOnly_addNew hrefused (.pure _) hplain).bind fun _ _ => .pure _

theorem fits_iff {s : InputScope} :
    s.fits = true ↔ s.previous.all Transaction.fits = true ∧ s.spent.all TxOutput.fits = true ∧
      s.signatureHash.all (Bytes.fits 4) = true ∧ s.origins.all (fun e => e.2.fits) = true ∧
      s.leafOrigins.all (fun e => e.2.origin.fits) = true := by
  simp only [fits, Bool.and_eq_true, and_assoc]

theorem fits_set {s s' : InputScope} {kind : UInt8} {rest value : Bytes}
    (h : s.set kind rest value = .ok s') (hs : s.fits = true) : s'.fits = true := by
  obtain ⟨hprevious, hspent, hhash, horigins, hleafOrigins⟩ := fits_iff.mp hs
  cases puts_of_set h with
  | spent hplace =>
      refine fits_iff.mpr ⟨hprevious, ?_, hhash, horigins, hleafOrigins⟩
      exact Scope.all_of_once hplace fun o ho => TxOutput.takes_read.of_whole ho
  | signatureHash hplace =>
      refine fits_iff.mpr ⟨hprevious, hspent, ?_, horigins, hleafOrigins⟩
      exact Scope.all_of_once hplace fun n hn => fits_signatureHashOf hn
  | origins hplace =>
      refine fits_iff.mpr ⟨hprevious, hspent, hhash, ?_, hleafOrigins⟩
      exact Scope.all_of_addNew hplace horigins fun o ho => KeyOrigin.fits_ofBytes ho
  | leafOrigins hplace =>
      refine fits_iff.mpr ⟨hprevious, hspent, hhash, horigins, ?_⟩
      exact Scope.all_of_addLeafOrigin hplace hleafOrigins
  | _ => exact hs

end InputScope

namespace OutputScope

theorem failsOnly_set (s : OutputScope) (kind : UInt8) (rest value : Bytes) :
    FailsOnly (FieldFault (kind :: rest) value) (s.set kind rest value) := by
  have hrefused : FieldFault (kind :: rest) value (.psbt .unreadable) := .unreadable
  have hplain : FailsOnly (FieldFault (kind :: rest) value) (.ok value : Except Failure Bytes) :=
    .pure value
  unfold set
  iterate 2
    refine .ite (fun _ => (Scope.failsOnly_once hrefused fun _ => hplain).bind
      fun _ _ => .pure _) fun _ => ?_
  refine .ite (fun _ => (Scope.failsOnly_addNew hrefused (Scope.refuses_publicKey rest).fieldFault
    (KeyOrigin.refuses_ofBytes value).fieldFault).bind fun _ _ => .pure _) fun _ => ?_
  iterate 2 refine .ite (fun _ => .pure _) fun _ => ?_
  refine .ite (fun hkind => (Scope.failsOnly_xOnlyKey (.value (.inr hkind))).bind
    fun _ _ => .pure _) fun _ => ?_
  refine .ite (fun hkind => (Scope.failsOnly_addLeafOrigin (.inr hkind) _ rest).bind
    fun _ _ => .pure _) fun _ => ?_
  exact (Scope.failsOnly_addNew hrefused (.pure _) hplain).bind fun _ _ => .pure _

theorem fits_iff {s : OutputScope} :
    s.fits = true ↔ s.origins.all (fun e => e.2.fits) = true ∧
      s.leafOrigins.all (fun e => e.2.origin.fits) = true := by
  simp only [fits, Bool.and_eq_true]

theorem fits_set {s s' : OutputScope} {kind : UInt8} {rest value : Bytes}
    (h : s.set kind rest value = .ok s') (hs : s.fits = true) : s'.fits = true := by
  obtain ⟨horigins, hleafOrigins⟩ := fits_iff.mp hs
  cases puts_of_set h with
  | origins hplace =>
      refine fits_iff.mpr ⟨?_, hleafOrigins⟩
      exact Scope.all_of_addNew hplace horigins fun o ho => KeyOrigin.fits_ofBytes ho
  | leafOrigins hplace =>
      refine fits_iff.mpr ⟨horigins, ?_⟩
      exact Scope.all_of_addLeafOrigin hplace hleafOrigins
  | _ => exact hs

end OutputScope

end Fields

/-! ## The whole transaction -/

namespace Parses

variable {α β : Type} {data key : Bytes} {Q : α → Prop}

/-- Reading one piece of a transaction. -/
theorem scans {x : Reader α} (h : Takes data x Q) : Scans data x Q where
  ok := h.ok
  error := fun hs hrun => .stop (h.error hs hrun)

theorem within_of_behind {s : Bytes} (h : Behind data key s) : Within data s := by
  obtain ⟨start, hstart, hkey⟩ := h
  exact (string.ok hstart hkey).1.isInfix.trans hstart

/-- What can be read anywhere can be read behind a key. -/
theorem behind {x : Reader α} (h : Scans data x Q) : ScansField data key x Q where
  ok := fun hs hrun => h.ok (within_of_behind hs) hrun
  error := fun hs hrun => h.error (within_of_behind hs) hrun

/-- A key, and the field behind it. -/
theorem keyed {f : Bytes → Reader α} (hf : ∀ key, ScansField data key (f key) Q) :
    Scans data (Wire.string >>= f) Q :=
  have hkey {s s' key : Bytes} (hs : Within data s) (hrun : Wire.string.run s = .ok key s') :
      Behind data key s' := ⟨s, hs, hrun⟩
  bindAt string.scans hkey fun key _ => hf key

/-- A value behind a key makes a field of the data. -/
theorem field {f : Bytes → Reader α}
    (hf : ∀ value, StatesField data key value → Scans data (f value) Q) :
    ScansField data key (Wire.string >>= f) Q := by
  have hvalue : ScansField data key Wire.string (StatesField data key) := {
    ok := fun hs hrun => ⟨(string.ok (within_of_behind hs) hrun).1, _, _, hs, hrun⟩
    error := fun hs hrun => string.scans.error (within_of_behind hs) hrun }
  refine bindAt hvalue (fun hs hrun => ?_) hf
  exact (hvalue.ok hs hrun).1.isInfix.trans (within_of_behind hs)

/-- The result of a field that stands in the data. -/
theorem ofField {value : Bytes} {e : Except Failure α} (hfield : StatesField data key value)
    (h : FailsOnly (FieldFault key value) e) (hQ : ∀ a, e = .ok a → Q a) :
    Scans data (MonadExcept.ofExcept e) Q :=
  ofExcept (fun failure hfailure _ => .field hfield (h failure hfailure)) hQ

/-- Keys with the fields behind them, where each field keeps what holds of the value. -/
theorem entries {field : α → Bytes → Reader α}
    (hfield : ∀ a key, Q a → ScansField data key (field a key) Q) {a : α} (ha : Q a) :
    Scans data (Wire.entries Wire.string field a) Q := by
  have hfrom : ∀ fuel a, Q a → Scans data (Wire.entriesFrom Wire.string field fuel a) Q := by
    intro fuel
    induction fuel with
    | zero => exact fun a ha => pure ha
    | succ fuel ih =>
        refine fun a ha => keyed fun key => ite (fun _ => behind (pure ha)) fun _ => ?_
        refine bindAt (hfield a key ha) (fun hs hrun => ?_) ih
        exact ((hfield a key ha).ok hs hrun).1.isInfix.trans (within_of_behind hs)
  exact {
    ok := fun hs hrun => (hfrom _ a ha).ok hs hrun
    error := fun hs hrun => (hfrom _ a ha).error hs hrun }

end Parses

namespace InputScope

theorem scansField_readField (s : InputScope) (key : Bytes) :
    ScansField data key (readField s key) fun s' => s.fits = true → s'.fits = true := by
  cases key with
  | nil => exact .pure id
  | cons kind rest =>
      rw [readField]
      refine .ite (fun _ => .behind (.guard (fun _ => .stop .unreadable) fun _ => ?_)) fun _ => ?_
      · refine .bind (Parses.compactSize.scans).discard fun _ _ => ?_
        refine .bind Transaction.takes_read.scans fun t ht => .pure fun hs => ?_
        obtain ⟨-, hspent, hhash, horigins, hleafOrigins⟩ := fits_iff.mp hs
        exact fits_iff.mpr ⟨ht, hspent, hhash, horigins, hleafOrigins⟩
      · exact .field fun value hfield =>
          .ofField hfield (failsOnly_set s kind rest value) fun _ h => fits_set h

theorem scans_read {start : InputScope} (hstart : start.fits = true) :
    Scans data (read start) fun s => s.fits = true :=
  .entries (fun s key hs => (scansField_readField s key).mono fun _ h => h hs) hstart

end InputScope

namespace OutputScope

theorem scansField_readField (s : OutputScope) (key : Bytes) :
    ScansField data key (readField s key) fun s' => s.fits = true → s'.fits = true := by
  cases key with
  | nil => exact .pure id
  | cons kind rest =>
      exact .field fun value hfield =>
        .ofField hfield (failsOnly_set s kind rest value) fun _ h => fits_set h

theorem scans_read {start : OutputScope} (hstart : start.fits = true) :
    Scans data (read start) fun s => s.fits = true :=
  .entries (fun s key hs => (scansField_readField s key).mono fun _ h => h hs) hstart

end OutputScope

/-! ## The global map -/

theorem ExtendedKey.fits_number {bs : Bytes} {k : ExtendedKey}
    (h : ExtendedKey.ofBytes? bs = some k) : Bytes.fits 4 k.number = true := by
  unfold ExtendedKey.ofBytes? at h
  simp only [] at h
  split at h
  · split_ifs at h
    cases h
    exact Bytes.fits_toNatBE (by simp [List.splitAt_eq])
  · cases h

namespace Psbt

/-- The other pairs of the global map stand in the data. -/
def GlobalMap.Stands (data : Bytes) (g : GlobalMap) : Prop :=
  ∀ pair ∈ g.others, StatesField data pair.1 pair.2

theorem GlobalMap.scansField_readField (g : GlobalMap) (key : Bytes) :
    ScansField data key (g.readField key) fun g' => g.Stands data → g'.Stands data := by
  refine .field fun value hfield => .ite (fun hkey => ?_) fun _ => ?_
  · subst hkey
    refine .guard (fun _ => .stop .unreadable) fun _ => ?_
    refine .bind (.ofField hfield (Transaction.takes_read.failsOnly_whole .transaction)
      fun _ _ => trivial) fun _ _ => .pure id
  · refine .ite (fun _ => .pure id) fun _ => .ite (fun _ => Parses.refuse.scans) fun _ => .pure ?_
    intro hg pair hpair
    rcases List.mem_append.mp hpair with hpair | hpair
    · exact hg pair hpair
    · rw [List.mem_singleton.mp hpair]
      exact hfield

theorem GlobalMap.scans_read : Scans data GlobalMap.read (GlobalMap.Stands data) :=
  .entries (fun g key hg => (scansField_readField g key).mono fun _ h => h hg)
    fun _ h => by cases h

namespace Outline

/-- The value of a count is empty, or it has a count. -/
theorem failsOnly_count {α : Type} (fromTransaction : List α) {key value : Bytes}
    (hkey : key = [0x04] ∨ key = [0x05]) :
    FailsOnly (FieldFault key value) (count fromTransaction value) := by
  refine .ite (fun _ => Parses.compactSize.failsOnly_whole fun h => ?_) fun _ =>
    Refuses.refuse.fieldFault
  cases value with
  | nil => exact .count hkey
  | cons marker rest =>
      rw [EndsBeforeCount, Parses.run_compactSize_cons] at h
      split_ifs at h

theorem refuses_xpub (key : Bytes) : Refuses (xpub key) := by
  unfold xpub
  split
  · exact .pure _
  · exact .refuse

theorem fits_xpub {key : Bytes} {k : ExtendedKey} (h : xpub key = .ok k) :
    Bytes.fits 4 k.number = true := by
  unfold xpub at h
  split at h
  · next hk =>
      cases h
      exact ExtendedKey.fits_number hk
  · cases h

theorem failsOnly_add (o : Outline) (key value : Bytes) :
    FailsOnly (FieldFault key value) (o.add (key, value)) := by
  unfold add
  refine .ite (fun _ => ?_) fun _ => ?_
  · exact (refuses_xpub _).fieldFault.bind fun _ _ =>
      (KeyOrigin.refuses_ofBytes value).fieldFault.bind fun _ _ => .pure _
  iterate 2 refine .ite (fun _ => .pure _) fun _ => ?_
  refine .ite (fun hkey => (failsOnly_count _ (.inl hkey)).bind fun _ _ => .pure _) fun _ => ?_
  refine .ite (fun hkey => (failsOnly_count _ (.inr hkey)).bind fun _ _ => .pure _) fun _ => ?_
  exact .pure _

theorem fault_ofGlobalMap {g : GlobalMap} (hg : g.Stands data) :
    FailsOnly (fun failure => ∀ rest, Fault data rest failure) (ofGlobalMap g) := by
  refine .ite (fun _ => .error fun _ => .stop .unreadable) fun _ => .foldlM ?_ _
  intro o pair hpair failure hfailure rest
  exact .field (hg pair hpair) (failsOnly_add o pair.1 pair.2 failure hfailure)

theorem fits_add {o o' : Outline} {pair : Bytes × Bytes} (h : o.add pair = .ok o')
    (ho : o.xpubs.all xpubFits = true) : o'.xpubs.all xpubFits = true := by
  obtain ⟨key, value⟩ := pair
  cases puts_of_add h with
  | xpub hkey horigin =>
      rw [List.all_append, ho, Bool.true_and, List.all_cons, List.all_nil, Bool.and_true]
      exact Bool.and_eq_true_iff.mpr ⟨fits_xpub hkey, KeyOrigin.fits_ofBytes horigin⟩
  | _ => exact ho

theorem fits_ofGlobalMap {g : GlobalMap} {o : Outline} (h : ofGlobalMap g = .ok o) :
    o.xpubs.all xpubFits = true := by
  rcases ite_eq_ok.mp h with ⟨-, h⟩ | ⟨-, h⟩
  · cases h
  · refine foldlM_keeps (P := fun o : Outline => o.xpubs.all xpubFits = true)
      (fun _ _ _ hadd => fits_add hadd) h ?_
    cases g.transaction <;> rfl

end Outline

/-- The integers that stand in the fields have the lengths in which they are written again.  A
transaction that was changed after it was read need not be of this kind. -/
structure FieldsFit (p : Psbt) : Prop where
  inputs : ∀ s ∈ p.inputs, s.fits = true
  outputs : ∀ s ∈ p.outputs, s.fits = true
  xpubs : p.xpubs.all xpubFits = true

theorem scans_readInputs (o : Outline) :
    Scans data (readInputs o) fun inputs => ∀ s ∈ inputs, s.fits = true := by
  unfold readInputs
  refine .bind (.mapM (fun i => InputScope.scans_read rfl) _) fun known hknown => ?_
  refine .bind (.many (InputScope.scans_read rfl) _) fun others hothers => .pure ?_
  exact List.forall_mem_append.mpr ⟨hknown, hothers⟩

theorem scans_readOutputs (o : Outline) :
    Scans data (readOutputs o) fun outputs => ∀ s ∈ outputs, s.fits = true := by
  unfold readOutputs
  refine .bind (.mapM (fun t => OutputScope.scans_read rfl) _) fun known hknown => ?_
  refine .bind (.many (OutputScope.scans_read rfl) _) fun others hothers => .pure ?_
  exact List.forall_mem_append.mpr ⟨hknown, hothers⟩

theorem scans_read : Scans data read FieldsFit := by
  unfold read
  refine .bind (Parses.upTo magic.length).scans fun start _ => ?_
  refine .guard (fun _ => .stop .unreadable) fun _ => .bind GlobalMap.scans_read fun g hg => ?_
  refine .bind (.ofExcept (Outline.fault_ofGlobalMap hg) fun _ h => Outline.fits_ofGlobalMap h) ?_
  intro o hxpubs
  refine .bind (scans_readInputs o) fun inputs hinputs => ?_
  exact .bind (scans_readOutputs o) fun outputs houtputs => .pure ⟨hinputs, houtputs, hxpubs⟩

/-- A byte string that is not read has bytes left over, or reading it fails with a fault of its
own. -/
theorem fault_of_parse {bs : Bytes} {failure : Failure} (h : parse bs = .error failure) :
    failure = .psbt .unreadable ∨
      ∃ rest, read.run bs = .error failure rest ∧ Fault bs rest failure := by
  unfold parse Wire.whole at h
  split at h
  · cases h
  · cases h
    exact .inl rfl
  · next failure' rest hread =>
      cases h
      exact .inr ⟨rest, hread, scans_read.error (List.infix_refl bs) hread⟩

theorem fieldsFit_of_parse {bs : Bytes} {p : Psbt} (h : parse bs = .ok p) : p.FieldsFit :=
  (scans_read.ok (List.infix_refl bs) (Wire.whole_eq_ok.mp h)).2

end Psbt
end SignerHost
