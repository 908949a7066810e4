import SignerHost.Proofs.Psbt.Fields
import SignerHost.Proofs.Psbt.Registered
import SignerHost.Psbt.Source

/-!
# The transaction that the maps describe

A device signs the transaction that the flattened maps describe.  For a partially signed
transaction of version 0 this is the unsigned transaction, but only as long as no field of
version 2 beside it says otherwise: such fields are read, replace what the unsigned transaction
says, and are then compared with themselves.

* `Flattened.described?` reads the described transaction off the maps.
* `PsbtFields.Agrees` is the condition on the fields, and `describes_unsigned_iff` says that it is
  exactly the right one.
* A sequence of zero agrees only if it is stated once more in the map of the input.
-/

namespace SignerHost

open Step

/-! ## What the maps say -/

/-- An input without what is needed to spend it. -/
structure DescribedInput where
  txid : Bytes
  vout : Int
  sequence : Int
  deriving DecidableEq

/-- A transaction as far as maps say it, without the scripts and the witnesses of its inputs. -/
structure DescribedTransaction where
  version : Int
  lockTime : Int
  inputs : List DescribedInput
  outputs : List TxOutput
  deriving DecidableEq

def TxInput.described (i : TxInput) : DescribedInput where
  txid := i.txid
  vout := i.vout
  sequence := i.sequence

/-- What maps can say about a transaction. -/
def Transaction.described (t : Transaction) : DescribedTransaction where
  version := t.version
  lockTime := t.lockTime
  inputs := t.inputs.map TxInput.described
  outputs := t.outputs

namespace ByteMap

/-- The number under a key, least significant byte first. -/
def number? (m : ByteMap) (key : Bytes) : Option Int :=
  (m.find? key).map fun bs => (Bytes.toNatLE bs : Int)

/-- The compact size under a key, if there is nothing behind it. -/
def count? (m : ByteMap) (key : Bytes) : Option Nat := do
  match Field.compactSize.run (← m.find? key) with
  | .ok n [] => some n
  | _ => none

/-- The input that a map describes by its outpoint and its sequence. -/
def describedInput? (m : ByteMap) : Option DescribedInput := do
  let txid ← m.find? [0x0E]
  let vout ← m.number? [0x0F]
  let sequence ← m.number? [0x10]
  return { txid, vout, sequence }

/-- The output that a map describes by its amount and its script. -/
def describedOutput? (m : ByteMap) : Option TxOutput := do
  let value ← m.number? [0x03]
  let script ← m.find? [0x04]
  return { value, script }

end ByteMap

/-- The transaction that the maps describe, if they describe one.  They are read by the keys of
version 2 alone. -/
def Flattened.described? (f : Flattened) : Option DescribedTransaction := do
  let version ← f.globalMap.number? [0x02]
  let lockTime ← f.globalMap.number? [0x03]
  let inputs ← f.inputs.mapM ByteMap.describedInput?
  let outputs ← f.outputs.mapM ByteMap.describedOutput?
  if f.globalMap.count? [0x04] = some inputs.length ∧
      f.globalMap.count? [0x05] = some outputs.length then
    return { version, lockTime, inputs, outputs }
  else none

theorem toNatLE_of_fixedLE {width : Nat} {n : Int} {bs : Bytes} (h : fixedLE width n = .ok bs) :
    (Bytes.toNatLE bs : Int) = n := by
  obtain ⟨hfits, rfl⟩ := fixedLE_eq_ok.mp h
  obtain ⟨hnonneg, hlt⟩ := Bytes.fits_iff.mp hfits
  have hcast : ((n.toNat : Nat) : Int) < ((256 ^ width : Nat) : Int) := by
    rw [Int.toNat_of_nonneg hnonneg]
    exact_mod_cast hlt
  rw [Bytes.toNatLE_ofNatLE_of_lt (by exact_mod_cast hcast), Int.toNat_of_nonneg hnonneg]

/-! ## What flattening writes -/

/-- An input of a transaction as its scope has it. -/
inductive InputScope.Describes (s : InputScope) : DescribedInput → Prop
  | intro {txid : Bytes} {vout : Int} (htxid : s.txid = some txid) (hvout : s.vout = some vout) :
      Describes s { txid, vout, sequence := s.sequence.getD finalSequence }

/-- An output of a transaction as its scope has it. -/
inductive OutputScope.Describes (s : OutputScope) : TxOutput → Prop
  | intro {value : Int} {script : Bytes} (hvalue : s.value = some value)
      (hscript : s.script = some script) :
      Describes s { value, script }

theorem InputScope.unsigned_eq_ok {s : InputScope} {index : Int} {declared : UnsignedInput} :
    s.unsigned index = .ok declared ↔
      ∃ txid vout, s.txid = some txid ∧ s.vout = some vout ∧
        declared = ⟨some txid, vout, s.sequence.getD finalSequence⟩ := by
  unfold unsigned
  cases s.txid with
  | none => simp
  | some txid =>
      cases s.vout with
      | none => simp
      | some vout => simp [eq_comm]

theorem OutputScope.unsigned_eq_ok {s : OutputScope} {index : Int} {declared : UnsignedOutput} :
    s.unsigned index = .ok declared ↔
      ∃ value script, s.value = some value ∧ s.script = some script ∧
        declared = ⟨value, some script⟩ := by
  unfold unsigned
  cases s.value with
  | none => simp
  | some value =>
      cases s.script with
      | none => simp
      | some script => simp [eq_comm]

/-- The map of an input describes what its scope has. -/
theorem InputScope.describes_of_flatten {s : InputScope} {index : Int} {declared : UnsignedInput}
    {m : ByteMap} (hdeclared : s.unsigned index = .ok declared)
    (h : s.flatten (some declared) = .ok m) : ∃ d, m.describedInput? = some d ∧ s.Describes d := by
  obtain ⟨txid, vout, htxid, hvout, rfl⟩ := unsigned_eq_ok.mp hdeclared
  obtain ⟨_, start, position, sequence, hsome, -, hposition, hsequence, rfl⟩ := exists_of_flatten h
  cases hsome
  refine ⟨_, ?_, .intro htxid hvout⟩
  simp [ByteMap.describedInput?, ByteMap.number?, ByteMap.find?_insert,
    toNatLE_of_fixedLE hposition, toNatLE_of_fixedLE hsequence]

/-- The map of an output describes what its scope has. -/
theorem OutputScope.describes_of_flatten {s : OutputScope} {index : Int}
    {declared : UnsignedOutput} {m : ByteMap} (hdeclared : s.unsigned index = .ok declared)
    (h : s.flatten (some declared) = .ok m) :
    ∃ d, m.describedOutput? = some d ∧ s.Describes d := by
  obtain ⟨value, script, hvalue, hscript, rfl⟩ := unsigned_eq_ok.mp hdeclared
  obtain ⟨_, start, amount, hsome, -, hamount, rfl⟩ := exists_of_flatten h
  cases hsome
  refine ⟨_, ?_, .intro hvalue hscript⟩
  simp [ByteMap.describedOutput?, ByteMap.number?, ByteMap.find?_insert,
    toNatLE_of_fixedLE hamount]

theorem elementAt_ofNat {α : Type} {xs : List α} {i : Nat} (hi : i < xs.length) :
    elementAt xs i = some xs[i] := by
  rw [elementAt, if_pos (by omega), Int.toNat_natCast, List.getElem?_eq_getElem hi]

/-- Maps that describe something each describe a list. -/
theorem exists_described {α β : Type} {describe : ByteMap → Option β} {D : α → β → Prop}
    {flatten : α × Nat → Except Failure ByteMap} {scopes : List α} {ms : List ByteMap}
    (h : scopes.zipIdx.mapM flatten = .ok ms)
    (hdescribe : ∀ i (hi : i < scopes.length) m, flatten (scopes[i], i) = .ok m →
      ∃ d, describe m = some d ∧ D scopes[i] d) :
    ∃ ds, ms.mapM describe = some ds ∧ List.Forall₂ D scopes ds := by
  -- Row by row first; the places of the scopes do not matter any more behind that.
  have hrows : List.Forall₂ (fun s m => ∃ d, describe m = some d ∧ D s d) scopes ms := by
    obtain ⟨hlength, hat⟩ := Psbt.exists_of_mapM_zipIdx h
    refine List.forall₂_iff_get.mpr ⟨hlength.symm, ?_⟩
    intro i hi hi'
    exact hdescribe i hi _ (hat i hi hi')
  clear h hdescribe
  induction hrows with
  | nil => exact ⟨[], rfl, .nil⟩
  | cons hrow _ ih =>
      obtain ⟨d, hd, hD⟩ := hrow
      obtain ⟨ds, hds, hDs⟩ := ih
      refine ⟨d :: ds, ?_, .cons hD hDs⟩
      rw [List.mapM_cons, hd, hds]
      rfl

theorem Psbt.describes_inputs {p : Psbt} {ms : List ByteMap}
    (h : p.inputs.zipIdx.mapM p.flattenInput = .ok ms) :
    ∃ ds, ms.mapM ByteMap.describedInput? = some ds ∧
      List.Forall₂ InputScope.Describes p.inputs ds := by
  apply exists_described h
  intro i hi m hm
  obtain ⟨declared, hdeclared, hflatten⟩ := flattenInput_eq_ok.mp hm
  rw [unsignedInput, elementAt_ofNat hi] at hdeclared
  exact InputScope.describes_of_flatten hdeclared hflatten

theorem Psbt.describes_outputs {p : Psbt} {ms : List ByteMap}
    (h : p.outputs.zipIdx.mapM p.flattenOutput = .ok ms) :
    ∃ ds, ms.mapM ByteMap.describedOutput? = some ds ∧
      List.Forall₂ OutputScope.Describes p.outputs ds := by
  apply exists_described h
  intro i hi m hm
  obtain ⟨declared, hdeclared, hflatten⟩ := flattenOutput_eq_ok.mp hm
  rw [unsignedOutput, elementAt_ofNat hi] at hdeclared
  exact OutputScope.describes_of_flatten hdeclared hflatten

/-- The counts that flattening writes are the numbers of its maps. -/
theorem ByteMap.count?_of_find? {m : ByteMap} {key : Bytes} {n : Nat} (hn : n < 2 ^ 64)
    (h : m.find? key = some (CompactSize.encode n)) : m.count? key = some n := by
  simp [count?, h, Field.run_compactSize_to_end hn]

/-- The described transaction has the version, the lock time and the scopes that were read.  What
the fields replaced in the unsigned transaction has been replaced in these. -/
theorem Flattened.described?_of_flatten {p : Psbt} {f : Flattened} {version lockTime : Int}
    (h : p.flatten = .ok f) (hversion : p.txVersion = some version)
    (hlockTime : p.lockTime = some lockTime) :
    ∃ inputs outputs, f.described? = some { version, lockTime, inputs, outputs } ∧
      List.Forall₂ InputScope.Describes p.inputs inputs ∧
      List.Forall₂ OutputScope.Describes p.outputs outputs := by
  obtain ⟨hglobal, hinputs, houtputs⟩ := Psbt.flatten_eq_ok.mp h
  obtain ⟨hinputsLt, houtputsLt, ⟨bs₂, hbs₂, hfind₂⟩, hfind₃, hfind₄, hfind₅⟩ :=
    Psbt.find?_flattenGlobal hglobal
  obtain ⟨bs₃, hbs₃, hfind₃⟩ := hfind₃ _ hlockTime
  obtain ⟨inputs, hdescribedInputs, hinputRows⟩ := Psbt.describes_inputs hinputs
  obtain ⟨outputs, hdescribedOutputs, houtputRows⟩ := Psbt.describes_outputs houtputs
  -- The numbers are read back as they were written, each with its own width.
  rw [hversion] at hbs₂
  have hnumber₂ : f.globalMap.number? [0x02] = some version := by
    rw [ByteMap.number?, hfind₂, Option.map_some, toNatLE_of_fixedLE hbs₂, Option.getD_some]
  have hnumber₃ : f.globalMap.number? [0x03] = some lockTime := by
    rw [ByteMap.number?, hfind₃, Option.map_some, toNatLE_of_fixedLE hbs₃]
  have hcount₄ := ByteMap.count?_of_find? hinputsLt hfind₄
  have hcount₅ := ByteMap.count?_of_find? houtputsLt hfind₅
  rw [hinputRows.length_eq] at hcount₄
  rw [houtputRows.length_eq] at hcount₅
  refine ⟨inputs, outputs, ?_, hinputRows, houtputRows⟩
  simp [described?, hnumber₂, hnumber₃, hdescribedInputs, hdescribedOutputs, hcount₄, hcount₅]

/-! ## When the fields agree with the transaction -/

/-- The fields of an input say nothing else than the unsigned transaction. -/
structure TxInput.Agrees (fields : Fields) (i : TxInput) : Prop where
  txid : ∀ value ∈ fields.last? [0x0E], value = i.txid
  vout : ∀ value ∈ fields.last? [0x0F], Bytes.toNatLE value = i.vout
  sequence : ∀ value ∈ fields.last? [0x10], Bytes.toNatLE value = i.sequence
  /-- A sequence of zero is taken for none, unless the field repeats it. -/
  stated : fields.last? [0x10] = none → i.sequence ≠ 0

/-- The fields of an output say nothing else than the unsigned transaction. -/
structure TxOutput.Agrees (fields : Fields) (o : TxOutput) : Prop where
  value : ∀ value ∈ fields.last? [0x03], Bytes.toNatLE value = o.value
  script : ∀ script ∈ fields.last? [0x04], script = o.script

/-- All fields say nothing else than the unsigned transaction.  These are the fields that replace
something in what is read. -/
structure PsbtFields.Agrees (q : PsbtFields) (t : Transaction) : Prop where
  version : ∀ value ∈ q.globalMap.last? [0x02], Bytes.toNatLE value = t.version
  lockTime : ∀ value ∈ q.globalMap.last? [0x03], Bytes.toNatLE value = t.lockTime
  inputs : List.Forall₂ TxInput.Agrees q.inputs t.inputs
  outputs : List.Forall₂ TxOutput.Agrees q.outputs t.outputs

theorem getD_eq_iff {α : Type} {x : Option α} {a : α} : x.getD a = a ↔ ∀ b ∈ x, b = a := by
  cases x with
  | none => simp
  | some b => simp

theorem getD_map_eq_iff {α β : Type} {f : α → β} {x : Option α} {b : β} :
    (x.map f).getD b = b ↔ ∀ a ∈ x, f a = b := by
  cases x with
  | none => simp
  | some a => simp

theorem TxInput.described_eq_iff {i : TxInput} {fields : Fields} {s : InputScope}
    {d : DescribedInput} (hfollows : InputScope.Follows (.ofTxInput i) fields s)
    (hdescribes : s.Describes d) : d = i.described ↔ TxInput.Agrees fields i := by
  have htxid : s.txid = some ((fields.last? [0x0E]).getD i.txid) :=
    hfollows.txid.trans Option.or_some
  have hvout : s.vout =
      some (((fields.last? [0x0F]).map fun v => (Bytes.toNatLE v : Int)).getD i.vout) :=
    hfollows.vout.trans Option.or_some
  have hsequence : s.sequence =
      some (((fields.last? [0x10]).map fun v => (Bytes.toNatLE v : Int)).getD
        (if i.sequence = 0 then InputScope.finalSequence else i.sequence)) :=
    hfollows.sequence.trans Option.or_some
  cases hdescribes with
  | intro htxid' hvout' =>
  rw [htxid] at htxid'
  rw [hvout] at hvout'
  cases htxid'
  cases hvout'
  rw [hsequence, Option.getD_some, TxInput.described, DescribedInput.mk.injEq, getD_eq_iff,
    getD_map_eq_iff]
  -- Of the three, only a sequence that no field states may differ by itself.
  have hzero : ((fields.last? [0x10]).map fun v => (Bytes.toNatLE v : Int)).getD
      (if i.sequence = 0 then InputScope.finalSequence else i.sequence) = i.sequence ↔
        (∀ value ∈ fields.last? [0x10], Bytes.toNatLE value = i.sequence) ∧
          (fields.last? [0x10] = none → i.sequence ≠ 0) := by
    cases fields.last? [0x10] with
    | none =>
        by_cases hi : i.sequence = 0
        · simp [hi, InputScope.finalSequence]
        · simp [hi]
    | some value => simp
  rw [hzero]
  constructor
  · rintro ⟨htxid, hvout, hsequence, hstated⟩
    exact ⟨htxid, hvout, hsequence, hstated⟩
  · rintro ⟨htxid, hvout, hsequence, hstated⟩
    exact ⟨htxid, hvout, hsequence, hstated⟩

theorem TxOutput.described_eq_iff {o : TxOutput} {fields : Fields} {s : OutputScope}
    {d : TxOutput} (hfollows : OutputScope.Follows (.ofTxOutput o) fields s)
    (hdescribes : s.Describes d) : d = o ↔ TxOutput.Agrees fields o := by
  have hvalue : s.value =
      some (((fields.last? [0x03]).map fun v => (Bytes.toNatLE v : Int)).getD o.value) :=
    hfollows.value.trans Option.or_some
  have hscript : s.script = some ((fields.last? [0x04]).getD o.script) :=
    hfollows.script.trans Option.or_some
  -- What a field says replaces the value of the transaction, so only equal fields change nothing.
  cases hdescribes with
  | intro hvalue' hscript' =>
  rw [hvalue] at hvalue'
  rw [hscript] at hscript'
  cases hvalue'
  cases hscript'
  show _ = TxOutput.mk o.value o.script ↔ _
  rw [TxOutput.mk.injEq, getD_map_eq_iff, getD_eq_iff]
  constructor
  · rintro ⟨hvalue, hscript⟩
    exact ⟨hvalue, hscript⟩
  · rintro ⟨hvalue, hscript⟩
    exact ⟨hvalue, hscript⟩

/-- Rows that start from the elements of a list describe that list exactly if each of them agrees
with its element and there are no further rows. -/
theorem described_eq_map_iff {τ σ β γ δ : Type} {start : τ → σ} {expected : τ → δ}
    {R : σ → β → γ → Prop} {D : γ → δ → Prop} {A : β → τ → Prop}
    (hrow : ∀ {x b c d}, R (start x) b c → D c d → (d = expected x ↔ A b x))
    {blank : σ} {n : Nat} {xs : List τ} {bs : List β} {cs : List γ} {ds : List δ}
    (hrows : Rows R (xs.map start ++ List.replicate n blank) bs cs)
    (hdescribed : List.Forall₂ D cs ds) :
    ds = xs.map expected ↔ List.Forall₂ A bs xs := by
  induction xs generalizing bs cs ds with
  | nil =>
      rw [List.map_nil, List.nil_append] at hrows
      rw [List.map_nil, List.forall₂_nil_right_iff]
      -- Any row here is one that the transaction does not have.
      generalize List.replicate n blank = further at hrows
      cases hrows with
      | nil =>
          cases hdescribed
          simp
      | cons _ _ =>
          cases hdescribed
          simp
  | cons x xs ih =>
      rw [List.map_cons, List.cons_append] at hrows
      cases hrows with
      | cons hR hrest =>
          cases hdescribed with
          | cons hD hDs =>
              rw [List.map_cons, List.cons.injEq, List.forall₂_cons, hrow hR hD, ih hrest hDs]

/-- The maps of a transaction that was read from bytes describe the unsigned transaction in these
bytes exactly if all fields agree with it.  Nothing is refused that does not agree. -/
theorem describes_unsigned_iff {bs : Bytes} {p : Psbt} {q : PsbtFields} {t : Transaction}
    {r r' : Responder} {c : PsbtCommitments} (hread : (PsbtSource.bytes bs).normalize = .ok p)
    (hfields : Psbt.fieldsOf bs = .ok q) (ht : q.transaction = some t)
    (hregister : p.register.run r = .ok c r') :
    ∃ f, p.flatten = .ok f ∧ c = f.commitments ∧
      (f.described? = some t.described ↔ q.Agrees t) := by
  obtain ⟨f, hflatten, -, hc, -⟩ := Psbt.run_register_eq_ok.mp hregister
  refine ⟨f, hflatten, hc, ?_⟩
  obtain ⟨q', hq', hamends⟩ := Psbt.parse_amends hread
  -- The bytes have one list of fields, so the fields that parsing follows are the given ones.
  obtain rfl : q = q' := by
    rw [hfields] at hq'
    cases hq'
    rfl
  obtain ⟨hversion, hlockTime, ⟨m, hinputRows⟩, ⟨n, houtputRows⟩⟩ := hamends t ht
  obtain ⟨inputs, outputs, hdescribed, hinputs, houtputs⟩ :=
    Flattened.described?_of_flatten hflatten hversion hlockTime
  have hinputsIff := described_eq_map_iff TxInput.described_eq_iff hinputRows hinputs
  have houtputsIff : outputs = t.outputs.map id ↔
      List.Forall₂ TxOutput.Agrees q.outputs t.outputs :=
    described_eq_map_iff TxOutput.described_eq_iff houtputRows houtputs
  rw [List.map_id] at houtputsIff
  rw [hdescribed, Option.some_inj, Transaction.described, DescribedTransaction.mk.injEq,
    getD_map_eq_iff, getD_map_eq_iff, hinputsIff, houtputsIff]
  constructor
  · rintro ⟨hversion, hlockTime, hinputs, houtputs⟩
    exact ⟨hversion, hlockTime, hinputs, houtputs⟩
  · rintro ⟨hversion, hlockTime, hinputs, houtputs⟩
    exact ⟨hversion, hlockTime, hinputs, houtputs⟩

/-! ## Two transactions of one input -/

/-- A transaction of one input and one output. -/
def oneInput : Transaction where
  version := 2
  inputs :=
    [{ txid := 1 :: List.replicate 31 0, vout := 0, script := [], sequence := 0xFFFFFFFF }]
  outputs := [{ value := 1000, script := [0x51] }]
  lockTime := 0

/-- Its partially signed form, with some fields in the map of the input. -/
def oneInputBytes (fields : Fields) : Bytes :=
  Psbt.magic ++ Wire.prefixed [0x00] ++ Wire.prefixed oneInput.toBytes ++ 0x00 ::
    (fields.flatMap (fun f => Wire.prefixed f.1 ++ Wire.prefixed f.2) ++ [0x00, 0x00])

theorem exists_of_toOption_bind {α β : Type} {x : Except Failure α} {g : α → Option β} {b : β}
    (h : x.toOption.bind g = some b) : ∃ a, x = .ok a ∧ g a = some b := by
  cases x with
  | ok a => exact ⟨a, rfl, h⟩
  | error failure => cases h

/-- Bytes whose maps are small are registered if they can be flattened. -/
theorem exists_register_of_described (bs : Bytes) (d : DescribedTransaction)
    (h : ((PsbtSource.bytes bs).normalize >>= Psbt.flatten).toOption.bind
      (fun f => if ∀ m ∈ f.maps, m.size < 2 ^ 64 then f.described? else none) = some d) :
    ∃ p f r', (PsbtSource.bytes bs).normalize = .ok p ∧ p.flatten = .ok f ∧
      f.described? = some d ∧ p.register.run {} = .ok f.commitments r' := by
  obtain ⟨f, hf, hd⟩ := exists_of_toOption_bind h
  obtain ⟨p, hp, hf⟩ := bind_eq_ok.mp hf
  split_ifs at hd with hsizes
  exact ⟨p, f, _, hp, hf, hd, Psbt.run_register_eq_ok.mpr ⟨f, hf, hsizes, rfl, rfl⟩⟩

/-- Without any other field the maps describe the unsigned transaction. -/
theorem describes_unsigned_of_no_fields :
    ∃ p q f c r', (PsbtSource.bytes (oneInputBytes [])).normalize = .ok p ∧
      Psbt.fieldsOf (oneInputBytes []) = .ok q ∧ q.transaction = some oneInput ∧
      p.register.run {} = .ok c r' ∧ p.flatten = .ok f ∧ q.Agrees oneInput ∧
      f.described? = some oneInput.described := by
  obtain ⟨p, f, r', hp, hf, -, hregister⟩ := exists_register_of_described
    (oneInputBytes []) oneInput.described (by decide +kernel)
  have hfields : (Psbt.fieldsOf (oneInputBytes [])).toOption.bind some =
      some ⟨some oneInput, [], [[]], [[]]⟩ := by decide +kernel
  obtain ⟨q, hq, hfields⟩ := exists_of_toOption_bind hfields
  cases hfields
  -- There is no field that could contradict the transaction.
  have hagrees : PsbtFields.Agrees ⟨some oneInput, [], [[]], [[]]⟩ oneInput :=
    { version := by simp
      lockTime := by simp
      inputs := .cons ⟨by simp, by simp, by simp, by decide⟩ .nil
      outputs := .cons ⟨by simp, by simp⟩ .nil }
  obtain ⟨f', hf', -, hiff⟩ := describes_unsigned_iff hp hq rfl hregister
  exact ⟨p, _, f', _, r', hp, hq, rfl, hregister, hf', hagrees, hiff.mpr hagrees⟩

/-- A position beside the unsigned transaction is not refused, and the maps describe a transaction
that spends another output. -/
theorem describes_other_of_contradicting_position :
    ∃ p q f c r', (PsbtSource.bytes (oneInputBytes [([0x0F], [5, 0, 0, 0])])).normalize = .ok p ∧
      Psbt.fieldsOf (oneInputBytes [([0x0F], [5, 0, 0, 0])]) = .ok q ∧
      q.transaction = some oneInput ∧ p.register.run {} = .ok c r' ∧ p.flatten = .ok f ∧
      f.described? ≠ some oneInput.described := by
  obtain ⟨p, f, r', hp, hf, hd, hregister⟩ := exists_register_of_described
    (oneInputBytes [([0x0F], [5, 0, 0, 0])])
    { oneInput.described with inputs := [⟨1 :: List.replicate 31 0, 5, 0xFFFFFFFF⟩] }
    (by decide +kernel)
  have hfields : (Psbt.fieldsOf (oneInputBytes [([0x0F], [5, 0, 0, 0])])).toOption.bind
      PsbtFields.transaction = some oneInput := by decide +kernel
  obtain ⟨q, hq, ht⟩ := exists_of_toOption_bind hfields
  refine ⟨p, q, f, _, r', hp, hq, ht, hregister, hf, ?_⟩
  rw [hd]
  decide

end SignerHost
