import SignerHost.Proofs.Psbt.Places
import SignerHost.Proofs.Wire

/-!
# The fields as they stand in the bytes

A scope remembers what its fields say, and not which fields there were.  Here the same bytes are
read a second time into plain lists of fields.

* `Psbt.fieldsOf` gives the unsigned transaction and the fields of all maps, as they are written.
* `InputScope.Follows` and `OutputScope.Follows` say how the fields of version 2 replace what was
  known before: the last field of a kind counts.
* `Psbt.parse_amends` connects both ways of reading.
-/

namespace SignerHost

open Step

/-- Fields in the order in which they stand in a map. -/
abbrev Fields := List (Bytes × Bytes)

namespace Fields

/-- The value of the last field with a key.  Earlier fields with this key do not count. -/
def last? (fields : Fields) (key : Bytes) : Option Bytes := fields.reverse.lookup key

@[simp] theorem last?_nil (key : Bytes) : last? [] key = none := rfl

theorem last?_append_singleton (fields : Fields) (k value key : Bytes) :
    last? (fields ++ [(k, value)]) key = if key = k then some value else fields.last? key := by
  rw [last?, List.reverse_append, List.reverse_singleton, List.singleton_append,
    List.lookup_cons]
  by_cases h : key = k
  · simp [h]
  · rw [beq_false_of_ne h, if_neg h]
    rfl

/-- What depends on the last value of a key changes by a field with that key, and by no other. -/
theorem replace_last? {β : Type} (g : Option Bytes → β) {fields : Fields} {k key value : Bytes}
    {known : β} (h : known = g (fields.last? k)) :
    (if key = k then g (some value) else known) = g ((fields ++ [(key, value)]).last? k) := by
  rw [last?_append_singleton]
  by_cases hkey : key = k
  · rw [if_pos hkey, if_pos hkey.symm]
  · rw [if_neg hkey, if_neg (Ne.symm hkey), h]

/-- Appends a field, given a reader of its value.  The fields are kept as they stand, also where
a map would refuse them. -/
def collect (value : Bytes → Reader Bytes) (fields : Fields) (key : Bytes) : Reader Fields := do
  return fields ++ [(key, ← value key)]

theorem run_collect {value : Bytes → Reader Bytes} {key bs s s' : Bytes}
    (h : (value key).run s = .ok bs s') (fields : Fields) :
    (collect value fields key).run s = .ok (fields ++ [(key, bs)]) s' := by
  rw [collect, run_bind_of_ok h]
  rfl

end Fields

/-! ## Inputs -/

namespace InputScope

/-- The value of a field.  A previous transaction ends where it ends. -/
def readValue (key : Bytes) : Reader Bytes := do
  if key.head? = some 0x00 then
    discard Wire.compactSize
    return (← Transaction.read).toBytes
  else Wire.string

/-- The fields of one input. -/
def readFields : Reader Fields := Wire.entries Wire.string (Fields.collect readValue) []

/-- A scope that says what was known before, except where a field replaces it. -/
structure Follows (start : InputScope) (fields : Fields) (s : InputScope) : Prop where
  txid : s.txid = (fields.last? [0x0E]).or start.txid
  vout : s.vout = ((fields.last? [0x0F]).map fun v => (Bytes.toNatLE v : Int)).or start.vout
  sequence : s.sequence =
    ((fields.last? [0x10]).map fun v => (Bytes.toNatLE v : Int)).or start.sequence

theorem Follows.refl (s : InputScope) : Follows s [] s := ⟨rfl, rfl, rfl⟩

/-- The outpoint and the sequence change only by the fields that stand for them. -/
structure Sets (s : InputScope) (key value : Bytes) (s' : InputScope) : Prop where
  txid : s'.txid = if key = [0x0E] then some value else s.txid
  vout : s'.vout = if key = [0x0F] then some (Bytes.toNatLE value : Int) else s.vout
  sequence : s'.sequence = if key = [0x10] then some (Bytes.toNatLE value : Int) else s.sequence

/-- A field replaces what was known before exactly if it has the key of what it stands for. -/
theorem Follows.append {start s s' : InputScope} {fields : Fields} {key value : Bytes}
    (h : Follows start fields s) (hset : Sets s key value s') :
    Follows start (fields ++ [(key, value)]) s' where
  txid := hset.txid.trans (Fields.replace_last? (fun x => x.or start.txid) h.txid)
  vout := hset.vout.trans (Fields.replace_last?
    (fun x => (x.map fun v => (Bytes.toNatLE v : Int)).or start.vout) h.vout)
  sequence := hset.sequence.trans (Fields.replace_last?
    (fun x => (x.map fun v => (Bytes.toNatLE v : Int)).or start.sequence) h.sequence)

theorem sets_of_ne {s s' : InputScope} {kind : UInt8} {rest value : Bytes}
    (hkey : kind :: rest ≠ [0x0E] ∧ kind :: rest ≠ [0x0F] ∧ kind :: rest ≠ [0x10])
    (hsame : s'.txid = s.txid ∧ s'.vout = s.vout ∧ s'.sequence = s.sequence) :
    Sets s (kind :: rest) value s' where
  txid := by rw [if_neg hkey.1, hsame.1]
  vout := by rw [if_neg hkey.2.1, hsame.2.1]
  sequence := by rw [if_neg hkey.2.2, hsame.2.2]

theorem sets_set {s s' : InputScope} {kind : UInt8} {rest value : Bytes}
    (h : s.set kind rest value = .ok s') : Sets s (kind :: rest) value s' := by
  cases puts_of_set h with
  | txid | vout | sequence => constructor <;> rfl
  | unknown hkey _ => exact sets_of_ne hkey ⟨rfl, rfl, rfl⟩
  | _ => exact sets_of_ne (by simp) ⟨rfl, rfl, rfl⟩

/-- Reading one field keeps a scope and its list of fields together. -/
theorem follows_readField {start s s' : InputScope} {fields : Fields} {key bs rest : Bytes}
    (hkey : key ≠ []) (h : Follows start fields s)
    (hread : (readField s key).run bs = .ok s' rest) :
    ∃ fields', (Fields.collect readValue fields key).run bs = .ok fields' rest ∧
      Follows start fields' s' := by
  obtain ⟨kind, tail, rfl⟩ := List.exists_cons_of_ne_nil hkey
  rcases run_readField_cons hread with
    ⟨rfl, u, s₁, t, hlength, htransaction, rfl⟩ | ⟨hkind, value, hstring, hset⟩
  · -- The stated length is skipped by both readers.
    have hvalue : (readValue (0x00 :: tail)).run bs = .ok t.toBytes rest := by
      rw [readValue, List.head?_cons, if_pos rfl, run_bind_of_ok hlength,
        run_bind_of_ok htransaction]
      rfl
    exact ⟨_, Fields.run_collect hvalue fields,
      h.append (sets_of_ne (by simp) ⟨rfl, rfl, rfl⟩)⟩
  · have hvalue : (readValue (kind :: tail)).run bs = .ok value rest := by
      rw [readValue, List.head?_cons, if_neg (by simpa using hkind)]
      exact hstring
    exact ⟨_, Fields.run_collect hvalue fields, h.append (sets_set hset)⟩

/-- A scope that was read follows its fields, which are read from the same bytes. -/
theorem read_follows {start s : InputScope} {bs rest : Bytes}
    (h : (read start).run bs = .ok s rest) :
    ∃ fields, readFields.run bs = .ok fields rest ∧ Follows start fields s :=
  Wire.entries_follows (R := fun s fields => Follows start fields s)
    (fun hkey hR hread => follows_readField hkey hR hread) h
    (Follows.refl start)

end InputScope

/-! ## Outputs -/

namespace OutputScope

/-- The fields of one output. -/
def readFields : Reader Fields := Wire.entries Wire.string (Fields.collect fun _ => Wire.string) []

/-- A scope that says what was known before, except where a field replaces it. -/
structure Follows (start : OutputScope) (fields : Fields) (s : OutputScope) : Prop where
  value : s.value = ((fields.last? [0x03]).map fun v => (Bytes.toNatLE v : Int)).or start.value
  script : s.script = (fields.last? [0x04]).or start.script

theorem Follows.refl (s : OutputScope) : Follows s [] s := ⟨rfl, rfl⟩

/-- The amount and the script change only by the fields that stand for them. -/
structure Sets (s : OutputScope) (key bs : Bytes) (s' : OutputScope) : Prop where
  value : s'.value = if key = [0x03] then some (Bytes.toNatLE bs : Int) else s.value
  script : s'.script = if key = [0x04] then some bs else s.script

theorem Follows.append {start s s' : OutputScope} {fields : Fields} {key bs : Bytes}
    (h : Follows start fields s) (hset : Sets s key bs s') :
    Follows start (fields ++ [(key, bs)]) s' where
  value := hset.value.trans (Fields.replace_last?
    (fun x => (x.map fun v => (Bytes.toNatLE v : Int)).or start.value) h.value)
  script := hset.script.trans (Fields.replace_last? (fun x => x.or start.script) h.script)

theorem sets_of_ne {s s' : OutputScope} {kind : UInt8} {rest value : Bytes}
    (hkey : kind :: rest ≠ [0x03] ∧ kind :: rest ≠ [0x04])
    (hsame : s'.value = s.value ∧ s'.script = s.script) : Sets s (kind :: rest) value s' where
  value := by rw [if_neg hkey.1, hsame.1]
  script := by rw [if_neg hkey.2, hsame.2]

theorem sets_set {s s' : OutputScope} {kind : UInt8} {rest value : Bytes}
    (h : s.set kind rest value = .ok s') : Sets s (kind :: rest) value s' := by
  cases puts_of_set h with
  | amount | script => constructor <;> rfl
  | unknown hkey _ => exact sets_of_ne hkey ⟨rfl, rfl⟩
  | _ => exact sets_of_ne (by simp) ⟨rfl, rfl⟩

/-- A scope that was read follows its fields, which are read from the same bytes. -/
theorem read_follows {start s : OutputScope} {bs rest : Bytes}
    (h : (read start).run bs = .ok s rest) :
    ∃ fields, readFields.run bs = .ok fields rest ∧ Follows start fields s := by
  refine Wire.entries_follows (R := fun s fields => Follows start fields s) ?_ h (Follows.refl start)
  intro s s' fields key bs rest hkey hR hread
  obtain ⟨kind, tail, rfl⟩ := List.exists_cons_of_ne_nil hkey
  obtain ⟨value, s₁, hvalue, hread⟩ := run_bind_eq_ok.mp hread
  obtain ⟨hset, rfl⟩ := run_ofExcept_eq_ok.mp hread
  exact ⟨_, Fields.run_collect hvalue fields, hR.append (sets_set hset)⟩

end OutputScope

/-! ## Lists of scopes -/

/-- What holds of the elements of three lists, row by row. -/
inductive Rows {α β γ : Type} (R : α → β → γ → Prop) : List α → List β → List γ → Prop
  | nil : Rows R [] [] []
  | cons {a : α} {b : β} {c : γ} {as : List α} {bs : List β} {cs : List γ} (hrow : R a b c)
      (hrest : Rows R as bs cs) : Rows R (a :: as) (b :: bs) (c :: cs)

/-- Scopes that are read one after the other follow their fields row by row.  Both readers go
through the same bytes, so each of them starts a row where the other one does. -/
theorem rows_of_run_mapM {α β γ : Type} {R : α → β → γ → Prop} {read : α → Reader γ}
    {readFields : Reader β}
    (hread : ∀ {a : α} {s : γ} {bs rest : Bytes}, (read a).run bs = .ok s rest →
      ∃ fields, readFields.run bs = .ok fields rest ∧ R a fields s)
    {starts : List α} {scopes : List γ} {bs rest : Bytes}
    (h : (starts.mapM read).run bs = .ok scopes rest) :
    ∃ fields, (Wire.many readFields starts.length).run bs = .ok fields rest ∧
      Rows R starts fields scopes := by
  -- Both readers leave the same bytes for the next row.
  induction starts generalizing scopes bs with
  | nil =>
      rw [List.mapM_nil] at h
      cases h
      exact ⟨[], rfl, .nil⟩
  | cons start starts ih =>
      rw [List.mapM_cons] at h
      obtain ⟨scope, s₁, hscope, h⟩ := run_bind_eq_ok.mp h
      obtain ⟨others, s₂, hothers, h⟩ := run_bind_eq_ok.mp h
      cases h
      obtain ⟨first, hfirst, hrow⟩ := hread hscope
      obtain ⟨rest, hrest, hrows⟩ := ih hothers
      refine ⟨first :: rest, ?_, .cons hrow hrows⟩
      rw [List.length_cons, Wire.many, run_bind_of_ok hfirst, run_bind_of_ok hrest]
      rfl

theorem many_eq_mapM_replicate {α β : Type} (read : α → Reader β) (a : α) (n : Nat) :
    Wire.many (read a) n = (List.replicate n a).mapM read := by
  induction n with
  | zero => rfl
  | succ n ih =>
      rw [List.replicate_succ, List.mapM_cons, Wire.many, ih]

namespace Psbt

/-- What is known of the inputs before their maps are read. -/
def Outline.inputStarts (o : Outline) : List InputScope :=
  o.txInputs.map .ofTxInput ++ List.replicate o.inputCount .blank

/-- What is known of the outputs before their maps are read. -/
def Outline.outputStarts (o : Outline) : List OutputScope :=
  o.txOutputs.map .ofTxOutput ++ List.replicate o.outputCount .blank

theorem readInputs_eq (o : Outline) : readInputs o = o.inputStarts.mapM InputScope.read := by
  rw [readInputs, Outline.inputStarts, List.mapM_append, List.mapM_map, many_eq_mapM_replicate]
  rfl

theorem readOutputs_eq (o : Outline) : readOutputs o = o.outputStarts.mapM OutputScope.read := by
  rw [readOutputs, Outline.outputStarts, List.mapM_append, List.mapM_map, many_eq_mapM_replicate]
  rfl

/-! ## The global map -/

namespace Outline

/-- An outline that says what was known before, except where a field replaces it. -/
structure Follows (start : Outline) (fields : Fields) (o : Outline) : Prop where
  txInputs : o.txInputs = start.txInputs
  txOutputs : o.txOutputs = start.txOutputs
  txVersion : o.txVersion =
    ((fields.last? [0x02]).map fun v => (Bytes.toNatLE v : Int)).or start.txVersion
  lockTime : o.lockTime =
    ((fields.last? [0x03]).map fun v => (Bytes.toNatLE v : Int)).or start.lockTime

theorem Follows.refl (o : Outline) : Follows o [] o := ⟨rfl, rfl, rfl, rfl⟩

theorem Follows.append_of_ne {start o o' : Outline} {fields : Fields} {key value : Bytes}
    (h : Follows start fields o) (hkey : key ≠ [0x02] ∧ key ≠ [0x03])
    (hsame : o'.txInputs = o.txInputs ∧ o'.txOutputs = o.txOutputs ∧
      o'.txVersion = o.txVersion ∧ o'.lockTime = o.lockTime) :
    Follows start (fields ++ [(key, value)]) o' := by
  obtain ⟨htxInputs, htxOutputs, htxVersion, hlockTime⟩ := hsame
  constructor
  · rw [htxInputs, h.txInputs]
  · rw [htxOutputs, h.txOutputs]
  · rw [htxVersion, h.txVersion, Fields.last?_append_singleton, if_neg (Ne.symm hkey.1)]
  · rw [hlockTime, h.lockTime, Fields.last?_append_singleton, if_neg (Ne.symm hkey.2)]

theorem follows_add {start o o' : Outline} {fields : Fields} {pair : Bytes × Bytes}
    (h : Follows start fields o) (hadd : add o pair = .ok o') :
    Follows start (fields ++ [pair]) o' := by
  obtain ⟨key, value⟩ := pair
  cases puts_of_add hadd with
  | txVersion =>
      refine ⟨h.txInputs, h.txOutputs, ?_, ?_⟩
      · rw [Fields.last?_append_singleton, if_pos rfl]
        rfl
      · rw [Fields.last?_append_singleton, if_neg (by decide)]
        exact h.lockTime
  | lockTime =>
      refine ⟨h.txInputs, h.txOutputs, ?_, ?_⟩
      · rw [Fields.last?_append_singleton, if_neg (by decide)]
        exact h.txVersion
      · rw [Fields.last?_append_singleton, if_pos rfl]
        rfl
  | unknown hkey => exact h.append_of_ne hkey ⟨rfl, rfl, rfl, rfl⟩
  | _ => exact h.append_of_ne (by simp) ⟨rfl, rfl, rfl, rfl⟩

theorem follows_foldlM_add {start o o' : Outline} {fields pairs : Fields}
    (h : Follows start fields o) (hadd : pairs.foldlM add o = .ok o') :
    Follows start (fields ++ pairs) o' := by
  induction pairs generalizing fields o with
  | nil =>
      cases hadd
      rwa [List.append_nil]
  | cons pair rest ih =>
      rw [List.foldlM_cons] at hadd
      obtain ⟨next, hnext, hadd⟩ := bind_eq_ok.mp hadd
      rw [← List.singleton_append, ← List.append_assoc]
      exact ih (follows_add h hnext) hadd

end Outline
end Psbt

/-! ## The whole -/

/-- What stands in the bytes of a partially signed transaction.  Nothing in it was checked
against anything else. -/
structure PsbtFields where
  /-- The transaction under the bare key zero. -/
  transaction : Option Transaction
  globalMap : Fields
  inputs : List Fields
  outputs : List Fields
  deriving DecidableEq

namespace PsbtFields

/-- What was read is the unsigned transaction with all that the fields replace in it. -/
structure Amends (q : PsbtFields) (t : Transaction) (p : Psbt) : Prop where
  txVersion : p.txVersion =
    some (((q.globalMap.last? [0x02]).map fun v => (Bytes.toNatLE v : Int)).getD t.version)
  lockTime : p.lockTime =
    some (((q.globalMap.last? [0x03]).map fun v => (Bytes.toNatLE v : Int)).getD t.lockTime)
  inputs : ∃ n, Rows InputScope.Follows
    (t.inputs.map .ofTxInput ++ List.replicate n .blank) q.inputs p.inputs
  outputs : ∃ n, Rows OutputScope.Follows
    (t.outputs.map .ofTxOutput ++ List.replicate n .blank) q.outputs p.outputs

end PsbtFields

namespace Psbt

def readFields : Reader PsbtFields := do
  if (← Reader.upTo magic.length) ≠ magic then MonadExcept.ofExcept Wire.refuse
  let g ← GlobalMap.read
  let o ← MonadExcept.ofExcept (Outline.ofGlobalMap g)
  let inputs ← Wire.many InputScope.readFields o.inputStarts.length
  let outputs ← Wire.many OutputScope.readFields o.outputStarts.length
  return { transaction := g.transaction, globalMap := g.others, inputs, outputs }

/-- The fields of a byte string that is read to its end.  There are none if the bytes cannot be
read. -/
def fieldsOf (bs : Bytes) : Except Failure PsbtFields := Wire.whole readFields bs

/-- What the reader of a transaction reads, part by part.  It takes the magic number, the global
map and the scopes, and puts them together. -/
theorem exists_of_parse {bs : Bytes} {p : Psbt} (h : parse bs = .ok p) :
    ∃ g o s₁ s₂ s₃, (Reader.upTo magic.length).run bs = .ok magic s₁ ∧
      GlobalMap.read.run s₁ = .ok g s₂ ∧ Outline.ofGlobalMap g = .ok o ∧
      (o.inputStarts.mapM InputScope.read).run s₂ = .ok p.inputs s₃ ∧
      (o.outputStarts.mapM OutputScope.read).run s₃ = .ok p.outputs [] ∧
      p = { version := g.version, txVersion := o.txVersion, lockTime := o.lockTime,
            inputs := p.inputs, outputs := p.outputs, xpubs := o.xpubs, unknown := o.unknown } := by
  have h := Wire.whole_eq_ok.mp h
  obtain ⟨start, s₁, hstart, h⟩ := run_bind_eq_ok.mp h
  have hmagic : start = magic := by
    by_contra hne
    simp only [if_pos hne] at h
    cases h
  simp only [if_neg (not_not.mpr hmagic)] at h
  obtain ⟨g, s₂, hg, h⟩ := run_bind_eq_ok.mp h
  obtain ⟨o, _, ho, h⟩ := run_bind_eq_ok.mp h
  obtain ⟨inputs, s₃, hinputs, h⟩ := run_bind_eq_ok.mp h
  obtain ⟨outputs, s₄, houtputs, h⟩ := run_bind_eq_ok.mp h
  cases h
  rw [readInputs_eq] at hinputs
  rw [readOutputs_eq] at houtputs
  obtain ⟨houtline, rfl⟩ := run_ofExcept_eq_ok.mp ho
  exact ⟨g, o, s₁, _, s₃, hmagic ▸ hstart, hg, houtline, hinputs, houtputs, rfl⟩

/-- Bytes that are read as a partially signed transaction are also read as fields, and the first
follows from the second.  Both readers take the same steps. -/
theorem parse_amends {bs : Bytes} {p : Psbt} (h : parse bs = .ok p) :
    ∃ q, fieldsOf bs = .ok q ∧ ∀ t, q.transaction = some t → q.Amends t p := by
  obtain ⟨g, o, s₁, s₂, s₃, hmagic, hg, houtline, hinputs, houtputs, hparts⟩ := exists_of_parse h
  obtain ⟨inputFields, hinputFields, hinputRows⟩ :=
    rows_of_run_mapM InputScope.read_follows hinputs
  obtain ⟨outputFields, houtputFields, houtputRows⟩ :=
    rows_of_run_mapM OutputScope.read_follows houtputs
  refine ⟨⟨g.transaction, g.others, inputFields, outputFields⟩, Wire.whole_eq_ok.mpr ?_, ?_⟩
  · rw [readFields, run_bind_of_ok hmagic]
    simp only [if_neg (not_not.mpr rfl)]
    rw [run_bind_of_ok hg, run_bind_of_ok (run_ofExcept_eq_ok.mpr ⟨houtline, rfl⟩),
      run_bind_of_ok hinputFields, run_bind_of_ok houtputFields]
    rfl
  · intro t ht
    have ht : g.transaction = some t := ht
    -- The outline starts from the unsigned transaction and goes through the global fields.
    rw [Outline.ofGlobalMap] at houtline
    rcases ite_eq_ok.mp houtline with ⟨-, houtline⟩ | ⟨-, houtline⟩
    · cases houtline
    have hfollows := Outline.follows_foldlM_add (Outline.Follows.refl _) houtline
    rw [List.nil_append, ht] at hfollows
    rw [hparts]
    constructor
    · show o.txVersion = _
      rw [hfollows.txVersion]
      exact Option.or_some
    · show o.lockTime = _
      rw [hfollows.lockTime]
      exact Option.or_some
    · have htxInputs : o.txInputs = t.inputs := hfollows.txInputs
      rw [← htxInputs]
      exact ⟨o.inputCount, hinputRows⟩
    · have htxOutputs : o.txOutputs = t.outputs := hfollows.txOutputs
      rw [← htxOutputs]
      exact ⟨o.outputCount, houtputRows⟩

end Psbt
end SignerHost
