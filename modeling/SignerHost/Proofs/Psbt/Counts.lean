import SignerHost.Proofs.ByteMap
import SignerHost.Proofs.Psbt.Faults
import SignerHost.Proofs.Psbt.Fields
import SignerHost.Proofs.Psbt.Registered

/-!
# No more fields than bytes

Every map and every field takes at least one byte of the data, so what was read is no larger than
the data.  The counts that are written of it stay small.

* `Wire.bounds_entries` is the bound for one map, given that a field adds one entry at most.
* `Wire.bounds_mapM` is the bound for a list of maps.
* `Psbt.atMost_of_parse` has the bounds for a whole transaction.
-/

namespace SignerHost

open Step

/-! ## Readers that take bytes -/

namespace Wire

theorem lt_of_run_compactSize {s rest : Bytes} {n : Nat} (h : compactSize.run s = .ok n rest) :
    rest.length < s.length := by
  cases s with
  | nil => cases h
  | cons marker s =>
      rw [Parses.run_compactSize_cons] at h
      split_ifs at h
      · obtain ⟨-, rfl⟩ := EStateM.Result.ok.inj h
        exact Nat.lt_succ_self _
      · obtain ⟨-, rfl⟩ := EStateM.Result.ok.inj h
        exact Nat.lt_succ_of_le ((List.drop_suffix _ s).length_le)

theorem le_of_run_grab {n : Nat} {s rest bs : Bytes} (h : (Reader.grab n).run s = .ok bs rest) :
    rest.length ≤ s.length := by
  unfold Reader.grab at h
  split_ifs at h
  · cases h
    exact Nat.zero_le s.length
  · obtain ⟨-, rfl⟩ := EStateM.Result.ok.inj h
    exact (List.drop_suffix _ s).length_le
  · cases h

theorem lt_of_run_string {s rest bs : Bytes} (h : string.run s = .ok bs rest) :
    rest.length < s.length := by
  obtain ⟨n, s₁, hlength, h⟩ := run_bind_eq_ok.mp h
  obtain ⟨value, s₂, hvalue, h⟩ := run_bind_eq_ok.mp h
  have hlt := lt_of_run_compactSize hlength
  have hle := le_of_run_grab hvalue
  split_ifs at h
  · cases h
    omega
  · cases h

section Entries

variable {α : Type} (size : α → Nat) {field : α → Bytes → Reader α}
  (hfield : ∀ {a a' : α} {k start s rest : Bytes}, string.run start = .ok k s →
    (field a k).run s = .ok a' rest → size a' ≤ size a + 1 ∧ rest.length ≤ s.length)

include hfield

/-- The keys take the bytes, and each field adds one entry at most. -/
theorem bounds_entriesFrom {fuel : Nat} {a a' : α} {s rest : Bytes}
    (h : (entriesFrom string field fuel a).run s = .ok a' rest) :
    size a' + rest.length ≤ size a + s.length ∧ rest.length ≤ s.length ∧
      (0 < fuel → rest.length < s.length) := by
  -- Every turn takes at least the length of a key, so it takes more bytes than it adds entries.
  induction fuel generalizing a s with
  | zero =>
      cases h
      exact ⟨le_refl _, le_refl _, fun h => absurd h (lt_irrefl 0)⟩
  | succ fuel ih =>
      rw [entriesFrom] at h
      obtain ⟨k, s₁, hkey, h⟩ := run_bind_eq_ok.mp h
      have hlt := lt_of_run_string hkey
      split_ifs at h
      · cases h
        exact ⟨by omega, hlt.le, fun _ => hlt⟩
      · obtain ⟨next, s₂, hnext, h⟩ := run_bind_eq_ok.mp h
        obtain ⟨hsize, hle⟩ := hfield hkey hnext
        obtain ⟨hmeasure, hrest, -⟩ := ih h
        exact ⟨by omega, by omega, fun _ => by omega⟩

theorem bounds_entries {a a' : α} {s rest : Bytes}
    (h : (entries string field a).run s = .ok a' rest) :
    size a' + rest.length ≤ size a + s.length ∧ rest.length < s.length := by
  obtain ⟨hmeasure, -, hlt⟩ := bounds_entriesFrom size hfield h
  exact ⟨hmeasure, hlt (Nat.succ_pos _)⟩

end Entries

section Lists

variable {α β : Type} {n : Nat} {P : α → Prop}

/-- Each element takes a byte. -/
theorem bounds_mapM {f : β → Reader α} {bs : List β}
    (hf : ∀ b ∈ bs, ∀ {s rest : Bytes} {a : α}, s.length ≤ n → (f b).run s = .ok a rest →
      rest.length < s.length ∧ P a)
    {s rest : Bytes} {as : List α} (hs : s.length ≤ n) (h : (bs.mapM f).run s = .ok as rest) :
    as.length + rest.length ≤ s.length ∧ ∀ a ∈ as, P a := by
  -- The bound on the data is kept, since every reader leaves less than it was given.
  induction bs generalizing s as with
  | nil =>
      cases h
      exact ⟨by simp, fun _ ha => by cases ha⟩
  | cons b bs ih =>
      rw [List.mapM_cons] at h
      obtain ⟨first, s₁, hfirst, h⟩ := run_bind_eq_ok.mp h
      obtain ⟨others, s₂, hothers, h⟩ := run_bind_eq_ok.mp h
      cases h
      obtain ⟨hlt, hP⟩ := hf b List.mem_cons_self hs hfirst
      obtain ⟨hlength, hothersP⟩ :=
        ih (fun b hb => hf b (List.mem_cons_of_mem _ hb)) (by omega) hothers
      refine ⟨?_, List.forall_mem_cons.mpr ⟨hP, hothersP⟩⟩
      rw [List.length_cons]
      omega

end Lists

end Wire

/-! ## Maps of inputs and outputs -/

namespace Scope

theorem length_addNew {κ ν : Type} [DecidableEq κ] {entries entries' : List (κ × ν)}
    {key : Except Failure κ} {value : Except Failure ν}
    (h : addNew entries key value = .ok entries') : entries'.length = entries.length + 1 := by
  obtain ⟨k, -, h⟩ := bind_eq_ok.mp h
  rcases ite_eq_ok.mp h with ⟨-, h⟩ | ⟨-, h⟩
  · cases h
  · obtain ⟨v, -, h⟩ := bind_eq_ok.mp h
    cases h
    exact List.length_append

theorem length_addLeafOrigin {entries entries' : List (PublicKey × LeafOrigin)}
    {rest value : Bytes} (h : addLeafOrigin entries rest value = .ok entries') :
    entries'.length ≤ entries.length + 1 := by
  obtain ⟨key, -, h⟩ := bind_eq_ok.mp h
  rcases ite_eq_ok.mp h with ⟨-, h⟩ | ⟨-, h⟩
  · cases h
    exact Nat.le_succ _
  · obtain ⟨v, -, h⟩ := bind_eq_ok.mp h
    cases h
    exact List.length_append.le

theorem length_field_le (kind : UInt8) (value : Option Bytes) : (field kind value).length ≤ 1 := by
  cases value with
  | none => exact Nat.zero_le 1
  | some v => exact le_refl 1

theorem length_fields {κ ν : Type} (kind : UInt8) (key : κ → Bytes) (value : ν → Bytes)
    (entries : List (κ × ν)) : (fields kind key value entries).length = entries.length :=
  List.length_map _

end Scope

namespace ByteMap

theorem length_insertEntry_le (key value : Bytes) (entries : List (Bytes × Bytes)) :
    (insertEntry key value entries).length ≤ entries.length + 1 := by
  induction entries with
  | nil => exact le_refl 1
  | cons entry rest ih =>
      unfold insertEntry
      split_ifs
      · exact le_refl _
      · exact Nat.le_succ _
      · exact Nat.succ_le_succ ih

theorem size_insert_le {m : ByteMap} {n : Nat} (h : m.size ≤ n) (key value : Bytes) :
    (m.insert key value).size ≤ n + 1 :=
  (length_insertEntry_le key value m.entries).trans (Nat.succ_le_succ h)

end ByteMap

namespace InputScope

/-- The number of fields of which there may be several. -/
def repeated (s : InputScope) : Nat :=
  s.partialSignatures.length + s.origins.length + s.leafSignatures.length + s.leafScripts.length
    + s.leafOrigins.length + s.unknown.length

/-- There are nine other fields. -/
theorem length_pairs_le (s : InputScope) : s.pairs.length ≤ s.repeated + 9 := by
  have h0 := Scope.length_field_le 0x00 (s.previous.map Transaction.toBytes)
  have h1 := Scope.length_field_le 0x01 (s.spent.map TxOutput.toBytes)
  have h3 := Scope.length_field_le 0x03 (s.signatureHash.map fun n => Bytes.ofNatLE 4 n.toNat)
  have h4 := Scope.length_field_le 0x04 s.redeemScript
  have h5 := Scope.length_field_le 0x05 s.witnessScript
  have h7 := Scope.length_field_le 0x07 s.finalScript
  have h8 := Scope.length_field_le 0x08 (s.finalWitness.map Witness.toBytes)
  have h17 := Scope.length_field_le 0x17 (s.internalKey.map PublicKey.xOnly)
  have h18 := Scope.length_field_le 0x18 s.scriptRoot
  unfold pairs repeated
  simp only [List.length_append, Scope.length_fields]
  omega

/-- Only a field of which there may be several adds to their number, and it adds one at most. -/
theorem repeated_set {s s' : InputScope} {kind : UInt8} {rest value : Bytes}
    (h : s.set kind rest value = .ok s') : s'.repeated ≤ s.repeated + 1 := by
  cases puts_of_set h with
  | partialSignatures hplace | origins hplace | leafSignatures hplace | leafScripts hplace
  | unknown _ hplace =>
      simp only [repeated, Scope.length_addNew hplace]
      omega
  | leafOrigins hplace =>
      have := Scope.length_addLeafOrigin hplace
      simp only [repeated]
      omega
  | _ => exact Nat.le_succ s.repeated

theorem repeated_readField {s s' : InputScope} {key data rest : Bytes}
    (h : (readField s key).run data = .ok s' rest) : s'.repeated ≤ s.repeated + 1 := by
  cases key with
  | nil =>
      cases h
      exact Nat.le_succ _
  | cons kind tail =>
      rcases run_readField_cons h with ⟨-, _, _, _, -, -, rfl⟩ | ⟨-, _, -, hset⟩
      · exact Nat.le_succ s.repeated
      · exact repeated_set hset

theorem bounds_read {start s : InputScope} {data rest : Bytes}
    (h : (read start).run data = .ok s rest) :
    s.repeated + rest.length ≤ start.repeated + data.length ∧ rest.length < data.length :=
  Wire.bounds_entries repeated (fun hkey h => ⟨repeated_readField h,
    ((scansField_readField _ _).ok ⟨_, List.infix_refl _, hkey⟩ h).1.length_le⟩) h

end InputScope

namespace OutputScope

/-- The number of fields of which there may be several. -/
def repeated (s : OutputScope) : Nat := s.origins.length + s.leafOrigins.length + s.unknown.length

/-- There are three other fields. -/
theorem length_pairs_le (s : OutputScope) : s.pairs.length ≤ s.repeated + 3 := by
  have h0 := Scope.length_field_le 0x00 s.redeemScript
  have h1 := Scope.length_field_le 0x01 s.witnessScript
  have h5 := Scope.length_field_le 0x05 (s.internalKey.map PublicKey.xOnly)
  unfold pairs repeated
  simp only [List.length_append, Scope.length_fields]
  omega

theorem repeated_set {s s' : OutputScope} {kind : UInt8} {rest value : Bytes}
    (h : s.set kind rest value = .ok s') : s'.repeated ≤ s.repeated + 1 := by
  cases puts_of_set h with
  | origins hplace | unknown _ hplace =>
      simp only [repeated, Scope.length_addNew hplace]
      omega
  | leafOrigins hplace =>
      have := Scope.length_addLeafOrigin hplace
      simp only [repeated]
      omega
  | _ => exact Nat.le_succ s.repeated

theorem repeated_readField {s s' : OutputScope} {key data rest : Bytes}
    (h : (readField s key).run data = .ok s' rest) : s'.repeated ≤ s.repeated + 1 := by
  cases key with
  | nil =>
      cases h
      exact Nat.le_succ _
  | cons kind tail =>
      obtain ⟨value, s₁, -, h⟩ := run_bind_eq_ok.mp h
      exact repeated_set (run_ofExcept_eq_ok.mp h).1

theorem bounds_read {start s : OutputScope} {data rest : Bytes}
    (h : (read start).run data = .ok s rest) :
    s.repeated + rest.length ≤ start.repeated + data.length ∧ rest.length < data.length :=
  Wire.bounds_entries repeated (fun hkey h => ⟨repeated_readField h,
    ((scansField_readField _ _).ok ⟨_, List.infix_refl _, hkey⟩ h).1.length_le⟩) h

end OutputScope

/-! ## The whole transaction -/

namespace Psbt

theorem GlobalMap.length_readField {g g' : GlobalMap} {key s rest : Bytes}
    (h : (g.readField key).run s = .ok g' rest) : g'.others.length ≤ g.others.length + 1 := by
  rw [readField] at h
  obtain ⟨value, s₁, -, h⟩ := run_bind_eq_ok.mp h
  split_ifs at h
  · cases h
  · obtain ⟨transaction, s₂, -, h⟩ := run_bind_eq_ok.mp h
    cases h
    exact Nat.le_succ _
  · cases h
    exact Nat.le_succ _
  · cases h
  · cases h
    exact List.length_append.le

theorem GlobalMap.bounds_read {g : GlobalMap} {data rest : Bytes}
    (h : GlobalMap.read.run data = .ok g rest) :
    g.others.length + rest.length ≤ data.length := by
  have hbounds := (Wire.bounds_entries (fun g : GlobalMap => g.others.length)
    (fun hkey h => ⟨length_readField h,
      ((scansField_readField _ _).ok ⟨_, List.infix_refl _, hkey⟩ h).1.length_le⟩) h).1
  simpa using hbounds

theorem Outline.length_add {o o' : Outline} {pair : Bytes × Bytes} (h : o.add pair = .ok o') :
    o'.xpubs.length + o'.unknown.length ≤ o.xpubs.length + o.unknown.length + 1 := by
  obtain ⟨key, value⟩ := pair
  cases puts_of_add h with
  | xpub | unknown =>
      simp only [List.length_append, List.length_singleton]
      omega
  | _ => exact Nat.le_succ _

theorem Outline.repeated_of_mem_inputStarts {o : Outline} {start : InputScope}
    (h : start ∈ o.inputStarts) : start.repeated = 0 := by
  rcases List.mem_append.mp h with h | h
  · obtain ⟨i, -, rfl⟩ := List.mem_map.mp h
    rfl
  · rw [List.eq_of_mem_replicate h]
    rfl

theorem Outline.repeated_of_mem_outputStarts {o : Outline} {start : OutputScope}
    (h : start ∈ o.outputStarts) : start.repeated = 0 := by
  rcases List.mem_append.mp h with h | h
  · obtain ⟨t, -, rfl⟩ := List.mem_map.mp h
    rfl
  · rw [List.eq_of_mem_replicate h]
    rfl

/-- A transaction has at most `n` inputs, outputs and fields of each kind of map.  With the
length of the data for `n`, all counts can be written. -/
structure AtMost (n : Nat) (p : Psbt) : Prop where
  inputs : p.inputs.length ≤ n
  outputs : p.outputs.length ≤ n
  inputFields : ∀ s ∈ p.inputs, s.repeated ≤ n
  outputFields : ∀ s ∈ p.outputs, s.repeated ≤ n
  globalFields : p.xpubs.length + p.unknown.length ≤ n

/-- A transaction is no larger than its bytes.  Every map and every field in it takes at least a
byte. -/
theorem atMost_of_parse {bs : Bytes} {p : Psbt} (h : parse bs = .ok p) : p.AtMost bs.length := by
  obtain ⟨g, o, s₁, s₂, s₃, hmagic, hg, ho, hinputs, houtputs, hparts⟩ := exists_of_parse h
  have hstart := ((Parses.upTo magic.length).ok (List.infix_refl bs) hmagic).1.length_le
  have hglobal := GlobalMap.bounds_read hg
  have hothers : o.xpubs.length + o.unknown.length ≤ g.others.length := by
    rw [Outline.ofGlobalMap] at ho
    rcases ite_eq_ok.mp ho with ⟨-, ho⟩ | ⟨-, ho⟩
    · cases ho
    · have hstart : (Outline.ofTransaction? g.transaction).xpubs = [] ∧
          (Outline.ofTransaction? g.transaction).unknown = [] := by
        cases g.transaction <;> exact ⟨rfl, rfl⟩
      have hadded := foldlM_le (fun o : Outline => o.xpubs.length + o.unknown.length)
        (fun _ _ _ => Outline.length_add) ho
      rw [hstart.1, hstart.2] at hadded
      simpa using hadded
  -- A scope starts without repeated fields, so all that it has were read.
  have hinput : ∀ start ∈ o.inputStarts, ∀ {t rest : Bytes} {scope : InputScope},
      t.length ≤ bs.length → (InputScope.read start).run t = .ok scope rest →
        rest.length < t.length ∧ scope.repeated ≤ bs.length := by
    intro start hstart t rest scope hle hread
    have hbounds := InputScope.bounds_read hread
    rw [Outline.repeated_of_mem_inputStarts hstart] at hbounds
    exact ⟨hbounds.2, by omega⟩
  have houtput : ∀ start ∈ o.outputStarts, ∀ {t rest : Bytes} {scope : OutputScope},
      t.length ≤ bs.length → (OutputScope.read start).run t = .ok scope rest →
        rest.length < t.length ∧ scope.repeated ≤ bs.length := by
    intro start hstart t rest scope hle hread
    have hbounds := OutputScope.bounds_read hread
    rw [Outline.repeated_of_mem_outputStarts hstart] at hbounds
    exact ⟨hbounds.2, by omega⟩
  obtain ⟨hinputCount, hinputFields⟩ := Wire.bounds_mapM hinput (by omega) hinputs
  obtain ⟨houtputCount, houtputFields⟩ := Wire.bounds_mapM houtput (by omega) houtputs
  exact {
    inputs := by omega
    outputs := by omega
    inputFields := hinputFields
    outputFields := houtputFields
    globalFields := by
      rw [hparts]
      show o.xpubs.length + o.unknown.length ≤ bs.length
      omega }

end Psbt

/-! ## The sizes of the maps -/

namespace ByteMap

theorem size_ofWritten_le {pairs : List (Bytes × Bytes)} {m : ByteMap}
    (h : ofWritten pairs = .ok m) : m.size ≤ pairs.length := by
  have hsize := foldlM_le size (fun m pair m' hadd => ?_) h
  · rw [show empty.size = 0 from rfl, Nat.zero_add] at hsize
    exact hsize.trans (List.takeWhile_sublist _).length_le
  · rcases ite_eq_ok.mp hadd with ⟨-, hadd⟩ | ⟨-, hadd⟩
    · cases hadd
    · cases hadd
      exact size_insert_le (le_refl _) _ _

theorem size_ofPairs_le (pairs : List (Bytes × Bytes)) : (ofPairs pairs).size ≤ pairs.length := by
  have hfold : ∀ m : ByteMap,
      (pairs.foldl (fun m p => m.insert p.1 p.2) m).size ≤ m.size + pairs.length := by
    induction pairs with
    | nil => exact fun m => le_refl _
    | cons pair pairs ih =>
        intro m
        have hinsert := size_insert_le (le_refl m.size) pair.1 pair.2
        have hrest := ih (m.insert pair.1 pair.2)
        rw [List.foldl_cons, List.length_cons]
        omega
  have hsize := hfold empty
  rwa [show empty.size = 0 from rfl, Nat.zero_add] at hsize

end ByteMap

/-- Three fields are added to those of an input. -/
theorem InputScope.size_flatten_le {s : InputScope} {declared : UnsignedInput} {m : ByteMap}
    (h : s.flatten (some declared) = .ok m) : m.size ≤ s.pairs.length + 3 := by
  obtain ⟨txid, start, position, sequence, -, hstart, -, -, rfl⟩ := exists_of_flatten h
  have hpairs := ByteMap.size_ofWritten_le hstart
  have hposition := ByteMap.size_insert_le (ByteMap.size_insert_le hpairs [0x0E] txid)
    [0x0F] position
  exact ByteMap.size_insert_le hposition [0x10] sequence

/-- Two fields are added to those of an output. -/
theorem OutputScope.size_flatten_le {s : OutputScope} {declared : UnsignedOutput} {m : ByteMap}
    (h : s.flatten (some declared) = .ok m) : m.size ≤ s.pairs.length + 2 := by
  obtain ⟨script, start, amount, -, hstart, -, rfl⟩ := exists_of_flatten h
  have hamount := ByteMap.size_insert_le (ByteMap.size_ofWritten_le hstart) [0x03] amount
  exact ByteMap.size_insert_le hamount [0x04] script

namespace Psbt

variable {p : Psbt}

theorem size_addUnknown_le {m m' : ByteMap} {pair : Bytes × Bytes}
    (h : addUnknown m pair = .ok m') : m'.size ≤ m.size + 1 := by
  rcases ite_eq_ok.mp h with ⟨-, h⟩ | ⟨-, h⟩
  · cases h
  · cases h
    exact ByteMap.size_insert_le (le_refl _) _ _

/-- Five fields are added to those of the global map. -/
theorem size_flattenGlobal_le {m : ByteMap} (h : p.flattenGlobal = .ok m) :
    m.size ≤ p.xpubs.length + p.unknown.length + 5 := by
  unfold flattenGlobal at h
  obtain ⟨xpubs, hxpubs, h⟩ := bind_eq_ok.mp h
  obtain ⟨txVersion, -, h⟩ := bind_eq_ok.mp h
  obtain ⟨lockTime, -, h⟩ := bind_eq_ok.mp h
  obtain ⟨inputs, -, h⟩ := bind_eq_ok.mp h
  obtain ⟨outputs, -, h⟩ := bind_eq_ok.mp h
  have hunknown := foldlM_le ByteMap.size (fun _ _ _ hadd => size_addUnknown_le hadd) h
  obtain ⟨-, rfl⟩ := Scope.write_eq_ok.mp hxpubs
  have hkeys := ByteMap.size_ofPairs_le
    (Scope.fields 0x01 ExtendedKey.toBytes KeyOrigin.toBytes p.xpubs)
  rw [Scope.length_fields] at hkeys
  have hversion := ByteMap.size_insert_le hkeys [0x02] txVersion
  -- Without a lock time there is one field less.
  have hstated : ∀ {stated : ByteMap}, stated.size ≤ p.xpubs.length + 2 →
      (((stated.insert [0x04] inputs).insert [0x05] outputs).insert [0xFB]
        (Bytes.ofNatLE 4 2)).size ≤ p.xpubs.length + 5 := fun hstated =>
    ByteMap.size_insert_le
      (ByteMap.size_insert_le (ByteMap.size_insert_le hstated [0x04] inputs) [0x05] outputs) _ _
  cases lockTime with
  | none =>
      have hsize := hstated (hversion.trans (Nat.le_succ _))
      simp only [] at hunknown
      omega
  | some bs =>
      have hsize := hstated (ByteMap.size_insert_le hversion [0x03] bs)
      simp only [] at hunknown
      omega

/-- The scope of a map that was flattened. -/
theorem exists_of_mem_maps {α : Type} {flatten : α × Nat → Except Failure ByteMap}
    {scopes : List α} {ms : List ByteMap} (h : scopes.zipIdx.mapM flatten = .ok ms) {m : ByteMap}
    (hm : m ∈ ms) : ∃ s ∈ scopes, ∃ i, flatten (s, i) = .ok m := by
  obtain ⟨hlength, hat⟩ := exists_of_mapM_zipIdx h
  obtain ⟨i, hi, rfl⟩ := List.getElem_of_mem hm
  have hi' : i < scopes.length := hlength ▸ hi
  exact ⟨scopes[i], List.getElem_mem hi', i, hat i hi' hi⟩

theorem size_le_of_mem_maps {n : Nat} (hp : p.AtMost n) {f : Flattened} (h : p.flatten = .ok f)
    {m : ByteMap} (hm : m ∈ f.maps) : m.size ≤ n + 12 := by
  obtain ⟨hglobal, hinputs, houtputs⟩ := flatten_eq_ok.mp h
  -- The map is the global one, or one of an input, or one of an output.
  rcases List.mem_cons.mp hm with rfl | hm
  · have hsize := size_flattenGlobal_le hglobal
    have hfields := hp.globalFields
    omega
  rcases List.mem_append.mp hm with hm | hm
  · obtain ⟨s, hs, i, hflatten⟩ := exists_of_mem_maps hinputs hm
    obtain ⟨declared, -, hflatten⟩ := flattenInput_eq_ok.mp hflatten
    have hsize := InputScope.size_flatten_le hflatten
    have hpairs := s.length_pairs_le
    have hfields := hp.inputFields s hs
    omega
  · obtain ⟨s, hs, i, hflatten⟩ := exists_of_mem_maps houtputs hm
    obtain ⟨declared, -, hflatten⟩ := flattenOutput_eq_ok.mp hflatten
    have hsize := OutputScope.size_flatten_le hflatten
    have hpairs := s.length_pairs_le
    have hfields := hp.outputFields s hs
    omega

end Psbt

end SignerHost
