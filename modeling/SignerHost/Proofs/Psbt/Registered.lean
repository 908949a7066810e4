import SignerHost.Proofs.Device.Lookup
import SignerHost.Psbt.Flatten

/-!
# A registered transaction can be looked up

Flattening gives one global map, one map for each input and one for each output.  Once they are
registered, a device that has the commitments finds the value of every key of every map, and
learns of every other key that it is absent.

* `Psbt.flatten_eq_ok` and `Psbt.run_register_eq_ok` say what a successful registration consists of.
* `find?_flattenGlobal` has the fields of the global map that the transaction itself determines.
* `Psbt.lookup_of_register` holds whatever the responder knew before.
-/

namespace SignerHost

open Step

/-! ## Flattening -/

theorem fixedLE_eq_ok {width : Nat} {n : Int} {bs : Bytes} :
    fixedLE width n = .ok bs ↔ Bytes.fits width n ∧ bs = Bytes.ofNatLE width n.toNat := by
  unfold fixedLE
  split_ifs with hfits
  · simp [hfits, eq_comm]
  · simp [hfits]

theorem Scope.write_eq_ok {fits : Bool} {pairs pairs' : List (Bytes × Bytes)} :
    write fits pairs = .ok pairs' ↔ fits = true ∧ pairs' = pairs := by
  unfold write
  split_ifs with hfits
  · simp [hfits, eq_comm]
  · simp [hfits]

/-- What a flattened input is made of. -/
theorem InputScope.exists_of_flatten {s : InputScope} {declared : UnsignedInput} {m : ByteMap}
    (h : s.flatten (some declared) = .ok m) :
    ∃ txid start position sequence, declared.txid = some txid ∧
      ByteMap.ofWritten s.pairs = .ok start ∧ fixedLE 4 declared.vout = .ok position ∧
      fixedLE 4 declared.sequence = .ok sequence ∧
      m = ((start.insert [0x0E] txid).insert [0x0F] position).insert [0x10] sequence := by
  obtain ⟨txid, vout, number⟩ := declared
  -- Without an id of its transaction an input is refused before anything is written.
  cases txid with
  | none => cases h
  | some txid =>
      obtain ⟨-, -, h⟩ := bind_eq_ok.mp h
      obtain ⟨pairs, hpairs, h⟩ := bind_eq_ok.mp h
      obtain ⟨start, hstart, h⟩ := bind_eq_ok.mp h
      obtain ⟨position, hposition, h⟩ := bind_eq_ok.mp h
      obtain ⟨sequence, hsequence, h⟩ := bind_eq_ok.mp h
      cases h
      obtain ⟨-, rfl⟩ := Scope.write_eq_ok.mp hpairs
      exact ⟨txid, start, position, sequence, rfl, hstart, hposition, hsequence, rfl⟩

/-- What a flattened output is made of. -/
theorem OutputScope.exists_of_flatten {s : OutputScope} {declared : UnsignedOutput} {m : ByteMap}
    (h : s.flatten (some declared) = .ok m) :
    ∃ script start amount, declared.script = some script ∧
      ByteMap.ofWritten s.pairs = .ok start ∧ fixedLE 8 declared.value = .ok amount ∧
      m = (start.insert [0x03] amount).insert [0x04] script := by
  obtain ⟨value, script⟩ := declared
  cases script with
  | none => cases h
  | some script =>
      obtain ⟨-, -, h⟩ := bind_eq_ok.mp h
      obtain ⟨pairs, hpairs, h⟩ := bind_eq_ok.mp h
      obtain ⟨start, hstart, h⟩ := bind_eq_ok.mp h
      obtain ⟨amount, hamount, h⟩ := bind_eq_ok.mp h
      cases h
      obtain ⟨-, rfl⟩ := Scope.write_eq_ok.mp hpairs
      exact ⟨script, start, amount, rfl, hstart, hamount, rfl⟩

theorem exists_of_mapM_some {α β : Type} {f : α → Except Failure β} {a : α} {result : Option β}
    (h : (some a).mapM f = .ok result) : ∃ b, f a = .ok b ∧ result = some b := by
  cases hf : f a with
  | ok b =>
      rw [Option.mapM_some, hf] at h
      cases h
      exact ⟨b, rfl, rfl⟩
  | error failure =>
      rw [Option.mapM_some, hf] at h
      cases h

namespace Psbt

/-- Adding a pair that is new changes no other value. -/
theorem find?_addUnknown {m m' : ByteMap} {pair : Bytes × Bytes}
    (h : addUnknown m pair = .ok m') {key value : Bytes} (hvalue : m.find? key = some value) :
    m'.find? key = some value := by
  unfold addUnknown at h
  split_ifs at h with hcontains
  cases h
  have hne : key ≠ pair.1 := by
    rintro rfl
    simp [ByteMap.contains, hvalue] at hcontains
  rw [ByteMap.find?_insert_of_ne _ _ hne, hvalue]

/-- The fields of the global map that are not copied from the transaction.  They have keys of
their own, which no other pair of the map may have. -/
theorem find?_flattenGlobal {p : Psbt} {m : ByteMap} (h : p.flattenGlobal = .ok m) :
    p.inputs.length < 2 ^ 64 ∧ p.outputs.length < 2 ^ 64 ∧
    (∃ txVersion, fixedLE 4 (p.txVersion.getD defaultTxVersion) = .ok txVersion ∧
      m.find? [0x02] = some txVersion) ∧
    (∀ n ∈ p.lockTime, ∃ lockTime, fixedLE 4 n = .ok lockTime ∧
      m.find? [0x03] = some lockTime) ∧
    m.find? [0x04] = some (CompactSize.encode p.inputs.length) ∧
    m.find? [0x05] = some (CompactSize.encode p.outputs.length) := by
  unfold flattenGlobal at h
  obtain ⟨xpubs, -, h⟩ := bind_eq_ok.mp h
  obtain ⟨txVersion, htxVersion, h⟩ := bind_eq_ok.mp h
  obtain ⟨lockTime, hlockTime, h⟩ := bind_eq_ok.mp h
  obtain ⟨inputs, hinputs, h⟩ := bind_eq_ok.mp h
  obtain ⟨outputs, houtputs, h⟩ := bind_eq_ok.mp h
  obtain ⟨hinputsLt, rfl⟩ := CompactSize.write_ofNat_eq_ok.mp hinputs
  obtain ⟨houtputsLt, rfl⟩ := CompactSize.write_ofNat_eq_ok.mp houtputs
  -- The pairs that are copied at the end have keys of their own.
  have hkeep : ∀ {key value : Bytes} {start : ByteMap},
      p.unknown.foldlM addUnknown start = .ok m → start.find? key = some value →
        m.find? key = some value :=
    fun h hvalue => foldlM_keeps (fun _ _ _ hadd => find?_addUnknown hadd) h hvalue
  refine ⟨hinputsLt, houtputsLt, ⟨txVersion, htxVersion, hkeep h ?_⟩, ?_, hkeep h ?_, hkeep h ?_⟩
  · cases lockTime <;> simp [ByteMap.find?_insert]
  · intro n hn
    rw [hn] at hlockTime
    obtain ⟨bs, hbs, rfl⟩ := exists_of_mapM_some hlockTime
    refine ⟨bs, hbs, hkeep h ?_⟩
    simp [ByteMap.find?_insert]
  · simp [ByteMap.find?_insert]
  · simp [ByteMap.find?_insert]

theorem flatten_eq_ok {p : Psbt} {f : Flattened} :
    p.flatten = .ok f ↔
      p.flattenGlobal = .ok f.globalMap ∧
      p.inputs.zipIdx.mapM p.flattenInput = .ok f.inputs ∧
      p.outputs.zipIdx.mapM p.flattenOutput = .ok f.outputs := by
  unfold flatten
  constructor
  · intro h
    obtain ⟨globalMap, hglobal, h⟩ := bind_eq_ok.mp h
    obtain ⟨inputs, hinputs, h⟩ := bind_eq_ok.mp h
    obtain ⟨outputs, houtputs, h⟩ := bind_eq_ok.mp h
    cases h
    exact ⟨hglobal, hinputs, houtputs⟩
  · rintro ⟨hglobal, hinputs, houtputs⟩
    rw [hglobal, hinputs, houtputs]
    rfl

/-- Every map that was flattened stands at the place of its scope. -/
theorem exists_of_mapM_zipIdx {α β : Type} {f : α × Nat → Except Failure β} {xs : List α}
    {ys : List β} (h : xs.zipIdx.mapM f = .ok ys) :
    ys.length = xs.length ∧
      ∀ i (hx : i < xs.length) (hy : i < ys.length), f (xs[i], i) = .ok ys[i] := by
  obtain ⟨hlength, hget⟩ := List.forall₂_iff_get.mp (mapM_eq_ok.mp h)
  rw [List.length_zipIdx] at hlength
  refine ⟨hlength.symm, ?_⟩
  intro i hx hy
  have hat := hget i (by rwa [List.length_zipIdx]) hy
  simpa using hat

theorem flattenInput_eq_ok {p : Psbt} {scope : InputScope} {i : Nat} {m : ByteMap} :
    p.flattenInput (scope, i) = .ok m ↔
      ∃ declared, p.unsignedInput i = .ok declared ∧ scope.flatten (some declared) = .ok m :=
  bind_eq_ok

theorem flattenOutput_eq_ok {p : Psbt} {scope : OutputScope} {i : Nat} {m : ByteMap} :
    p.flattenOutput (scope, i) = .ok m ↔
      ∃ declared, p.unsignedOutput i = .ok declared ∧ scope.flatten (some declared) = .ok m :=
  bind_eq_ok

end Psbt

/-! ## Registering -/

namespace ByteMap

/-- The lists that are registered for a map. -/
def lists (m : ByteMap) : List (List Bytes) := [m.keys, m.values]

end ByteMap

namespace Responder

theorem run_addMap_eq_ok {m : ByteMap} {r r' : Responder} {bs : Bytes} :
    (addMap m).run r = .ok bs r' ↔
      m.size < 2 ^ 64 ∧ bs = m.commitment ∧ r' = r.withLists m.lists := by
  rw [run_addMap]
  cases hcommitment : mapCommitment m with
  | ok commitment =>
      obtain ⟨hsize, rfl⟩ := ByteMap.mapCommitment_eq_ok.mp hcommitment
      constructor
      · intro h
        cases h
        exact ⟨hsize, rfl, rfl⟩
      · rintro ⟨-, rfl, rfl⟩
        rfl
  | error failure =>
      constructor
      · intro h
        cases h
      · rintro ⟨hsize, -, -⟩
        rw [ByteMap.mapCommitment_eq_ok.mpr ⟨hsize, rfl⟩] at hcommitment
        cases hcommitment

theorem run_mapM_addMap_eq_ok {ms : List ByteMap} {r r' : Responder} {commitments : List Bytes} :
    (ms.mapM addMap).run r = .ok commitments r' ↔
      (∀ m ∈ ms, m.size < 2 ^ 64) ∧ commitments = ms.map ByteMap.commitment ∧
        r' = r.withLists (ms.flatMap ByteMap.lists) := by
  -- Each map is added to the responder that the maps before it have left.
  induction ms generalizing r commitments with
  | nil =>
      rw [List.mapM_nil, EStateM.run_pure]
      constructor
      · intro h
        cases h
        simp [withLists]
      · rintro ⟨-, rfl, rfl⟩
        rfl
  | cons m rest ih =>
      rw [List.mapM_cons, run_bind_eq_ok, List.flatMap_cons, withLists_append,
        List.forall_mem_cons]
      constructor
      · rintro ⟨first, s, hfirst, h⟩
        obtain ⟨others, s', hothers, h⟩ := run_bind_eq_ok.mp h
        cases h
        obtain ⟨hsize, rfl, rfl⟩ := run_addMap_eq_ok.mp hfirst
        obtain ⟨hsizes, rfl, rfl⟩ := ih.mp hothers
        exact ⟨⟨hsize, hsizes⟩, rfl, rfl⟩
      · rintro ⟨⟨hsize, hsizes⟩, rfl, rfl⟩
        refine ⟨_, _, run_addMap_eq_ok.mpr ⟨hsize, rfl, rfl⟩, ?_⟩
        exact run_bind_of_ok (ih.mpr ⟨hsizes, rfl, rfl⟩)

end Responder

namespace Flattened

/-- All maps of a flattened transaction. -/
def maps (f : Flattened) : List ByteMap := f.globalMap :: (f.inputs ++ f.outputs)

/-- The lists that are registered for a flattened transaction. -/
def lists (f : Flattened) : List (List Bytes) :=
  f.maps.flatMap ByteMap.lists ++
    [f.inputs.map ByteMap.commitment, f.outputs.map ByteMap.commitment]

def commitments (f : Flattened) : PsbtCommitments where
  globalMap := f.globalMap.commitment
  inputCount := f.inputs.length
  inputsRoot := merkleRoot (f.inputs.map ByteMap.commitment)
  outputCount := f.outputs.length
  outputsRoot := merkleRoot (f.outputs.map ByteMap.commitment)

/-- The maps are registered exactly if each of them has a count. -/
theorem run_register_eq_ok {f : Flattened} {r r' : Responder} {c : PsbtCommitments} :
    f.register.run r = .ok c r' ↔
      (∀ m ∈ f.maps, m.size < 2 ^ 64) ∧ c = f.commitments ∧ r' = r.withLists f.lists := by
  have hmaps : (∀ m ∈ f.maps, m.size < 2 ^ 64) ↔
      f.globalMap.size < 2 ^ 64 ∧ (∀ m ∈ f.inputs, m.size < 2 ^ 64) ∧
        ∀ m ∈ f.outputs, m.size < 2 ^ 64 := by
    rw [maps, List.forall_mem_cons, List.forall_mem_append]
  -- The lists of the maps come first, and the two lists of commitments behind them.
  have hlists : r.withLists f.lists =
      (((r.withLists f.globalMap.lists).withLists (f.inputs.flatMap ByteMap.lists)).withLists
        (f.outputs.flatMap ByteMap.lists)).withLists
          [f.inputs.map ByteMap.commitment, f.outputs.map ByteMap.commitment] := by
    simp only [lists, maps, List.flatMap_cons, List.flatMap_append, Responder.withLists_append]
  rw [hmaps, hlists, register]
  constructor
  · intro h
    obtain ⟨globalMap, r₁, hglobal, h⟩ := run_bind_eq_ok.mp h
    obtain ⟨inputs, r₂, hinputs, h⟩ := run_bind_eq_ok.mp h
    obtain ⟨outputs, r₃, houtputs, h⟩ := run_bind_eq_ok.mp h
    obtain ⟨hglobalSize, rfl, rfl⟩ := Responder.run_addMap_eq_ok.mp hglobal
    obtain ⟨hinputSizes, rfl, rfl⟩ := Responder.run_mapM_addMap_eq_ok.mp hinputs
    obtain ⟨houtputSizes, rfl, rfl⟩ := Responder.run_mapM_addMap_eq_ok.mp houtputs
    rw [run_bind_of_ok (Responder.run_addList _ _), run_bind_of_ok (Responder.run_addList _ _),
      EStateM.run_pure] at h
    cases h
    exact ⟨⟨hglobalSize, hinputSizes, houtputSizes⟩, by simp [commitments], rfl⟩
  · rintro ⟨⟨hglobalSize, hinputSizes, houtputSizes⟩, rfl, rfl⟩
    rw [run_bind_of_ok (Responder.run_addMap_eq_ok.mpr ⟨hglobalSize, rfl, rfl⟩),
      run_bind_of_ok (Responder.run_mapM_addMap_eq_ok.mpr ⟨hinputSizes, rfl, rfl⟩),
      run_bind_of_ok (Responder.run_mapM_addMap_eq_ok.mpr ⟨houtputSizes, rfl, rfl⟩),
      run_bind_of_ok (Responder.run_addList _ _), run_bind_of_ok (Responder.run_addList _ _),
      EStateM.run_pure]
    simp [commitments, Responder.withLists]

end Flattened

/-! ## Looking up -/

namespace Flattened

/-- A responder that is ready to serve all lookups in the maps of a flattened transaction.  Its
queue is empty, and it knows every list and every commitment that a lookup asks for. -/
structure Served (f : Flattened) (run : List Hashed) (r : Responder) : Prop where
  idle : r.queue = []
  maps : ∀ m ∈ f.maps, Device.KnowsMap r m
  hashed : ∀ m ∈ f.maps, ∀ a ∈ hashedElements m.keys, a ∈ run
  inputs : r.KnowsList (f.inputs.map ByteMap.commitment)
  outputs : r.KnowsList (f.outputs.map ByteMap.commitment)

section Served

variable {f : Flattened} {run : List Hashed} (hrun : NoCollision run) {r : Responder}

include hrun

/-- Whatever was known before, registering makes the responder ready. -/
theorem served_withLists (hidle : r.queue = []) (hsizes : ∀ m ∈ f.maps, m.size < 2 ^ 64)
    (hshort : ∀ m ∈ f.maps, ∀ value ∈ m.values, value.length < 2 ^ 64 - 1)
    (hhashed : ∀ xs ∈ f.lists, ∀ a ∈ hashedElements xs, a ∈ run) :
    f.Served run (r.withLists f.lists) := by
  have hknown : ∀ xs ∈ f.lists, (r.withLists f.lists).KnowsList xs :=
    fun xs hxs => Responder.knowsList_withLists hrun hhashed hxs
  -- Both lists of a map are among those that were registered.
  have hmem : ∀ m ∈ f.maps, ∀ xs ∈ m.lists, xs ∈ f.lists := fun m hm xs hxs =>
    List.mem_append_left _ (List.mem_flatMap.mpr ⟨m, hm, hxs⟩)
  have hkeys : ∀ m ∈ f.maps, m.keys ∈ f.lists := fun m hm =>
    hmem m hm _ (by simp [ByteMap.lists])
  have hvalues : ∀ m ∈ f.maps, m.values ∈ f.lists := fun m hm =>
    hmem m hm _ (by simp [ByteMap.lists])
  exact
    { idle := by rw [Responder.queue_withLists, hidle]
      maps := fun m hm =>
        { keys := hknown _ (hkeys m hm)
          values := hknown _ (hvalues m hm)
          size := hsizes m hm
          short := hshort m hm }
      hashed := fun m hm => hhashed _ (hkeys m hm)
      inputs := hknown _ (List.mem_append_right _ (by simp))
      outputs := hknown _ (List.mem_append_right _ (by simp)) }

variable (h : f.Served run r) {key : Bytes} (hkey : .bytes (leafString key) ∈ run)

include h hkey

theorem Served.run_lookup_global :
    (Device.lookup f.commitments.globalMap key).run r = .ok (f.globalMap.find? key) r := by
  have hmem : f.globalMap ∈ f.maps := List.mem_cons_self
  exact Device.run_lookup h.idle hrun hkey (h.maps _ hmem) (h.hashed _ hmem)

theorem Served.run_lookupAt_input (hlength : f.inputs.length < 2 ^ 64) {i : Nat}
    (hi : i < f.inputs.length) :
    (Device.lookupAt f.commitments.inputsRoot f.inputs.length i key).run r =
      .ok (f.inputs[i].find? key) r := by
  have hmem : f.inputs[i] ∈ f.maps :=
    List.mem_cons_of_mem _ (List.mem_append_left _ (List.getElem_mem hi))
  exact Device.run_lookupAt h.idle hrun hkey h.inputs hlength hi (h.maps _ hmem) (h.hashed _ hmem)

theorem Served.run_lookupAt_output (hlength : f.outputs.length < 2 ^ 64) {i : Nat}
    (hi : i < f.outputs.length) :
    (Device.lookupAt f.commitments.outputsRoot f.outputs.length i key).run r =
      .ok (f.outputs[i].find? key) r := by
  have hmem : f.outputs[i] ∈ f.maps :=
    List.mem_cons_of_mem _ (List.mem_append_right _ (List.getElem_mem hi))
  exact Device.run_lookupAt h.idle hrun hkey h.outputs hlength hi (h.maps _ hmem)
    (h.hashed _ hmem)

end Served

/-- A key that has a value is hashed when its map is registered. -/
theorem Served.mem_of_find? {f : Flattened} {run : List Hashed} {r : Responder}
    (h : f.Served run r) {m : ByteMap} (hm : m ∈ f.maps) {key value : Bytes}
    (hvalue : m.find? key = some value) : .bytes (leafString key) ∈ run :=
  h.hashed m hm _ (Responder.bytes_leafString_mem (ByteMap.mem_keys_of_find? hvalue))

end Flattened

namespace Psbt

/-- The maps that a device sees of a transaction that can be flattened. -/
def maps (p : Psbt) : List ByteMap :=
  match p.flatten with
  | .ok f => f.maps
  | .error _ => []

/-- Everything that is hashed to register a transaction that can be flattened.  There are none if
it cannot be flattened. -/
def hashed (p : Psbt) : List Hashed :=
  match p.flatten with
  | .ok f => f.lists.flatMap hashedElements
  | .error _ => []

theorem run_register_eq_ok {p : Psbt} {r r' : Responder} {c : PsbtCommitments} :
    p.register.run r = .ok c r' ↔
      ∃ f, p.flatten = .ok f ∧ (∀ m ∈ f.maps, m.size < 2 ^ 64) ∧ c = f.commitments ∧
        r' = r.withLists f.lists := by
  rw [register, run_bind_eq_ok]
  constructor
  · rintro ⟨f, s, hflatten, hregister⟩
    obtain ⟨hf, rfl⟩ := run_ofExcept_eq_ok.mp hflatten
    exact ⟨f, hf, Flattened.run_register_eq_ok.mp hregister⟩
  · rintro ⟨f, hf, h⟩
    exact ⟨f, r, run_ofExcept_eq_ok.mpr ⟨hf, rfl⟩, Flattened.run_register_eq_ok.mpr h⟩

/-- After a transaction was registered, and whatever was registered before, the device finds the
value of a key in the global map, in the map of each input and in the map of each output, or
learns that the map does not have the key.  A value of `2 ^ 64 - 1` bytes could not be announced,
because its preimage has one byte more. -/
theorem lookup_of_register {p : Psbt} {r r' : Responder} {c : PsbtCommitments}
    (hidle : r.queue = []) (hregister : p.register.run r = .ok c r') (key : Bytes)
    (hrun : NoCollision (.bytes (leafString key) :: p.hashed))
    (hshort : ∀ m ∈ p.maps, ∀ value ∈ m.values, value.length < 2 ^ 64 - 1) :
    r'.queue = [] ∧ c.inputCount = p.inputs.length ∧ c.outputCount = p.outputs.length ∧
    (∃ m, p.flattenGlobal = .ok m ∧
      (Device.lookup c.globalMap key).run r' = .ok (m.find? key) r') ∧
    (∃ bs, (Device.lookup c.globalMap [0x04]).run r' = .ok (some bs) r' ∧
      Field.compactSize.run bs = .ok p.inputs.length []) ∧
    (∃ bs, (Device.lookup c.globalMap [0x05]).run r' = .ok (some bs) r' ∧
      Field.compactSize.run bs = .ok p.outputs.length []) ∧
    (∀ i (hi : i < p.inputs.length), ∃ declared m, p.unsignedInput i = .ok declared ∧
      p.inputs[i].flatten (some declared) = .ok m ∧
      (Device.lookupAt c.inputsRoot p.inputs.length i key).run r' = .ok (m.find? key) r') ∧
    ∀ i (hi : i < p.outputs.length), ∃ declared m, p.unsignedOutput i = .ok declared ∧
      p.outputs[i].flatten (some declared) = .ok m ∧
      (Device.lookupAt c.outputsRoot p.outputs.length i key).run r' = .ok (m.find? key) r' := by
  obtain ⟨f, hflatten, hsizes, rfl, rfl⟩ := run_register_eq_ok.mp hregister
  obtain ⟨hglobal, hinputs, houtputs⟩ := flatten_eq_ok.mp hflatten
  obtain ⟨hinputCount, hinputAt⟩ := exists_of_mapM_zipIdx hinputs
  obtain ⟨houtputCount, houtputAt⟩ := exists_of_mapM_zipIdx houtputs
  obtain ⟨hinputsLt, houtputsLt, -, -, hfind4, hfind5⟩ := find?_flattenGlobal hglobal
  simp only [hashed, maps, hflatten] at hrun hshort
  have hserved := Flattened.served_withLists hrun hidle hsizes hshort fun xs hxs a ha =>
    List.mem_cons_of_mem _ (List.mem_flatMap.mpr ⟨xs, hxs, ha⟩)
  have hkey : .bytes (leafString key) ∈
      Hashed.bytes (leafString key) :: f.lists.flatMap hashedElements := List.mem_cons_self
  have hglobalMem : f.globalMap ∈ f.maps := List.mem_cons_self
  refine ⟨hserved.idle, by simp [Flattened.commitments, hinputCount],
    by simp [Flattened.commitments, houtputCount],
    ⟨_, hglobal, hserved.run_lookup_global hrun hkey⟩,
    ⟨_, ?_, Field.run_compactSize_to_end hinputsLt⟩,
    ⟨_, ?_, Field.run_compactSize_to_end houtputsLt⟩, ?_, ?_⟩
  · -- The keys of both counts are in the map, so they were hashed when it was registered.
    rw [hserved.run_lookup_global hrun (hserved.mem_of_find? hglobalMem hfind4), hfind4]
  · rw [hserved.run_lookup_global hrun (hserved.mem_of_find? hglobalMem hfind5), hfind5]
  · intro i hi
    -- There is one flattened map for each input, at the same place.
    rw [← hinputCount] at hinputsLt
    have hi' : i < f.inputs.length := by rwa [hinputCount]
    obtain ⟨declared, hdeclared, hmap⟩ := flattenInput_eq_ok.mp (hinputAt i hi hi')
    have hlookup := hserved.run_lookupAt_input hrun hkey hinputsLt hi'
    rw [hinputCount] at hlookup
    exact ⟨declared, _, hdeclared, hmap, hlookup⟩
  · intro i hi
    rw [← houtputCount] at houtputsLt
    have hi' : i < f.outputs.length := by rwa [houtputCount]
    obtain ⟨declared, hdeclared, hmap⟩ := flattenOutput_eq_ok.mp (houtputAt i hi hi')
    have hlookup := hserved.run_lookupAt_output hrun hkey houtputsLt hi'
    rw [houtputCount] at hlookup
    exact ⟨declared, _, hdeclared, hmap, hlookup⟩

/-- A transaction of one input and one output, registered after a list that has nothing to do with
it. -/
theorem lookup_of_register_of_one_input :
    let p : Psbt :=
      { version := none, txVersion := some 2, lockTime := some 0, xpubs := [], unknown := []
        inputs := [.ofTxInput
          { txid := List.replicate 32 7, vout := 1, script := [], sequence := 5 }]
        outputs := [.ofTxOutput { value := 1000, script := [0x51] }] }
    let r : Responder := ({} : Responder).withList [[1], [2, 3]]
    ∃ c r', p.register.run r = .ok c r' ∧
      NoCollision (.bytes (leafString [0x10]) :: p.hashed) ∧
      ∃ declared m, p.unsignedInput (0 : Nat) = .ok declared ∧
        p.inputs[0].flatten (some declared) = .ok m ∧
        (Device.lookupAt c.inputsRoot 1 0 [0x10]).run r' = .ok (m.find? [0x10]) r' := by
  intro p r
  obtain ⟨f, hf⟩ : ∃ f, p.flatten = .ok f := exists_of_isOk (by decide +kernel)
  have hmaps : p.maps = f.maps := by rw [maps, hf]
  have hsizes : ∀ m ∈ p.maps, m.size < 2 ^ 64 := by decide +kernel
  have hshort : ∀ m ∈ p.maps, ∀ value ∈ m.values, value.length < 2 ^ 64 - 1 := by decide +kernel
  have hrun : NoCollision (.bytes (leafString [0x10]) :: p.hashed) := by decide +kernel
  -- The maps are small, so they can be registered, and the lookup follows from that.
  rw [hmaps] at hsizes
  have hregister : p.register.run r = .ok f.commitments (r.withLists f.lists) :=
    run_register_eq_ok.mpr ⟨f, hf, hsizes, rfl, rfl⟩
  have hidle : r.queue = [] := rfl
  obtain ⟨-, -, -, -, -, -, hinputs, -⟩ := lookup_of_register hidle hregister [0x10] hrun hshort
  exact ⟨_, _, hregister, hrun, hinputs 0 (by decide)⟩

end Psbt
end SignerHost
