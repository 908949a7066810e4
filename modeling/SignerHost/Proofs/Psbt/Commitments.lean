import SignerHost.Proofs.Merkle.Collision
import SignerHost.Proofs.Psbt.Registered

/-!
# Commitments are binding

Two transactions with the same commitments have the same flattened maps, unless two of the strings
that were hashed to register them collide.

* A map is determined by its commitment: the count fixes the shape of both trees, and the keys
  and the values stand in the same order (`ByteMap.eq_or_collision`).
* The counts of inputs and outputs are part of the commitments, so the lists of commitments have
  the same lengths, and so have the lists of maps (`Flattened.eq_or_collision`).
-/

namespace SignerHost

/-- Collisions among the strings of some lists lie among those of more lists. -/
theorem Collision.mono_lists {xss yss xss' yss' : List (List Bytes)}
    (h : Collision (xss.flatMap hashedElements) (yss.flatMap hashedElements))
    (hxss : ∀ xs ∈ xss, xs ∈ xss') (hyss : ∀ ys ∈ yss, ys ∈ yss') :
    Collision (xss'.flatMap hashedElements) (yss'.flatMap hashedElements) := by
  refine h.mono ?_ ?_
  · intro a ha
    obtain ⟨xs, hxs, ha⟩ := List.mem_flatMap.mp ha
    exact List.mem_flatMap.mpr ⟨xs, hxss xs hxs, ha⟩
  · intro a ha
    obtain ⟨ys, hys, ha⟩ := List.mem_flatMap.mp ha
    exact List.mem_flatMap.mpr ⟨ys, hyss ys hys, ha⟩

/-- Two lists, each one of several that were hashed. -/
theorem elements_eq_or_collision_of_mem {xss yss : List (List Bytes)} {xs ys : List Bytes}
    (hxs : xs ∈ xss) (hys : ys ∈ yss) (hlength : xs.length = ys.length)
    (hroot : merkleRoot xs = merkleRoot ys) :
    xs = ys ∨ Collision (xss.flatMap hashedElements) (yss.flatMap hashedElements) :=
  (elements_eq_or_collision hlength hroot).imp_right fun hcollision =>
    hcollision.mono (fun _ ha => List.mem_flatMap.mpr ⟨xs, hxs, ha⟩)
      fun _ ha => List.mem_flatMap.mpr ⟨ys, hys, ha⟩

/-! ## One map -/

namespace ByteMap

/-- The three parts of a commitment can be told apart, because the roots have a fixed length. -/
theorem commitment_eq_iff {m m' : ByteMap} (hm : m.size < 2 ^ 64) (hm' : m'.size < 2 ^ 64) :
    m.commitment = m'.commitment ↔ m.size = m'.size ∧ merkleRoot m.keys = merkleRoot m'.keys ∧
      merkleRoot m.values = merkleRoot m'.values := by
  constructor
  · intro h
    obtain ⟨hfront, hvalues⟩ := List.append_inj' h (by simp)
    obtain ⟨hcount, hkeys⟩ := List.append_inj' hfront (by simp)
    exact ⟨(CompactSize.encode_inj hm hm').mp hcount, hkeys, hvalues⟩
  · rintro ⟨hsize, hkeys, hvalues⟩
    rw [commitment, commitment, hsize, hkeys, hvalues]

theorem eq_or_collision {m m' : ByteMap} (hm : m.size < 2 ^ 64) (hm' : m'.size < 2 ^ 64)
    (h : m.commitment = m'.commitment) :
    m = m' ∨ Collision (m.lists.flatMap hashedElements) (m'.lists.flatMap hashedElements) := by
  obtain ⟨hsize, hkeysRoot, hvaluesRoot⟩ := (commitment_eq_iff hm hm').mp h
  have hmem : ∀ m : ByteMap, m.keys ∈ m.lists ∧ m.values ∈ m.lists := fun m => by simp [lists]
  have hkeys := elements_eq_or_collision_of_mem (hmem m).1 (hmem m').1 (by simpa using hsize)
    hkeysRoot
  have hvalues := elements_eq_or_collision_of_mem (hmem m).2 (hmem m').2 (by simpa using hsize)
    hvaluesRoot
  rcases hkeys with hkeys | hcollision
  · rcases hvalues with hvalues | hcollision
    · exact .inl (eq_of_keys_of_values hkeys hvalues)
    · exact .inr hcollision
  · exact .inr hcollision

/-- Lists of maps with the same commitments, one by one. -/
theorem maps_eq_or_collision {ms ms' : List ByteMap} (hms : ∀ m ∈ ms, m.size < 2 ^ 64)
    (hms' : ∀ m ∈ ms', m.size < 2 ^ 64) (h : ms.map commitment = ms'.map commitment) :
    ms = ms' ∨ Collision ((ms.flatMap lists).flatMap hashedElements)
      ((ms'.flatMap lists).flatMap hashedElements) := by
  induction ms generalizing ms' with
  | nil => exact .inl (List.map_eq_nil_iff.mp h.symm).symm
  | cons m rest ih =>
      cases ms' with
      | nil => cases h
      | cons m' rest' =>
          -- The first pair that differs has one commitment, and the collision is among its own
          -- strings.
          obtain ⟨hfirst, hrest⟩ := List.cons_eq_cons.mp h
          obtain ⟨hm, hmsRest⟩ := List.forall_mem_cons.mp hms
          obtain ⟨hm', hmsRest'⟩ := List.forall_mem_cons.mp hms'
          rw [List.flatMap_cons, List.flatMap_cons]
          rcases eq_or_collision hm hm' hfirst with rfl | hcollision
          · rcases ih hmsRest hmsRest' hrest with rfl | hcollision
            · exact .inl rfl
            · exact .inr (hcollision.mono_lists (fun _ => List.mem_append_right _)
                fun _ => List.mem_append_right _)
          · exact .inr (hcollision.mono_lists (fun _ => List.mem_append_left _)
              fun _ => List.mem_append_left _)

/-- Lists of maps, committed to by their number and the root of their commitments.  First the
lists of the commitments are the same, and then the maps, one by one. -/
theorem maps_eq_or_collision_of_root {xss yss : List (List Bytes)} {ms ms' : List ByteMap}
    (hms : ∀ m ∈ ms, m.size < 2 ^ 64) (hms' : ∀ m ∈ ms', m.size < 2 ^ 64)
    (hlists : ∀ xs ∈ ms.map commitment :: ms.flatMap lists, xs ∈ xss)
    (hlists' : ∀ ys ∈ ms'.map commitment :: ms'.flatMap lists, ys ∈ yss)
    (hlength : ms.length = ms'.length)
    (hroot : merkleRoot (ms.map commitment) = merkleRoot (ms'.map commitment)) :
    ms = ms' ∨ Collision (xss.flatMap hashedElements) (yss.flatMap hashedElements) := by
  obtain ⟨hcommitments, hlists⟩ := List.forall_mem_cons.mp hlists
  obtain ⟨hcommitments', hlists'⟩ := List.forall_mem_cons.mp hlists'
  rcases elements_eq_or_collision_of_mem hcommitments hcommitments' (by simpa using hlength) hroot
    with hsame | hcollision
  · exact (maps_eq_or_collision hms hms' hsame).imp_right fun hcollision =>
      hcollision.mono_lists hlists hlists'
  · exact .inr hcollision

end ByteMap

/-! ## All maps -/

namespace Flattened

/-- The lists that are registered for each of the maps, and for the commitments of the inputs and of
the outputs, are registered for the transaction. -/
theorem mem_lists {f : Flattened} {xs : List Bytes} :
    xs ∈ f.lists ↔ xs ∈ f.globalMap.lists ∨
      xs ∈ f.inputs.map ByteMap.commitment :: f.inputs.flatMap ByteMap.lists ∨
      xs ∈ f.outputs.map ByteMap.commitment :: f.outputs.flatMap ByteMap.lists := by
  simp only [lists, maps, List.flatMap_cons, List.flatMap_append, List.mem_append, List.mem_cons,
    List.not_mem_nil, or_false]
  tauto

theorem eq_or_collision {f g : Flattened} (hf : ∀ m ∈ f.maps, m.size < 2 ^ 64)
    (hg : ∀ m ∈ g.maps, m.size < 2 ^ 64) (h : f.commitments = g.commitments) :
    f = g ∨ Collision (f.lists.flatMap hashedElements) (g.lists.flatMap hashedElements) := by
  obtain ⟨hglobal, hinputCount, hinputsRoot, houtputCount, houtputsRoot⟩ :=
    PsbtCommitments.mk.injEq .. ▸ h
  rw [maps, List.forall_mem_cons, List.forall_mem_append] at hf hg
  have hinputs := ByteMap.maps_eq_or_collision_of_root hf.2.1 hg.2.1
    (fun _ hxs => mem_lists.mpr (.inr (.inl hxs))) (fun _ hxs => mem_lists.mpr (.inr (.inl hxs)))
    (Int.ofNat_inj.mp hinputCount) hinputsRoot
  have houtputs := ByteMap.maps_eq_or_collision_of_root hf.2.2 hg.2.2
    (fun _ hxs => mem_lists.mpr (.inr (.inr hxs))) (fun _ hxs => mem_lists.mpr (.inr (.inr hxs)))
    (Int.ofNat_inj.mp houtputCount) houtputsRoot
  -- Any of the three parts may differ, and each has a collision of its own to show then.
  rcases ByteMap.eq_or_collision hf.1 hg.1 hglobal with hglobal | hcollision
  · rcases hinputs with hinputs | hcollision
    · rcases houtputs with houtputs | hcollision
      · left
        cases f
        cases g
        cases hglobal
        cases hinputs
        cases houtputs
        rfl
      · exact .inr hcollision
    · exact .inr hcollision
  · exact .inr (hcollision.mono_lists (fun _ hxs => mem_lists.mpr (.inl hxs))
      fun _ hxs => mem_lists.mpr (.inl hxs))

end Flattened

namespace Psbt

/-- Transactions that were registered with the same commitments, by any two responders, have the
same global map, the same maps of inputs in the same order and the same maps of outputs in the same
order, unless the strings hashed by the two registrations contain a collision. -/
theorem flatten_eq_or_collision_of_register {p q : Psbt} {r r' s s' : Responder}
    {c : PsbtCommitments} (hp : p.register.run r = .ok c r') (hq : q.register.run s = .ok c s') :
    ∃ f g, p.flatten = .ok f ∧ q.flatten = .ok g ∧
      ((f.globalMap = g.globalMap ∧ f.inputs = g.inputs ∧ f.outputs = g.outputs) ∨
        Collision p.hashed q.hashed) := by
  obtain ⟨f, hf, hfSizes, rfl, -⟩ := run_register_eq_ok.mp hp
  obtain ⟨g, hg, hgSizes, hsame, -⟩ := run_register_eq_ok.mp hq
  refine ⟨f, g, hf, hg, ?_⟩
  rw [hashed, hashed, hf, hg]
  refine (Flattened.eq_or_collision hfSizes hgSizes hsame).imp_left ?_
  rintro rfl
  exact ⟨rfl, rfl, rfl⟩

/-- A transaction that states the default version, and one that leaves it out, are committed to in
the same way.  The second one is registered after another list. -/
theorem flatten_eq_or_collision_of_default_version :
    let p : Psbt :=
      { version := none, txVersion := some 2, lockTime := some 0, xpubs := [], unknown := []
        inputs := [.ofTxInput
          { txid := List.replicate 32 7, vout := 1, script := [], sequence := 5 }]
        outputs := [.ofTxOutput { value := 1000, script := [0x51] }] }
    let q : Psbt := { p with txVersion := none }
    let s : Responder := ({} : Responder).withList [[1], [2, 3]]
    ∃ c r' s' f g, p.register.run {} = .ok c r' ∧ q.register.run s = .ok c s' ∧
      p.flatten = .ok f ∧ q.flatten = .ok g ∧
      ((f.globalMap = g.globalMap ∧ f.inputs = g.inputs ∧ f.outputs = g.outputs) ∨
        Collision p.hashed q.hashed) := by
  intro p q s
  -- A version that is not stated counts as the second one.
  have hflatten : q.flatten = p.flatten := rfl
  have hsizes : (p.flatten.toOption.any fun f => f.maps.all (·.size < 2 ^ 64)) = true := by
    decide +kernel
  cases hf : p.flatten with
  | error failure =>
      rw [hf] at hsizes
      cases hsizes
  | ok f =>
      have hsizes : ∀ m ∈ f.maps, m.size < 2 ^ 64 := by
        simpa [hf, Except.toOption] using hsizes
      have hp : p.register.run {} = .ok f.commitments _ :=
        run_register_eq_ok.mpr ⟨f, hf, hsizes, rfl, rfl⟩
      have hq : q.register.run s = .ok f.commitments _ :=
        run_register_eq_ok.mpr ⟨f, hflatten.trans hf, hsizes, rfl, rfl⟩
      obtain ⟨f', g', hf', hg', hbound⟩ := flatten_eq_or_collision_of_register hp hq
      exact ⟨_, _, _, f', g', hp, hq, hf.symm.trans hf', hg', hbound⟩

end Psbt
end SignerHost
