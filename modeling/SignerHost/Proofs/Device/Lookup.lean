import SignerHost.Proofs.ByteMap
import SignerHost.Proofs.Device.Reading
import SignerHost.Proofs.Responder.Knowledge

/-!
# Looking up a key in a committed map

A device that holds the commitment of a map finds the value of any key, as long as the responder
knows the keys and the values of the map as lists.  The proofs and the preimages that it checks on
the way are the right ones, so no check fails.

* `run_checkedLeaf` and `run_element` read what a root stands for.
* `findIdx?_elementHash` needs that no other key of the map has the leaf of the key.
* `run_lookup` is the lookup in one map.
-/

namespace SignerHost

open Step Responder

/-! ## Commitments -/

namespace ByteMap

/-- The commitment to a map whose size has a form. -/
def commitment (m : ByteMap) : Bytes :=
  CompactSize.encode m.size ++ merkleRoot m.keys ++ merkleRoot m.values

theorem mapCommitment_eq_ok {m : ByteMap} {bs : Bytes} :
    mapCommitment m = .ok bs ↔ m.size < 2 ^ 64 ∧ bs = m.commitment := by
  -- Only the count may fail, and it fails exactly if it does not fit into a word.
  by_cases hsize : m.size < 2 ^ 64
  · have hwrite := CompactSize.write_ofNat hsize
    have hmap : mapCommitment m = .ok m.commitment := by
      rw [mapCommitment, hwrite]
      rfl
    rw [hmap]
    constructor
    · intro h
      cases h
      exact ⟨hsize, rfl⟩
    · rintro ⟨-, rfl⟩
      rfl
  · cases hwrite : CompactSize.write m.size with
    | ok count => exact absurd (CompactSize.write_ofNat_eq_ok.mp hwrite).1 hsize
    | error failure =>
        rw [mapCommitment, hwrite]
        constructor
        · intro h
          cases h
        · rintro ⟨h, -⟩
          exact absurd h hsize

theorem length_commitment_le (m : ByteMap) : m.commitment.length ≤ 73 := by
  have hcount := CompactSize.length_encode_le m.size
  rw [commitment, List.length_append, List.length_append, length_merkleRoot, length_merkleRoot]
  omega

end ByteMap

namespace Device

theorem run_readCommitment {m : ByteMap} (hsize : m.size < 2 ^ 64) :
    readCommitment.run m.commitment = .ok (m.size, merkleRoot m.keys, merkleRoot m.values) [] := by
  have hkeys : (Field.bytes 32).run (merkleRoot m.keys ++ merkleRoot m.values) =
      .ok (merkleRoot m.keys) (merkleRoot m.values) :=
    Field.run_bytes_append _ (by decide) (length_merkleRoot _)
  have hvalues : (Field.bytes 32).run (merkleRoot m.values) = .ok (merkleRoot m.values) [] :=
    Field.run_bytes_to_end (by decide) (length_merkleRoot _)
  rw [readCommitment, ByteMap.commitment, List.append_assoc,
    run_bind_of_ok (Field.run_compactSize_encode _ hsize), run_bind_of_ok hkeys,
    run_bind_of_ok hvalues, EStateM.run_pure]

/-! ## Checked reading -/

/-- What a leaf stands for is read, if it is known and short enough. -/
theorem run_readPreimage_leaf {r : Responder} (hidle : r.queue = []) {e : Bytes}
    (hknown : r.KnowsPreimage (leafString e)) (helement : e.length < 2 ^ 64 - 1) :
    (readPreimage (elementHash e)).run r = .ok (leafString e) r := by
  apply run_readPreimage hidle (length_elementHash _) hknown
  rw [leafString, List.length_cons]
  omega

section Checked

variable {r : Responder} (hidle : r.queue = []) {xs : List Bytes} (hsize : xs.length < 2 ^ 64)
  {i : Nat} (hi : i < xs.length)

include hidle hsize hi

/-- A leaf of a known list is read, and its proof is accepted. -/
theorem run_checkedLeaf (hknown : r.lists.lookup (merkleRoot xs) = some (.ofElements xs)) :
    (checkedLeaf (merkleRoot xs) xs.length i).run r = .ok (elementHash xs[i]) r := by
  obtain ⟨hread, hverify⟩ := run_readLeaf_elements hidle hknown hsize hi
  rw [checkedLeaf, run_bind_of_ok hread]
  simp only [hverify]
  rfl

/-- An element of a known list is read, and all that is checked on the way is right.  The leaf is
checked against the root, and the element against the leaf. -/
theorem run_element (hknown : r.KnowsList xs) (helement : xs[i].length < 2 ^ 64 - 1) :
    (element (merkleRoot xs) xs.length i).run r = .ok xs[i] r := by
  have hleaf := run_checkedLeaf hidle hsize hi hknown.list
  have hpreimage := run_readPreimage_leaf hidle (hknown.elements xs[i] (List.getElem_mem hi))
    helement
  have hdigest : ¬ sha256 (leafString xs[i]) ≠ elementHash xs[i] := not_not.mpr rfl
  rw [element, run_bind_of_ok hleaf, run_bind_of_ok hpreimage]
  simp only [if_neg hdigest]
  rfl

end Checked

/-! ## Lookup -/

/-- The leaf of a key stands where the key stands, if no other key has that leaf.  Another key
with that leaf would collide with it. -/
theorem findIdx?_elementHash {keys : List Bytes} {key : Bytes}
    (h : ∀ k ∈ keys, elementHash k = elementHash key → k = key) :
    (keys.map elementHash).findIdx? (· = elementHash key) = keys.findIdx? (· = key) := by
  induction keys with
  | nil => rfl
  | cons k rest ih =>
      have hrest := ih fun k' hk' => h k' (List.mem_cons_of_mem _ hk')
      rw [List.map_cons, List.findIdx?_cons, List.findIdx?_cons, hrest]
      have hsame : decide (elementHash k = elementHash key) = decide (k = key) := by
        rw [decide_eq_decide]
        constructor
        · exact h k List.mem_cons_self
        · rintro rfl
          rfl
      rw [hsame]

/-- The keys and the values of a map are known, and all of them can be handed out. -/
structure KnowsMap (r : Responder) (m : ByteMap) : Prop where
  keys : r.KnowsList m.keys
  values : r.KnowsList m.values
  size : m.size < 2 ^ 64
  short : ∀ value ∈ m.values, value.length < 2 ^ 64 - 1

section Map

variable {r : Responder} (hidle : r.queue = []) {run : List Hashed} (hrun : NoCollision run)
  {key : Bytes} (hkey : .bytes (leafString key) ∈ run)

include hidle hrun hkey

/-- The value of a key, or none, is found from the commitment of a map.  The position of the key
is asked for by its leaf, and the value is read from the same position. -/
theorem run_lookup {m : ByteMap} (hknown : KnowsMap r m)
    (hhashed : ∀ a ∈ hashedElements m.keys, a ∈ run) :
    (lookup m.commitment key).run r = .ok (m.find? key) r := by
  obtain ⟨hkeys, hvalues, hsize, hshort⟩ := hknown
  -- No other key of the map has the leaf of this key, so its position is that of the key.
  have hinj : ∀ k ∈ m.keys, elementHash k = elementHash key → k = key := by
    intro k hk hdigest
    have hsame := hrun _ (hhashed _ (bytes_leafString_mem hk)) _ hkey hdigest
    injection hsame with hstring
    injection hstring
  have hsizeLeaves : (MerkleList.ofElements m.keys).size < 2 ^ 64 := by
    show (m.keys.map elementHash).length < 2 ^ 64
    rwa [List.length_map, ByteMap.length_keys]
  have hask : (ask (.leafIndex (merkleRoot m.keys) (elementHash key))).run r =
      .ok (leafIndexAnswer (m.keys.findIdx? (· = key))) r := by
    apply run_ask_of_ok (q := .leafIndex _ _) ⟨length_merkleRoot _, length_elementHash _⟩
    rw [← findIdx?_elementHash hinj]
    exact run_answerLeafIndex_of_lookup _ hkeys.list hsizeLeaves.le
  have hposition : ∀ i ∈ m.keys.findIdx? (· = key), i < 2 ^ 64 := by
    intro i hfound
    have hlt := (List.findIdx?_eq_some_iff_findIdx_eq.mp hfound).1
    rw [ByteMap.length_keys] at hlt
    omega
  rw [lookup, run_bind_of_ok (run_parse_of_run (run_readCommitment hsize) r)]
  simp only []
  rw [run_bind_of_ok hask, run_bind_of_ok (run_parse_of_run (run_readIndexAnswer hposition) r),
    ByteMap.find?_eq_findIdx?]
  cases hfound : m.keys.findIdx? (· = key) with
  | none => rfl
  | some i =>
      obtain ⟨hlt, hat, -⟩ := List.findIdx?_eq_some_iff_getElem.mp hfound
      have hat : m.keys[i] = key := of_decide_eq_true hat
      have hltValues : i < m.values.length := by
        rw [ByteMap.length_values, ← ByteMap.length_keys]
        exact hlt
      -- The value stands at the position that was proved for the key.
      have hleaf := run_checkedLeaf hidle (by rwa [ByteMap.length_keys]) hlt hkeys.list
      have hvalue := run_element hidle (by rwa [ByteMap.length_values]) hltValues hvalues
        (hshort _ (List.getElem_mem hltValues))
      rw [ByteMap.length_keys, hat] at hleaf
      rw [ByteMap.length_values] at hvalue
      simp only []
      rw [run_bind_of_ok hleaf]
      simp only [ne_eq, not_true_eq_false, if_false]
      rw [run_bind_of_ok hvalue, Option.bind_some, List.getElem?_eq_getElem hltValues]
      rfl

/-- The value of a key, or none, is found from the root of a list of commitments. -/
theorem run_lookupAt {ms : List ByteMap} (hlist : r.KnowsList (ms.map ByteMap.commitment))
    (hlength : ms.length < 2 ^ 64) {i : Nat} (hi : i < ms.length) (hknown : KnowsMap r ms[i])
    (hhashed : ∀ a ∈ hashedElements ms[i].keys, a ∈ run) :
    (lookupAt (merkleRoot (ms.map ByteMap.commitment)) ms.length i key).run r =
      .ok (ms[i].find? key) r := by
  have hmapLength : (ms.map ByteMap.commitment).length = ms.length := List.length_map _
  have hi' : i < (ms.map ByteMap.commitment).length := by rwa [hmapLength]
  have hat : (ms.map ByteMap.commitment)[i] = ms[i].commitment := List.getElem_map _
  -- A commitment has a bounded length, whatever its map holds.
  have hshort : (ms.map ByteMap.commitment)[i].length < 2 ^ 64 - 1 := by
    have := ms[i].length_commitment_le
    rw [hat]
    omega
  have helement := run_element hidle (by rwa [hmapLength]) hi' hlist hshort
  rw [hmapLength, hat] at helement
  rw [lookupAt, run_bind_of_ok helement]
  exact run_lookup hidle hrun hkey hknown hhashed

end Map

end Device
end SignerHost
