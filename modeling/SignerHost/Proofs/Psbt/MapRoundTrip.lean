import SignerHost.Proofs.Psbt.MapReading
import SignerHost.Psbt.Flatten

/-!
# Maps are read back

What is written pair by pair is read back as the same map, whatever the order of the pairs, and
reading stops right behind the end of the map.

* `Writable` is what a pair needs: a key, and lengths that fit into a word.
* `whole_encode` says that such pairs are written as a whole map, and `run_many_encode` reads
  several maps, one behind the other.
* `run_read_repeated` refuses a key that occurs twice.
* `result_read_encode` has what becomes of any pairs, also with a key that occurs twice or is empty.
-/

namespace SignerHost

open Step

namespace MapCodec

/-! ## Maps as they are written -/

/-- A pair that can be written and read: there is a key, and both lengths are words. -/
structure Writable (pair : Bytes × Bytes) : Prop where
  nonempty : pair.1 ≠ []
  key : pair.1.length < 0x8000000000000000
  value : pair.2.length < 0x8000000000000000

theorem framed_prefixed {bs : Bytes} (h : bs.length < 0x8000000000000000) :
    Framed bs (Wire.prefixed bs) :=
  .behind h (CompactSize.form_encode (by omega))

theorem written_pairs {pairs : List (Bytes × Bytes)} (h : ∀ pair ∈ pairs, Writable pair) :
    Written pairs (pairs.flatMap encodePair) := by
  induction pairs with
  | nil => exact .nil
  | cons pair pairs ih =>
      obtain ⟨hpair, hpairs⟩ := List.forall_mem_cons.mp h
      rw [List.flatMap_cons, encodePair, List.append_assoc]
      exact .cons hpair.nonempty (framed_prefixed hpair.key) (framed_prefixed hpair.value)
        (ih hpairs)

/-- What is written is a whole map. -/
theorem whole_encode {pairs : List (Bytes × Bytes)} (hdistinct : DistinctKeys pairs)
    (h : ∀ pair ∈ pairs, Writable pair) : Whole pairs (encode pairs) :=
  have hform : CompactSize.Form 0 [0x00] := .one (b := 0x00) (by decide)
  ⟨hdistinct, _, [0x00], written_pairs h, hform, rfl⟩

theorem run_many_encode {maps : List (List (Bytes × Bytes))}
    (h : ∀ pairs ∈ maps, DistinctKeys pairs ∧ ∀ pair ∈ pairs, Writable pair) (rest : Bytes) :
    (Wire.many read maps.length).run (maps.flatMap encode ++ rest) =
      .ok (maps.map .ofPairs) rest := by
  induction maps with
  | nil => rfl
  | cons pairs maps ih =>
      obtain ⟨⟨hdistinct, hpairs⟩, hmaps⟩ := List.forall_mem_cons.mp h
      rw [List.length_cons, Wire.many, List.flatMap_cons, List.append_assoc,
        run_bind_of_ok ((whole_encode hdistinct hpairs).run_read _), run_bind_of_ok (ih hmaps)]
      rfl

/-! ## A key that occurs twice -/

theorem exists_first_repeated {pairs : List (Bytes × Bytes)} (h : ¬ DistinctKeys pairs) :
    ∃ front key value back, pairs = front ++ (key, value) :: back ∧ DistinctKeys front ∧
      key ∈ front.map Prod.fst := by
  induction pairs using List.reverseRecOn with
  | nil => exact absurd List.nodup_nil h
  | append_singleton pairs pair ih =>
      obtain ⟨key, value⟩ := pair
      by_cases hpairs : DistinctKeys pairs
      · have hkey : key ∈ pairs.map Prod.fst := by
          by_contra hnew
          exact h (hpairs.concat hnew value)
        exact ⟨pairs, key, value, [], rfl, hpairs, hkey⟩
      · obtain ⟨front, key', value', back, rfl, hfront, hkey⟩ := ih hpairs
        exact ⟨front, key', value', back ++ [(key, value)], by simp, hfront, hkey⟩

/-- The first pair with a key that was there before is refused, and left is what stands behind. -/
theorem run_read_repeated {front back : List (Bytes × Bytes)} {key value : Bytes}
    (hdistinct : DistinctKeys front) (hkey : key ∈ front.map Prod.fst)
    (h : ∀ pair ∈ front ++ (key, value) :: back, Writable pair) (rest : Bytes) :
    read.run (encode (front ++ (key, value) :: back) ++ rest) =
      .error (.psbt (.mapKey key)) (encode back ++ rest) := by
  have hfront : ∀ pair ∈ front, Writable pair := fun pair hpair =>
    h pair (List.mem_append_left _ hpair)
  have hpair : Writable (key, value) := h _ (List.mem_append_right _ List.mem_cons_self)
  have hstarts : StartsWith (encode (front ++ (key, value) :: back) ++ rest) front
      (Wire.prefixed key ++ (Wire.prefixed value ++ (encode back ++ rest))) :=
    ⟨hdistinct, _, written_pairs hfront, by simp [encode, encodePair]⟩
  exact hstarts.run_of_refuses
    (.repeated hkey hpair.nonempty (framed_prefixed hpair.key) (framed_prefixed hpair.value))

/-! ## Any pairs -/

theorem result_readInto_encode {pairs : List (Bytes × Bytes)}
    (h : ∀ pair ∈ pairs, pair.1.length < 0x8000000000000000 ∧
      pair.2.length < 0x8000000000000000) (m : ByteMap) :
    result (readInto m) (encode pairs) =
      (pairs.takeWhile fun pair => pair.1 ≠ []).foldlM ByteMap.insertNew m := by
  -- The map grows with the pairs that were read, and decides which keys are new.
  induction pairs generalizing m with
  | nil =>
      have hform : CompactSize.Form 0 [0x00] := .one (b := 0x00) (by decide)
      have hends : Ends ([0x00] ++ []) [] := .separator hform
      rw [show encode [] = [0x00] ++ [] from rfl, result_of_ok (run_readInto_of_ends hends)]
      rfl
  | cons pair pairs ih =>
      obtain ⟨key, value⟩ := pair
      obtain ⟨⟨hkey, hvalue⟩, hpairs⟩ := List.forall_mem_cons.mp h
      have hbytes : encode ((key, value) :: pairs) =
          Wire.prefixed key ++ (Wire.prefixed value ++ encode pairs) := by
        simp [encode, encodePair]
      by_cases hempty : key = []
      · -- The empty key reads as the end of the map, and what stands behind it is left.
        subst hempty
        have hends : Ends (Wire.prefixed [] ++ (Wire.prefixed value ++ encode pairs))
            (Wire.prefixed value ++ encode pairs) := .separator (CompactSize.form_encode (by decide))
        rw [hbytes, result_of_ok (run_readInto_of_ends hends)]
        rfl
      · have htake : ((key, value) :: pairs).takeWhile (fun pair => decide (pair.1 ≠ [])) =
            (key, value) :: pairs.takeWhile fun pair => pair.1 ≠ [] :=
          List.takeWhile_cons_of_pos (by simpa using hempty)
        have hstep := (congrArg (readInto m).run hbytes).trans
          (run_readInto_of_key hempty (framed_prefixed hkey) _)
        rw [htake, List.foldlM_cons]
        by_cases hknown : m.contains key = true
        · rw [run_bind_of_error
            (run_readField_of_repeated hknown (framed_prefixed hvalue) _)] at hstep
          rw [result_of_error hstep, ByteMap.insertNew, if_pos hknown]
          rfl
        · have hnew : m.contains key = false := by simpa using hknown
          rw [run_bind_of_ok (run_readField_of_framed hnew (framed_prefixed hvalue) _)] at hstep
          rw [result, hstep, ← result, ih hpairs, ByteMap.insertNew, if_neg hknown]
          rfl

/-- What was written pair by pair, with lengths that are words, is read back as `ByteMap.ofWritten`
says, whatever the keys are. -/
theorem result_read_encode {pairs : List (Bytes × Bytes)}
    (h : ∀ pair ∈ pairs, pair.1.length < 0x8000000000000000 ∧
      pair.2.length < 0x8000000000000000) :
    result read (encode pairs) = ByteMap.ofWritten pairs :=
  result_readInto_encode h .empty

/-- Maps are read back one after the other, each up to its end, with exactly the pairs that were
written.  A key that occurs twice is refused where it occurs again. -/
theorem read_encode :
    (∀ pairs, DistinctKeys pairs → (∀ pair ∈ pairs, Writable pair) → ∀ rest,
      ∃ m, read.run (encode pairs ++ rest) = .ok m rest ∧ m.entries.Perm pairs) ∧
    (∀ maps, (∀ pairs ∈ maps, DistinctKeys pairs ∧ ∀ pair ∈ pairs, Writable pair) → ∀ rest,
      ∃ ms, (Wire.many read maps.length).run (maps.flatMap encode ++ rest) = .ok ms rest ∧
        List.Forall₂ (fun m pairs => m.entries.Perm pairs) ms maps) ∧
    (∀ pairs, ¬ DistinctKeys pairs → (∀ pair ∈ pairs, Writable pair) → ∀ rest,
      ∃ front key value back, pairs = front ++ (key, value) :: back ∧ DistinctKeys front ∧
        key ∈ front.map Prod.fst ∧
        read.run (encode pairs ++ rest) = .error (.psbt (.mapKey key)) (encode back ++ rest)) := by
  refine ⟨?_, ?_, ?_⟩
  · intro pairs hdistinct hpairs rest
    exact ⟨_, (whole_encode hdistinct hpairs).run_read rest,
      (ByteMap.perm_entries_iff hdistinct).mpr rfl⟩
  · intro maps hmaps rest
    refine ⟨_, run_many_encode hmaps rest, ?_⟩
    rw [List.forall₂_map_left_iff, List.forall₂_same]
    intro pairs hmem
    exact (ByteMap.perm_entries_iff (hmaps pairs hmem).1).mpr rfl
  · intro pairs hrepeated hpairs rest
    -- Reading stops at the first key that stands there a second time.
    obtain ⟨front, key, value, back, rfl, hfront, hkey⟩ := exists_first_repeated hrepeated
    exact ⟨front, key, value, back, rfl, hfront, hkey,
      run_read_repeated hfront hkey hpairs rest⟩

/-- A key with an empty value, a value whose length takes three bytes, and then the same key. -/
theorem read_encode_of_long_value :
    ∃ first second : Bytes × Bytes, first = ([0x02], []) ∧
      second = ([0x01], List.replicate 253 0xAA) ∧
      DistinctKeys [first, second] ∧ ¬ DistinctKeys [first, second, first] ∧
      (∀ pair ∈ [first, second], Writable pair) ∧
      (∃ m, read.run (encode [first, second] ++ [0x01]) = .ok m [0x01] ∧
        m.entries.Perm [first, second]) ∧
      (∃ ms, (Wire.many read 2).run (encode [first, second] ++ encode [first]) = .ok ms [] ∧
        List.Forall₂ (fun m pairs => m.entries.Perm pairs) ms [[first, second], [first]]) ∧
      ∃ key rest, read.run (encode [first, second, first]) = .error (.psbt (.mapKey key)) rest := by
  let first : Bytes × Bytes := ([0x02], [])
  let second : Bytes × Bytes := ([0x01], List.replicate 253 0xAA)
  have hfirst : Writable first := ⟨by decide, by decide, by decide⟩
  have hsecond : Writable second :=
    ⟨by decide, by decide, List.length_replicate.trans_lt (by decide)⟩
  have htwo : ∀ pair ∈ [first, second], Writable pair := by simp [hfirst, hsecond]
  have hthree : ∀ pair ∈ [first, second, first], Writable pair := by simp [hfirst, hsecond]
  have hdistinct : DistinctKeys [first, second] := by decide
  have hmaps : ∀ pairs ∈ [[first, second], [first]],
      DistinctKeys pairs ∧ ∀ pair ∈ pairs, Writable pair := by
    have hone : DistinctKeys [first] := by decide
    exact List.forall_mem_cons.mpr ⟨⟨hdistinct, htwo⟩,
      List.forall_mem_singleton.mpr ⟨hone, List.forall_mem_singleton.mpr hfirst⟩⟩
  have hrepeated : ¬ DistinctKeys [first, second, first] := by decide
  obtain ⟨-, key, -, back, -, -, -, hrefused⟩ := read_encode.2.2 _ hrepeated hthree []
  rw [List.append_nil] at hrefused
  have hread := read_encode.2.1 _ hmaps []
  simp only [List.flatMap_cons, List.flatMap_nil, List.append_nil] at hread
  exact ⟨first, second, rfl, rfl, hdistinct, hrepeated, htwo,
    read_encode.1 _ hdistinct htwo [0x01], hread, key, _, hrefused⟩

end MapCodec

end SignerHost
