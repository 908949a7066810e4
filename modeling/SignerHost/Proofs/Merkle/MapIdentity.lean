import SignerHost.Proofs.Psbt.Commitments

/-!
# A commitment identifies a map

A map is built by insertions in any order, and only the last insertion under a key counts.  The
pairs are listed by increasing key, so the list depends on what the map holds and on nothing else,
and so does the commitment.

* `lastInserted` says what a sequence of insertions leaves under a key, without any map, and `held`
  lists the pairs that it leaves, in the order in which the keys came.
* `ofPairs_eq_iff` says that two sequences build one map exactly if they leave the same everywhere.
* `entries_ofPairs` says that insertions under different keys are the pairs of their map, once they
  are sorted.  `sortedCommitment` sorts the pairs that are held and commits to them, which gives
  the commitment of the map.
* `mapCommitment_identifies` has both directions for commitments, the second one up to a collision.
-/

namespace SignerHost

open Step

/-! ## Lists of pairs with different keys -/

/-- No key occurs twice. -/
def DistinctKeys (pairs : List (Bytes × Bytes)) : Prop := (pairs.map Prod.fst).Nodup

instance (pairs : List (Bytes × Bytes)) : Decidable (DistinctKeys pairs) :=
  inferInstanceAs (Decidable (List.Nodup _))

namespace DistinctKeys

variable {pairs : List (Bytes × Bytes)} (h : DistinctKeys pairs)

include h

theorem nodup : pairs.Nodup := List.Nodup.of_map _ h

theorem reverse : DistinctKeys pairs.reverse := by
  rw [DistinctKeys, List.map_reverse]
  exact List.nodup_reverse.mpr h

theorem of_prefix {front : List (Bytes × Bytes)} (hfront : front <+: pairs) :
    DistinctKeys front :=
  List.Nodup.sublist (hfront.sublist.map Prod.fst) h

theorem concat {key : Bytes} (hkey : key ∉ pairs.map Prod.fst) (value : Bytes) :
    DistinctKeys (pairs ++ [(key, value)]) := by
  rw [DistinctKeys, List.map_append, List.map_singleton, ← List.concat_eq_append]
  exact List.Nodup.concat hkey h

/-- What is found under a key is what stands beside it. -/
theorem lookup_eq_some_iff {key value : Bytes} :
    pairs.lookup key = some value ↔ (key, value) ∈ pairs := by
  induction pairs with
  | nil => simp
  | cons pair rest ih =>
      obtain ⟨k, v⟩ := pair
      obtain ⟨hk, hrest⟩ := List.nodup_cons.mp h
      rw [List.lookup_cons, List.mem_cons, Prod.mk.injEq]
      by_cases hkey : key = k
      · subst hkey
        have hnotMem : (key, value) ∉ rest := fun hmem =>
          hk (List.mem_map.mpr ⟨_, hmem, rfl⟩)
        simp [hnotMem, eq_comm]
      · rw [beq_false_of_ne hkey]
        simp only [hkey, false_and, false_or]
        exact ih hrest

/-- Pairs with the same key are the same pair. -/
theorem eq_of_fst_eq {a b : Bytes × Bytes} (ha : a ∈ pairs) (hb : b ∈ pairs)
    (hfst : a.1 = b.1) : a = b := by
  have hfirst := h.lookup_eq_some_iff.mpr ha
  rw [hfst, h.lookup_eq_some_iff.mpr hb] at hfirst
  exact Prod.ext hfst (Option.some.inj hfirst).symm

end DistinctKeys

namespace ByteMap

/-! ## A map is what it holds -/

theorem distinctKeys_entries (m : ByteMap) : DistinctKeys m.entries := by
  refine List.pairwise_map.mpr (m.increasing.imp fun {a b} hlt heq => ?_)
  rw [heq] at hlt
  exact List.lt_irrefl b.1 hlt

theorem mem_entries_iff {m : ByteMap} {key value : Bytes} :
    (key, value) ∈ m.entries ↔ m.find? key = some value :=
  m.distinctKeys_entries.lookup_eq_some_iff.symm

/-- The order of the keys leaves one list only for the same pairs. -/
theorem entries_eq_of_perm {m : ByteMap} {pairs : List (Bytes × Bytes)}
    (hsorted : pairs.Pairwise fun a b => a.1 ≤ b.1) (hperm : m.entries.Perm pairs) :
    m.entries = pairs := by
  have hle : m.entries.Pairwise fun a b => a.1 ≤ b.1 := m.increasing.imp fun h => List.le_of_lt h
  refine hperm.eq_of_pairwise ?_ hle hsorted
  intro a b ha hb hab hba
  exact m.distinctKeys_entries.eq_of_fst_eq ha (hperm.mem_iff.mpr hb) (List.le_antisymm hab hba)

/-- Maps with the same values under all keys are the same.  The order of the entries is fixed by
the keys, so nothing else is left to differ. -/
theorem ext_find? {m m' : ByteMap} (h : ∀ key, m.find? key = m'.find? key) : m = m' := by
  have hperm : m.entries.Perm m'.entries := by
    refine (List.perm_ext_iff_of_nodup m.distinctKeys_entries.nodup
      m'.distinctKeys_entries.nodup).mpr ?_
    rintro ⟨key, value⟩
    rw [mem_entries_iff, mem_entries_iff, h key]
  have hentries : m.entries = m'.entries :=
    entries_eq_of_perm (m'.increasing.imp fun h => List.le_of_lt h) hperm
  cases m
  cases m'
  cases hentries
  rfl

/-! ## Insertions -/

/-- What insertions, one after the other, leave under a key: the value that was inserted last.
Earlier values do not count. -/
def lastInserted (insertions : List (Bytes × Bytes)) (key : Bytes) : Option Bytes :=
  insertions.reverse.lookup key

/-- The same value is left under every key, or none by either.  The order of the insertions does
not show in it. -/
def SamePairs (first second : List (Bytes × Bytes)) : Prop :=
  ∀ key, lastInserted first key = lastInserted second key

theorem ofPairs_append_singleton (insertions : List (Bytes × Bytes)) (key value : Bytes) :
    ofPairs (insertions ++ [(key, value)]) = (ofPairs insertions).insert key value := by
  simp [ofPairs, List.foldl_append]

theorem find?_ofPairs (insertions : List (Bytes × Bytes)) (key : Bytes) :
    (ofPairs insertions).find? key = lastInserted insertions key := by
  induction insertions using List.reverseRecOn with
  | nil => rfl
  | append_singleton insertions pair ih =>
      obtain ⟨k, v⟩ := pair
      rw [ofPairs_append_singleton, find?_insert, ih, lastInserted, lastInserted,
        List.reverse_append, List.reverse_singleton, List.singleton_append, List.lookup_cons]
      by_cases hkey : key = k
      · simp [hkey]
      · simp [hkey, beq_false_of_ne hkey]

theorem contains_ofPairs {insertions : List (Bytes × Bytes)} {key : Bytes} :
    (ofPairs insertions).contains key = true ↔ key ∈ insertions.map Prod.fst := by
  simp [contains, find?_ofPairs, lastInserted, List.lookup_isSome_iff]

theorem ofPairs_eq_iff {first second : List (Bytes × Bytes)} :
    ofPairs first = ofPairs second ↔ SamePairs first second := by
  constructor
  · intro h key
    rw [← find?_ofPairs, h, find?_ofPairs]
  · intro h
    apply ext_find?
    intro key
    rw [find?_ofPairs, find?_ofPairs, h key]

section Distinct

variable {insertions : List (Bytes × Bytes)} (h : DistinctKeys insertions)

include h

theorem lastInserted_eq_some_iff {key value : Bytes} :
    lastInserted insertions key = some value ↔ (key, value) ∈ insertions := by
  rw [lastInserted, h.reverse.lookup_eq_some_iff, List.mem_reverse]

/-- Insertions under different keys may come in any order. -/
theorem samePairs_of_perm {others : List (Bytes × Bytes)} (hperm : insertions.Perm others) :
    SamePairs insertions others := by
  have hothers : DistinctKeys others := (hperm.map Prod.fst).nodup_iff.mp h
  intro key
  ext value
  rw [lastInserted_eq_some_iff h, lastInserted_eq_some_iff hothers, hperm.mem_iff]

/-- The pairs of a map are what was inserted, sorted by key. -/
theorem entries_ofPairs :
    (ofPairs insertions).entries = insertions.mergeSort fun a b => a.1 ≤ b.1 := by
  have hsort := List.mergeSort_perm insertions fun a b => a.1 ≤ b.1
  have hsorted : (insertions.mergeSort fun a b => a.1 ≤ b.1).Pairwise fun a b => a.1 ≤ b.1 := by
    refine (List.pairwise_mergeSort ?_ ?_ insertions).imp fun h => of_decide_eq_true h
    · intro a b c hab hbc
      simp only [decide_eq_true_eq] at hab hbc ⊢
      exact List.le_trans hab hbc
    · intro a b
      simpa using List.le_total a.1 b.1
  refine entries_eq_of_perm hsorted (List.Perm.trans ?_ hsort.symm)
  refine (List.perm_ext_iff_of_nodup (distinctKeys_entries _).nodup h.nodup).mpr ?_
  rintro ⟨key, value⟩
  rw [mem_entries_iff, find?_ofPairs, lastInserted_eq_some_iff h]

/-- A map that holds exactly the pairs is the one they build. -/
theorem perm_entries_iff {m : ByteMap} :
    m.entries.Perm insertions ↔ m = ofPairs insertions := by
  have hentries : (ofPairs insertions).entries.Perm insertions := by
    rw [entries_ofPairs h]
    exact List.mergeSort_perm _ _
  constructor
  · intro hperm
    apply ext_find?
    intro key
    ext value
    rw [← mem_entries_iff, ← mem_entries_iff, hperm.mem_iff, hentries.mem_iff]
  · rintro rfl
    exact hentries

end Distinct

/-! ### The pairs that are held -/

/-- Inserts a pair.  A key that is there already keeps its place and gets the new value. -/
def put (items : List (Bytes × Bytes)) (pair : Bytes × Bytes) : List (Bytes × Bytes) :=
  if pair.1 ∈ items.map Prod.fst then items.map fun e => if e.1 = pair.1 then pair else e
  else items ++ [pair]

/-- The pairs that are there after insertions, one after the other: every key stands where it was
inserted first, with the value that was inserted last. -/
def held (insertions : List (Bytes × Bytes)) : List (Bytes × Bytes) := insertions.foldl put []

theorem held_append_singleton (insertions : List (Bytes × Bytes)) (pair : Bytes × Bytes) :
    held (insertions ++ [pair]) = put (held insertions) pair := by
  simp [held, List.foldl_append]

/-- A new value changes no key. -/
theorem map_fst_replace (items : List (Bytes × Bytes)) (pair : Bytes × Bytes) :
    (items.map fun e => if e.1 = pair.1 then pair else e).map Prod.fst = items.map Prod.fst := by
  rw [List.map_map]
  refine List.map_congr_left fun e _ => ?_
  by_cases he : e.1 = pair.1
  · simp [he]
  · simp [he]

theorem distinctKeys_put {items : List (Bytes × Bytes)} (h : DistinctKeys items)
    (pair : Bytes × Bytes) : DistinctKeys (put items pair) := by
  unfold put
  split_ifs with hmem
  · rw [DistinctKeys, map_fst_replace]
    exact h
  · exact h.concat hmem pair.2

theorem mem_put {items : List (Bytes × Bytes)} {pair e : Bytes × Bytes} :
    e ∈ put items pair ↔ e = pair ∨ e ∈ items ∧ e.1 ≠ pair.1 := by
  unfold put
  -- A pair replaces the one with its key, or stands behind all others if there is none.
  split_ifs with hmem
  · rw [List.mem_map]
    constructor
    · rintro ⟨e, he, rfl⟩
      by_cases hkey : e.1 = pair.1
      · exact .inl (if_pos hkey)
      · rw [if_neg hkey]
        exact .inr ⟨he, hkey⟩
    · rintro (rfl | ⟨he, hkey⟩)
      · obtain ⟨e', he', hkey⟩ := List.mem_map.mp hmem
        exact ⟨e', he', if_pos hkey⟩
      · exact ⟨e, he, if_neg hkey⟩
  · have hother : e ∈ items → e.1 ≠ pair.1 := by
      rintro he hkey
      exact hmem (List.mem_map.mpr ⟨e, he, hkey⟩)
    simp only [List.mem_append, List.mem_singleton]
    tauto

/-- The pairs that are held have different keys, and leave the same as the insertions.  The
induction is on the insertions, from the last one back. -/
theorem held_spec (insertions : List (Bytes × Bytes)) :
    DistinctKeys (held insertions) ∧
      ∀ key value, (key, value) ∈ held insertions ↔ lastInserted insertions key = some value := by
  induction insertions using List.reverseRecOn with
  | nil => exact ⟨List.nodup_nil, by simp [held, lastInserted]⟩
  | append_singleton insertions pair ih =>
      obtain ⟨hdistinct, hmem⟩ := ih
      obtain ⟨k, v⟩ := pair
      rw [held_append_singleton]
      refine ⟨distinctKeys_put hdistinct _, fun key value => ?_⟩
      have hlast : lastInserted (insertions ++ [(k, v)]) key =
          if key = k then some v else lastInserted insertions key := by
        rw [← find?_ofPairs, ofPairs_append_singleton, find?_insert, find?_ofPairs]
      rw [mem_put, hmem, hlast, Prod.mk.injEq]
      by_cases hkey : key = k
      · simp [hkey, eq_comm]
      · simp [hkey]

theorem ofPairs_held (insertions : List (Bytes × Bytes)) :
    ofPairs (held insertions) = ofPairs insertions := by
  obtain ⟨hdistinct, hmem⟩ := held_spec insertions
  refine ofPairs_eq_iff.mpr fun key => ?_
  ext value
  rw [lastInserted_eq_some_iff hdistinct, hmem]

end ByteMap

/-! ## Commitments -/

open ByteMap

/-- Registering a map gives its commitment, or fails as computing the commitment fails. -/
theorem Responder.result_addMap (m : ByteMap) (r : Responder) :
    result (Responder.addMap m) r = mapCommitment m := by
  have hadd := Responder.run_addMap m r
  cases hcommitment : mapCommitment m with
  | ok commitment =>
      rw [hcommitment] at hadd
      exact result_of_ok hadd
  | error failure =>
      rw [hcommitment] at hadd
      exact result_of_error hadd

/-- Pairs in any order are sorted by key, and committed to by their number, the root of the keys and
the root of the values. -/
def sortedCommitment (items : List (Bytes × Bytes)) : Except Failure Bytes := do
  let sorted := items.mergeSort fun a b => a.1 ≤ b.1
  let count ← CompactSize.write items.length
  return count ++ merkleRoot (sorted.map Prod.fst) ++ merkleRoot (sorted.map Prod.snd)

/-- The commitment of a map sorts the pairs that the insertions leave. -/
theorem mapCommitment_ofPairs (insertions : List (Bytes × Bytes)) :
    mapCommitment (.ofPairs insertions) = sortedCommitment (held insertions) := by
  have hentries := entries_ofPairs (held_spec insertions).1
  rw [ofPairs_held] at hentries
  rw [mapCommitment, sortedCommitment, ByteMap.size, ByteMap.keys, ByteMap.values, hentries,
    List.length_mergeSort]

/-- Two maps, each built by any insertions.  The commitment of a map sorts the pairs that its
insertions leave.  If both maps hold the same pairs, then they have the same commitment, and it is
also the one that registering gives; in particular insertions under different keys may come in any
order.  If they have the same commitment, then they hold the same pairs, or two of the strings that
were hashed for them collide.  A map has a commitment if its number of pairs has a form. -/
theorem mapCommitment_identifies (first second : List (Bytes × Bytes)) :
    mapCommitment (.ofPairs first) = sortedCommitment (held first) ∧
    (SamePairs first second →
      mapCommitment (.ofPairs first) = mapCommitment (.ofPairs second) ∧
        ∀ r, result (Responder.addMap (.ofPairs second)) r = mapCommitment (.ofPairs first)) ∧
    (DistinctKeys first → first.Perm second → SamePairs first second) ∧
    (∀ commitment, mapCommitment (.ofPairs first) = .ok commitment →
      mapCommitment (.ofPairs second) = .ok commitment →
        SamePairs first second ∨
          Collision ((ofPairs first).lists.flatMap hashedElements)
            ((ofPairs second).lists.flatMap hashedElements)) ∧
    ((ofPairs first).size < 2 ^ 64 →
      ∃ commitment, mapCommitment (.ofPairs first) = .ok commitment) := by
  refine ⟨mapCommitment_ofPairs first, ?_, fun h => samePairs_of_perm h, ?_, ?_⟩
  · intro hsame
    rw [ofPairs_eq_iff.mpr hsame]
    exact ⟨rfl, Responder.result_addMap _⟩
  · intro commitment hfirst hsecond
    obtain ⟨hsizeFirst, rfl⟩ := mapCommitment_eq_ok.mp hfirst
    obtain ⟨hsizeSecond, hcommitment⟩ := mapCommitment_eq_ok.mp hsecond
    -- The sizes are part of the commitment, so lists of different lengths are told apart, too.
    have hbound := ByteMap.eq_or_collision hsizeFirst hsizeSecond hcommitment
    exact hbound.imp_left ofPairs_eq_iff.mp
  · intro hsize
    exact ⟨_, mapCommitment_eq_ok.mpr ⟨hsize, rfl⟩⟩

end SignerHost
