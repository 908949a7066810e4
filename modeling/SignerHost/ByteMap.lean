import SignerHost.Bytes

/-!
# Maps of byte strings

A map is the list of its pairs in the lexicographic order of the keys, each key once.  The order
is part of the type, so two maps with the same pairs are equal.

* `insert` replaces the value of a key that is present.
* `find?` gives the value of a key.
-/

namespace SignerHost

/-- The pairs of a map, by increasing key.  Keys are compared byte by byte, and a key comes
before those that it begins. -/
def Increasing (entries : List (Bytes × Bytes)) : Prop :=
  entries.Pairwise fun a b => a.1 < b.1

/-- A map of byte strings.  Its pairs are in order from the start, so whatever is committed to a
map does not depend on how it was made. -/
structure ByteMap where
  entries : List (Bytes × Bytes)
  increasing : Increasing entries

namespace ByteMap

def empty : ByteMap := ⟨[], List.Pairwise.nil⟩

/-- Puts a pair at its place in a list of pairs by increasing key.  The value of a key that is
there already is replaced in its place. -/
def insertEntry (key value : Bytes) : List (Bytes × Bytes) → List (Bytes × Bytes)
  | [] => [(key, value)]
  | (k, v) :: rest =>
      if key < k then (key, value) :: (k, v) :: rest
      else if key = k then (key, value) :: rest
      else (k, v) :: insertEntry key value rest

theorem mem_insertEntry {key value : Bytes} {entries : List (Bytes × Bytes)} {p : Bytes × Bytes}
    (h : p ∈ insertEntry key value entries) : p = (key, value) ∨ p ∈ entries := by
  induction entries with
  | nil => simpa [insertEntry] using h
  | cons e rest ih =>
    obtain ⟨k, v⟩ := e
    unfold insertEntry at h
    split at h
    · simpa using h
    · split at h
      · rcases List.mem_cons.mp h with h | h
        · exact .inl h
        · exact .inr (List.mem_cons_of_mem _ h)
      · rcases List.mem_cons.mp h with h | h
        · exact .inr (h ▸ List.mem_cons_self)
        · exact (ih h).imp id (List.mem_cons_of_mem _)

theorem increasing_insertEntry {key value : Bytes} {entries : List (Bytes × Bytes)}
    (h : Increasing entries) : Increasing (insertEntry key value entries) := by
  induction entries with
  | nil => simp [insertEntry, Increasing]
  | cons e rest ih =>
    obtain ⟨k, v⟩ := e
    obtain ⟨hk, hrest⟩ := List.pairwise_cons.mp h
    -- The key goes in front, takes the place of an equal one, or goes on behind a smaller one.
    unfold insertEntry
    split
    · rename_i hlt
      refine List.pairwise_cons.mpr ⟨?_, h⟩
      intro p hp
      rcases List.mem_cons.mp hp with rfl | hp
      · exact hlt
      · exact List.lt_trans hlt (hk p hp)
    · split
      · rename_i heq
        subst heq
        exact List.pairwise_cons.mpr ⟨hk, hrest⟩
      · rename_i hlt hne
        refine List.pairwise_cons.mpr ⟨?_, ih hrest⟩
        intro p hp
        rcases mem_insertEntry hp with rfl | hp
        · exact Std.lt_of_le_of_ne (List.not_lt.mp hlt) (Ne.symm hne)
        · exact hk p hp

/-- The map with a pair more.  A key that is there already keeps its place and gets the new
value. -/
def insert (m : ByteMap) (key value : Bytes) : ByteMap :=
  ⟨insertEntry key value m.entries, increasing_insertEntry m.increasing⟩

/-- The value of a key. -/
def find? (m : ByteMap) (key : Bytes) : Option Bytes := m.entries.lookup key

def contains (m : ByteMap) (key : Bytes) : Bool := (m.find? key).isSome

/-- The map of a list of pairs; a later pair replaces an earlier one with the same key.  The
order of the pairs does not show otherwise. -/
def ofPairs (pairs : List (Bytes × Bytes)) : ByteMap :=
  pairs.foldl (fun m p => m.insert p.1 p.2) empty

def size (m : ByteMap) : Nat := m.entries.length

/-- The keys in increasing order. -/
def keys (m : ByteMap) : List Bytes := m.entries.map Prod.fst

/-- The values in the order of their keys. -/
def values (m : ByteMap) : List Bytes := m.entries.map Prod.snd

end ByteMap

end SignerHost
