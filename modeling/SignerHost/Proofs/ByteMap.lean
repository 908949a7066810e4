import Mathlib.Tactic
import SignerHost.ByteMap

/-!
# Maps and their lists of keys and values

The keys and the values of a map are listed in the same order, so the position of a key is the
position of its value.  Inserting a pair changes the value of one key only.
-/

namespace SignerHost
namespace ByteMap

@[simp] theorem length_keys (m : ByteMap) : m.keys.length = m.size := List.length_map _

@[simp] theorem length_values (m : ByteMap) : m.values.length = m.size := List.length_map _

/-- A map is its keys and its values, side by side. -/
theorem eq_of_keys_of_values {m m' : ByteMap} (hkeys : m.keys = m'.keys)
    (hvalues : m.values = m'.values) : m = m' := by
  have hzip : ∀ m : ByteMap, m.entries = m.keys.zip m.values := by
    intro m
    rw [keys, values, ← List.unzip_fst, ← List.unzip_snd, List.zip_unzip]
  have hentries : m.entries = m'.entries := by rw [hzip m, hzip m', hkeys, hvalues]
  cases m
  cases m'
  cases hentries
  rfl

/-- The value of a key stands where the key stands for the first time.  So a device that has
found the key in the list of keys knows where the value is. -/
theorem lookup_eq_findIdx? (entries : List (Bytes × Bytes)) (key : Bytes) :
    entries.lookup key =
      ((entries.map Prod.fst).findIdx? (· = key)).bind fun i => (entries.map Prod.snd)[i]? := by
  induction entries with
  | nil => rfl
  | cons entry rest ih =>
      obtain ⟨k, v⟩ := entry
      rw [List.map_cons, List.map_cons, List.findIdx?_cons, List.lookup_cons]
      by_cases hk : k = key
      · simp [hk]
      · rw [beq_false_of_ne (Ne.symm hk), if_neg (by simpa using hk), ih, Option.bind_map]
        rfl

theorem find?_eq_findIdx? (m : ByteMap) (key : Bytes) :
    m.find? key = (m.keys.findIdx? (· = key)).bind fun i => m.values[i]? :=
  lookup_eq_findIdx? m.entries key

theorem mem_keys_of_find? {m : ByteMap} {key value : Bytes} (h : m.find? key = some value) :
    key ∈ m.keys := by
  rw [find?_eq_findIdx?] at h
  obtain ⟨i, hi, -⟩ := Option.bind_eq_some_iff.mp h
  obtain ⟨hlt, hat, -⟩ := List.findIdx?_eq_some_iff_getElem.mp hi
  rw [← of_decide_eq_true hat]
  exact List.getElem_mem hlt

theorem lookup_insertEntry_self (key value : Bytes) (entries : List (Bytes × Bytes)) :
    (insertEntry key value entries).lookup key = some value := by
  induction entries with
  | nil => simp [insertEntry]
  | cons entry rest ih =>
      obtain ⟨k, v⟩ := entry
      unfold insertEntry
      split
      · simp
      · split
        · simp
        · rename_i hne
          rw [List.lookup_cons, beq_false_of_ne hne, ih]

theorem lookup_insertEntry_of_ne {key other : Bytes} (value : Bytes)
    (entries : List (Bytes × Bytes)) (h : other ≠ key) :
    (insertEntry key value entries).lookup other = entries.lookup other := by
  induction entries with
  | nil => rw [insertEntry, List.lookup_cons, beq_false_of_ne h]
  | cons entry rest ih =>
      obtain ⟨k, v⟩ := entry
      unfold insertEntry
      split
      · rw [List.lookup_cons, beq_false_of_ne h]
      · split
        · rename_i heq
          rw [List.lookup_cons, List.lookup_cons, ← heq, beq_false_of_ne h]
        · rw [List.lookup_cons, List.lookup_cons, ih]

@[simp] theorem find?_insert_self (m : ByteMap) (key value : Bytes) :
    (m.insert key value).find? key = some value :=
  lookup_insertEntry_self key value m.entries

theorem find?_insert_of_ne (m : ByteMap) {key other : Bytes} (value : Bytes) (h : other ≠ key) :
    (m.insert key value).find? other = m.find? other :=
  lookup_insertEntry_of_ne value m.entries h

theorem find?_insert (m : ByteMap) (key other value : Bytes) :
    (m.insert key value).find? other = if other = key then some value else m.find? other := by
  by_cases h : other = key
  · rw [if_pos h, h, find?_insert_self]
  · rw [if_neg h, find?_insert_of_ne m value h]

end ByteMap
end SignerHost
