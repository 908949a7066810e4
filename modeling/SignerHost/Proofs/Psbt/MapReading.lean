import SignerHost.Proofs.Wire
import SignerHost.Proofs.CompactSize
import SignerHost.Proofs.Merkle.MapIdentity
import SignerHost.Psbt.MapCodec

/-!
# Reading a map of byte strings

A map is read pair by pair.  From any bytes, reading takes pairs with different keys as long as
they are there, and what stands behind them decides how it stops.

* `Framed`, `Written` and `Whole` are the grammar: strings behind their lengths, in any form, pairs
  of them, and such pairs with a separator.
* `string_cases` says how any bytes start: with a string, with a string that is cut, or with a
  length that is too large.
* `Ends` and `Refuses` list what can stand behind the pairs, and `exists_startsWith` says that one
  of them does.
* `StartsWith.run_of_ends` and `StartsWith.run_of_refuses` give the result of reading, and
  `run_read_cases` says that there is no other one.
-/

namespace SignerHost

open Step

namespace MapCodec

/-! ## What is read -/

/-- Bytes behind their length, which is a word and stands in any form. -/
inductive Framed : Bytes → Bytes → Prop
  | behind {field size : Bytes} (word : field.length < 0x8000000000000000)
      (form : CompactSize.Form field.length size) : Framed field (size ++ field)

/-- Pairs one after the other, each with a key that is not empty. -/
inductive Written : List (Bytes × Bytes) → Bytes → Prop
  | nil : Written [] []
  | cons {key value k v bs : Bytes} {pairs : List (Bytes × Bytes)} (nonempty : key ≠ [])
      (framedKey : Framed key k) (framedValue : Framed value v) (rest : Written pairs bs) :
      Written ((key, value) :: pairs) (k ++ (v ++ bs))

/-- Pairs with different keys, and a separator in any form. -/
structure Whole (pairs : List (Bytes × Bytes)) (bs : Bytes) : Prop where
  distinct : DistinctKeys pairs
  written : ∃ front size, Written pairs front ∧ CompactSize.Form 0 size ∧ bs = front ++ size

/-- The data ends in front of a length, inside it, or inside the bytes behind it. -/
inductive Cut : Bytes → Malformed → Prop
  | length {s : Bytes} (h : CompactSize.Cut s) :
      Cut s (if s = [] then .noCompactSize else .cutCompactSize)
  | field {n : Nat} {size part : Bytes} (word : n < 0x8000000000000000)
      (form : CompactSize.Form n size) (short : part.length < n) :
      Cut (size ++ part) (.cutString n)

/-- The data ends inside a value, behind its key. -/
inductive CutValue : Bytes → Malformed → Prop
  | behind {key k part : Bytes} {cause : Malformed} (nonempty : key ≠ []) (framed : Framed key k)
      (cut : Cut part cause) : CutValue (k ++ part) cause

/-- A length that is no word, and what stands behind it. -/
inductive Overlong : Bytes → Bytes → Prop
  | behind {n : Nat} {size rest : Bytes} (form : CompactSize.Form n size)
      (bound : 0x8000000000000000 ≤ n) : Overlong (size ++ rest) rest

/-- What ends a map, and what is left behind it. -/
inductive Ends : Bytes → Bytes → Prop
  | separator {size rest : Bytes} (form : CompactSize.Form 0 size) : Ends (size ++ rest) rest
  | cutKey {tail : Bytes} {cause : Malformed} (cut : Cut tail cause) : Ends tail []

/-- What is refused behind pairs that were read, the failure, and what is left.  Each case is one
reason to refuse. -/
inductive Refuses (pairs : List (Bytes × Bytes)) : Bytes → Failure → Bytes → Prop
  | keyLength {tail rest : Bytes} (long : Overlong tail rest) : Refuses pairs tail .overflow rest
  | valueLength {key k tail rest : Bytes} (nonempty : key ≠ []) (framed : Framed key k)
      (long : Overlong tail rest) : Refuses pairs (k ++ tail) .overflow rest
  | cutValue {tail : Bytes} {cause : Malformed} (cut : CutValue tail cause) :
      Refuses pairs tail (.malformed cause) []
  | repeated {key k value v rest : Bytes} (known : key ∈ pairs.map Prod.fst) (nonempty : key ≠ [])
      (framedKey : Framed key k) (framedValue : Framed value v) :
      Refuses pairs (k ++ (v ++ rest)) (.psbt (.mapKey key)) rest

/-- The bytes start with pairs of distinct keys, and the tail is left. -/
structure StartsWith (s : Bytes) (pairs : List (Bytes × Bytes)) (tail : Bytes) : Prop where
  distinct : DistinctKeys pairs
  written : ∃ front, Written pairs front ∧ s = front ++ tail

/-! ## One string -/

theorem run_string_of_framed {field bs : Bytes} (h : Framed field bs) (rest : Bytes) :
    string.run (bs ++ rest) = .ok field rest := by
  obtain ⟨word, form⟩ := h
  have hread := CompactSize.run_read_of_form form (field ++ rest)
  rw [List.append_assoc, string, run_bind_of_ok hread, Reader.grab_ofNat word]
  simp

theorem run_string_of_cut {s : Bytes} {cause : Malformed} (h : Cut s cause) :
    string.run s = .error (.malformed cause) [] := by
  cases h with
  | length h => rw [string, run_bind_of_error (CompactSize.run_read_of_cut h)]
  | @field n size part word form short =>
      have hread := CompactSize.run_read_of_form form part
      rw [string, run_bind_of_ok hread, Reader.grab_ofNat word]
      simp [short.ne, List.take_of_length_le short.le, List.drop_eq_nil_of_le short.le]

theorem run_string_of_overlong {s rest : Bytes} (h : Overlong s rest) :
    string.run s = .error .overflow rest := by
  cases h with
  | @behind n size rest form bound =>
      have hread := CompactSize.run_read_of_form form rest
      have hword : ¬ isWord n := by
        simp [isWord]
        omega
      rw [string, run_bind_of_ok hread, Reader.grab, if_pos hword]
      rfl

/-- Any bytes start with a string, end inside one, or start with a length that is too large. -/
theorem string_cases (s : Bytes) :
    (∃ field bs rest, Framed field bs ∧ s = bs ++ rest) ∨ (∃ cause, Cut s cause) ∨
      ∃ rest, Overlong s rest := by
  rcases CompactSize.exists_form_or_cut s with ⟨n, size, rest, form, rfl⟩ | hcut
  · by_cases hword : n < 0x8000000000000000
    · by_cases hshort : rest.length < n
      · exact .inr (.inl ⟨_, .field hword form hshort⟩)
      · have hlength : (rest.take n).length = n := by
          simp
          omega
        refine .inl ⟨rest.take n, size ++ rest.take n, rest.drop n, .behind ?_ ?_, by simp⟩
        · rwa [hlength]
        · rwa [hlength]
    · exact .inr (.inr ⟨rest, .behind form (Nat.not_lt.mp hword)⟩)
  · exact .inr (.inl ⟨_, .length hcut⟩)

theorem run_string_eq_ok {s field rest : Bytes} :
    string.run s = .ok field rest ↔ ∃ bs, Framed field bs ∧ s = bs ++ rest := by
  constructor
  · intro h
    rcases string_cases s with ⟨field', bs, rest', hframed, rfl⟩ | ⟨cause, hcut⟩ | ⟨rest', hlong⟩
    · rw [run_string_of_framed hframed] at h
      cases h
      exact ⟨bs, hframed, rfl⟩
    · rw [run_string_of_cut hcut] at h
      cases h
    · rw [run_string_of_overlong hlong] at h
      cases h
  · rintro ⟨bs, hframed, rfl⟩
    exact run_string_of_framed hframed rest

/-- A separator is the string without bytes. -/
theorem framed_separator {size : Bytes} (form : CompactSize.Form 0 size) : Framed [] size := by
  have hframed : Framed [] (size ++ []) := .behind (by decide) form
  rwa [List.append_nil] at hframed

theorem Framed.ne_nil {field bs : Bytes} (h : Framed field bs) : bs ≠ [] := by
  obtain ⟨-, form⟩ := h
  exact List.append_ne_nil_of_left_ne_nil form.ne_nil _

/-! ## A key and its value -/

theorem run_key_of_framed {k bs : Bytes} (h : Framed k bs) (rest : Bytes) :
    key.run (bs ++ rest) = .ok k rest := by
  have hstring : string (bs ++ rest) = .ok k rest := run_string_of_framed h rest
  show key (bs ++ rest) = .ok k rest
  rw [key, hstring]

/-- A key that is cut reads like the end of the map. -/
theorem run_key_of_cut {s : Bytes} {cause : Malformed} (h : Cut s cause) :
    key.run s = .ok [] [] := by
  have hstring : string s = .error (.malformed cause) [] := run_string_of_cut h
  show key s = .ok [] []
  rw [key, hstring]

theorem run_key_of_overlong {s rest : Bytes} (h : Overlong s rest) :
    key.run s = .error .overflow rest := by
  have hstring : string s = .error .overflow rest := run_string_of_overlong h
  show key s = .error .overflow rest
  rw [key, hstring]

theorem run_readField_of_framed {m : ByteMap} {k value bs : Bytes} (hnew : m.contains k = false)
    (h : Framed value bs) (rest : Bytes) :
    (readField m k).run (bs ++ rest) = .ok (m.insert k value) rest := by
  rw [readField, run_bind_of_ok (run_string_of_framed h rest)]
  simp [hnew]

theorem run_readField_of_repeated {m : ByteMap} {k value bs : Bytes}
    (hknown : m.contains k = true) (h : Framed value bs) (rest : Bytes) :
    (readField m k).run (bs ++ rest) = .error (.psbt (.mapKey k)) rest := by
  rw [readField, run_bind_of_ok (run_string_of_framed h rest)]
  simp [hknown]

theorem run_readField_of_error {m : ByteMap} {k s rest : Bytes} {failure : Failure}
    (h : string.run s = .error failure rest) : (readField m k).run s = .error failure rest := by
  rw [readField, run_bind_of_error h]

/-- A pair takes at least one byte. -/
theorem length_lt_of_readField {m m' : ByteMap} {k s s₁ s₂ : Bytes} (hkey : key.run s = .ok k s₁)
    (hk : k ≠ []) (hfield : (readField m k).run s₁ = .ok m' s₂) : s₂.length < s.length := by
  obtain ⟨value, s₃, hvalue, hinsert⟩ := run_bind_eq_ok.mp hfield
  obtain ⟨v, -, rfl⟩ := run_string_eq_ok.mp hvalue
  have hrest : s₂ = s₃ := by
    rw [run_ite] at hinsert
    split_ifs at hinsert <;> cases hinsert
    rfl
  -- A key that was read is not empty only if it stood in the bytes with its length.
  rcases string_cases s with ⟨k', bs, rest, hframed, rfl⟩ | ⟨cause, hcut⟩ | ⟨rest, hlong⟩
  · rw [run_key_of_framed hframed] at hkey
    cases hkey
    have hpos := List.length_pos_of_ne_nil hframed.ne_nil
    simp [hrest]
    omega
  · rw [run_key_of_cut hcut] at hkey
    injection hkey with hempty
    exact absurd hempty.symm hk
  · rw [run_key_of_overlong hlong] at hkey
    cases hkey

/-! ## Turns of reading -/

/-- Reads what is left of a map of which some pairs are known.  It refuses a key that is among
them. -/
def readInto (m : ByteMap) : Reader ByteMap := Wire.entries key readField m

theorem run_readInto (m : ByteMap) (s : Bytes) :
    (readInto m).run s =
      (do
        let k ← key
        if k = [] then return m
        let next ← readField m k
        readInto next : Reader ByteMap).run s :=
  Wire.run_entries length_lt_of_readField m s

theorem run_readInto_of_key {m : ByteMap} {k bs : Bytes} (hk : k ≠ []) (h : Framed k bs)
    (rest : Bytes) :
    (readInto m).run (bs ++ rest) =
      (do
        let next ← readField m k
        readInto next : Reader ByteMap).run rest := by
  rw [run_readInto, run_bind_of_ok (run_key_of_framed h rest), if_neg hk]

theorem run_readInto_of_ends {m : ByteMap} {tail rest : Bytes} (h : Ends tail rest) :
    (readInto m).run tail = .ok m rest := by
  cases h with
  | @separator size _ form =>
      rw [run_readInto, run_bind_of_ok (run_key_of_framed (framed_separator form) rest)]
      rfl
  | cutKey cut =>
      rw [run_readInto, run_bind_of_ok (run_key_of_cut cut)]
      rfl

theorem run_readInto_of_refuses {pairs : List (Bytes × Bytes)} {tail rest : Bytes}
    {failure : Failure} (h : Refuses pairs tail failure rest) :
    (readInto (.ofPairs pairs)).run tail = .error failure rest := by
  cases h with
  | keyLength long => rw [run_readInto, run_bind_of_error (run_key_of_overlong long)]
  | valueLength nonempty framed long =>
      rw [run_readInto_of_key nonempty framed, run_bind_of_error
        (run_readField_of_error (run_string_of_overlong long))]
  | cutValue cut =>
      obtain ⟨nonempty, framed, cut⟩ := cut
      rw [run_readInto_of_key nonempty framed, run_bind_of_error
        (run_readField_of_error (run_string_of_cut cut))]
  | repeated known nonempty framedKey framedValue =>
      have hknown := ByteMap.contains_ofPairs.mpr known
      rw [run_readInto_of_key nonempty framedKey, run_bind_of_error
        (run_readField_of_repeated hknown framedValue rest)]

/-- Pairs with new keys are read, and the reading goes on behind them. -/
theorem run_readInto_of_written {done pairs : List (Bytes × Bytes)} {front : Bytes}
    (h : Written pairs front) (hdistinct : DistinctKeys (done ++ pairs)) (rest : Bytes) :
    (readInto (.ofPairs done)).run (front ++ rest) =
      (readInto (.ofPairs (done ++ pairs))).run rest := by
  induction h generalizing done with
  | nil => rw [List.append_nil, List.nil_append]
  | @cons key value k v bs pairs nonempty framedKey framedValue _ ih =>
      -- The key differs from those that are done, so the pair is added to them.
      have hnew : (ByteMap.ofPairs done).contains key = false := by
        rw [Bool.eq_false_iff, ne_eq, ByteMap.contains_ofPairs]
        intro hmem
        have hnodup : (done.map Prod.fst ++ key :: pairs.map Prod.fst).Nodup := by
          simpa [DistinctKeys] using hdistinct
        exact (List.disjoint_of_nodup_append hnodup) hmem List.mem_cons_self
      have happend : done ++ (key, value) :: pairs = done ++ [(key, value)] ++ pairs := by simp
      rw [List.append_assoc, List.append_assoc, run_readInto_of_key nonempty framedKey,
        run_bind_of_ok (run_readField_of_framed hnew framedValue _),
        ← ByteMap.ofPairs_append_singleton, ih (happend ▸ hdistinct), happend]

/-- Behind the pairs stands what ends the map or what is refused. -/
def Stops (pairs : List (Bytes × Bytes)) (tail : Bytes) : Prop :=
  (∃ rest, Ends tail rest) ∨ ∃ failure rest, Refuses pairs tail failure rest

/-- Any bytes behind the pairs start with a pair with a new key, if reading does not stop there. -/
theorem stops_or_next (pairs : List (Bytes × Bytes)) (s : Bytes) :
    Stops pairs s ∨ ∃ key k value v rest, key ≠ [] ∧ key ∉ pairs.map Prod.fst ∧ Framed key k ∧
      Framed value v ∧ s = k ++ (v ++ rest) := by
  rcases string_cases s with ⟨key, k, s, hkey, rfl⟩ | ⟨cause, hcut⟩ | ⟨rest, hlong⟩
  · by_cases hempty : key = []
    · obtain ⟨-, form⟩ := hkey
      subst hempty
      rw [List.append_nil]
      exact .inl (.inl ⟨s, .separator form⟩)
    · rcases string_cases s with ⟨value, v, s, hvalue, rfl⟩ | ⟨cause, hcut⟩ | ⟨rest, hlong⟩
      · by_cases hknown : key ∈ pairs.map Prod.fst
        · exact .inl (.inr ⟨_, s, .repeated hknown hempty hkey hvalue⟩)
        · exact .inr ⟨key, k, value, v, s, hempty, hknown, hkey, hvalue, rfl⟩
      · exact .inl (.inr ⟨_, [], .cutValue (.behind hempty hkey hcut)⟩)
      · exact .inl (.inr ⟨_, rest, .valueLength hempty hkey hlong⟩)
  · exact .inl (.inl ⟨[], .cutKey hcut⟩)
  · exact .inl (.inr ⟨_, rest, .keyLength hlong⟩)

/-- Any bytes behind distinct pairs start with further pairs, and reading stops behind them.  The
induction is on the number of bytes that are left. -/
theorem exists_stops (done : List (Bytes × Bytes)) (hdone : DistinctKeys done) (s : Bytes) :
    ∃ pairs front tail, Written pairs front ∧ DistinctKeys (done ++ pairs) ∧ s = front ++ tail ∧
      Stops (done ++ pairs) tail := by
  rcases stops_or_next done s with hstops | ⟨key, k, value, v, rest, hkey, hnew, hk, hv, hs⟩
  · refine ⟨[], [], s, .nil, ?_, rfl, ?_⟩ <;> rwa [List.append_nil]
  · -- The pair takes bytes, so what stands behind it is shorter.
    have hshorter : rest.length < s.length := by
      have := List.length_pos_of_ne_nil hk.ne_nil
      simp [hs]
      omega
    obtain ⟨pairs, front, tail, hwritten, hdistinct, hrest, hstops⟩ :=
      exists_stops (done ++ [(key, value)]) (hdone.concat hnew value) rest
    rw [List.append_assoc, List.singleton_append] at hdistinct hstops
    refine ⟨(key, value) :: pairs, k ++ (v ++ front), tail, .cons hkey hk hv hwritten, hdistinct,
      ?_, hstops⟩
    simp [hs, hrest]
termination_by s.length
decreasing_by exact hshorter

/-! ## Whole maps -/

theorem run_read_of_startsWith {s tail : Bytes} {pairs : List (Bytes × Bytes)}
    (h : StartsWith s pairs tail) : read.run s = (readInto (.ofPairs pairs)).run tail := by
  obtain ⟨front, hwritten, rfl⟩ := h.written
  have hdistinct : DistinctKeys ([] ++ pairs) := h.distinct
  exact run_readInto_of_written hwritten hdistinct tail

theorem exists_startsWith (s : Bytes) :
    ∃ pairs tail, StartsWith s pairs tail ∧ Stops pairs tail := by
  obtain ⟨pairs, front, tail, hwritten, hdistinct, hs, hstops⟩ :=
    exists_stops [] List.nodup_nil s
  exact ⟨pairs, tail, ⟨hdistinct, front, hwritten, hs⟩, hstops⟩

theorem StartsWith.run_of_ends {s tail rest : Bytes} {pairs : List (Bytes × Bytes)}
    (h : StartsWith s pairs tail) (hends : Ends tail rest) :
    read.run s = .ok (.ofPairs pairs) rest := by
  rw [run_read_of_startsWith h, run_readInto_of_ends hends]

theorem StartsWith.run_of_refuses {s tail rest : Bytes} {pairs : List (Bytes × Bytes)}
    {failure : Failure} (h : StartsWith s pairs tail) (hrefuses : Refuses pairs tail failure rest) :
    read.run s = .error failure rest := by
  rw [run_read_of_startsWith h, run_readInto_of_refuses hrefuses]

/-- Any bytes are read as a map up to what ends it, or refused for what stands there instead.  So
what a map is read as can be seen from the bytes, without running the reader. -/
theorem run_read_cases (s : Bytes) :
    (∃ pairs tail rest, StartsWith s pairs tail ∧ Ends tail rest ∧
      read.run s = .ok (.ofPairs pairs) rest) ∨
    ∃ pairs tail failure rest, StartsWith s pairs tail ∧ Refuses pairs tail failure rest ∧
      read.run s = .error failure rest := by
  obtain ⟨pairs, tail, hstarts, ⟨rest, hends⟩ | ⟨failure, rest, hrefuses⟩⟩ := exists_startsWith s
  · exact .inl ⟨pairs, tail, rest, hstarts, hends, hstarts.run_of_ends hends⟩
  · exact .inr ⟨pairs, tail, failure, rest, hstarts, hrefuses, hstarts.run_of_refuses hrefuses⟩

theorem Whole.exists_ends {pairs : List (Bytes × Bytes)} {bs : Bytes} (h : Whole pairs bs)
    (rest : Bytes) : ∃ tail, StartsWith (bs ++ rest) pairs tail ∧ Ends tail rest := by
  obtain ⟨front, size, hwritten, form, rfl⟩ := h.written
  refine ⟨size ++ rest, ⟨h.distinct, front, hwritten, ?_⟩, .separator form⟩
  rw [List.append_assoc]

/-- A whole map is read, whatever stands behind it. -/
theorem Whole.run_read {pairs : List (Bytes × Bytes)} {bs : Bytes} (h : Whole pairs bs)
    (rest : Bytes) : read.run (bs ++ rest) = .ok (.ofPairs pairs) rest := by
  obtain ⟨tail, hstarts, hends⟩ := h.exists_ends rest
  exact hstarts.run_of_ends hends

end MapCodec

end SignerHost
