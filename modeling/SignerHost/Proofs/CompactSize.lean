import SignerHost.CompactSize
import SignerHost.Proofs.Reader

/-!
# Compact sizes are read back

The shortest form of a number below `2 ^ 64` has at most nine bytes, and the field reader gives
the number back and leaves what follows.  A number may also stand in a longer form than the one
that is written.

* `Form` is the relation between a number and its forms; writing is one of the forms.
* `run_read_eq_ok` and `Field.run_compactSize_eq_ok` say that both readers find exactly the forms.
* `Cut` is for data that end inside a form, and `readers_agree` puts the two readers side by side.
-/

namespace SignerHost

open Step

namespace CompactSize

theorem write_ofNat {n : Nat} (h : n < 2 ^ 64) : write n = .ok (encode n) := by
  unfold write
  rw [if_neg (by omega), if_pos (by omega), Int.toNat_natCast]

theorem write_ofNat_of_not_lt {n : Nat} (h : ¬ n < 2 ^ 64) :
    write n = .error (.malformed (.compactSizeBound n)) := by
  unfold write
  rw [if_neg (by omega), if_neg (by omega)]

/-- A number that has a form is below `2 ^ 64`, and the form is the shortest one. -/
theorem write_ofNat_eq_ok {n : Nat} {bs : Bytes} :
    write n = .ok bs ↔ n < 2 ^ 64 ∧ bs = encode n := by
  by_cases h : n < 2 ^ 64
  · rw [write_ofNat h]
    constructor
    · intro hbs
      cases hbs
      exact ⟨h, rfl⟩
    · rintro ⟨-, rfl⟩
      rfl
  · rw [write_ofNat_of_not_lt h]
    constructor
    · intro hbs
      cases hbs
    · rintro ⟨hlt, -⟩
      exact absurd hlt h

/-- A number either has a form, or is blamed. -/
theorem write_ofNat_cases (n : Nat) :
    write n = .ok (encode n) ∨ write n = .error (.malformed (.compactSizeBound n)) := by
  by_cases h : n < 2 ^ 64
  · exact .inl (write_ofNat h)
  · exact .inr (write_ofNat_of_not_lt h)

theorem ensures_readAfter (first : Bytes) :
    Ensures (readAfter first) (fun _ => True) Failure.IsMalformed := by
  have hread : ∀ width : Nat,
      Ensures (Reader.upTo width) (fun _ => True) Failure.IsMalformed :=
    fun width => (Reader.ensures_upTo width).mono (fun _ _ => trivial) fun _ h => h
  unfold readAfter
  refine .branch (hread 1) (.pure trivial) fun marker _ => .guard ⟨_, rfl⟩ fun _ => ?_
  exact .branch (hread _) (.pure trivial) fun payload _ => .guard ⟨_, rfl⟩ fun _ => .pure trivial

theorem length_encode_le (n : Nat) : (encode n).length ≤ 9 := by
  unfold encode
  split_ifs <;> simp

theorem length_encode_of_le {n : Nat} (h : n ≤ 252) : (encode n).length = 1 := by
  unfold encode
  rw [if_pos h, Bytes.length_ofNatLE]

theorem three_le_length_encode {n : Nat} (h : 252 < n) : 3 ≤ (encode n).length := by
  unfold encode
  rw [if_neg (Nat.not_le.mpr h)]
  split_ifs <;> simp

theorem length_le_of_write {n : Int} {bs : Bytes} (h : write n = .ok bs) : bs.length ≤ 9 := by
  unfold write at h
  split_ifs at h
  cases h
  exact length_encode_le _

end CompactSize

/-! ## Forms -/

namespace CompactSize

/-- A form of a number, the shortest one or a longer one.  A marker says how many bytes follow
it, and any number may stand in them. -/
inductive Form : Nat → Bytes → Prop
  | one {b : UInt8} (h : b < 0xFD) : Form b.toNat [b]
  | two {bs : Bytes} (h : bs.length = 2) : Form (Bytes.toNatLE bs) (0xFD :: bs)
  | four {bs : Bytes} (h : bs.length = 4) : Form (Bytes.toNatLE bs) (0xFE :: bs)
  | eight {bs : Bytes} (h : bs.length = 8) : Form (Bytes.toNatLE bs) (0xFF :: bs)

theorem Form.ne_nil {n : Nat} {bs : Bytes} (h : Form n bs) : bs ≠ [] := by
  cases h <;> exact List.cons_ne_nil _ _

/-- What is written is a form. -/
theorem form_encode {n : Nat} (h : n < 2 ^ 64) : Form n (encode n) := by
  have hvalue {width : Nat} (hlt : n < 256 ^ width) :
      Bytes.toNatLE (Bytes.ofNatLE width n) = n := Bytes.toNatLE_ofNatLE_of_lt hlt
  unfold encode
  -- One case for each width.  Only the shortest form is its own marker.
  split_ifs with hone htwo hfour
  · have hbyte : Bytes.ofNatLE 1 n = [UInt8.ofNat n] := by
      simp [Bytes.ofNatLE, Nat.mod_eq_of_lt (show n < 256 by omega)]
    have htoNat : (UInt8.ofNat n).toNat = n := UInt8.toNat_ofNat_of_lt' (by norm_num; omega)
    have hform : Form (UInt8.ofNat n).toNat [UInt8.ofNat n] := by
      refine .one (UInt8.lt_iff_toNat_lt.mpr ?_)
      rw [htoNat]
      show n < 253
      omega
    rwa [htoNat, ← hbyte] at hform
  · have hform := Form.two (Bytes.length_ofNatLE 2 n)
    rwa [hvalue (by norm_num; omega)] at hform
  · have hform := Form.four (Bytes.length_ofNatLE 4 n)
    rwa [hvalue (by norm_num; omega)] at hform
  · have hform := Form.eight (Bytes.length_ofNatLE 8 n)
    rwa [hvalue (by norm_num; omega)] at hform

/-! ## Reading a form -/

/-- The number of bytes that hold the number, given the first byte. -/
def widthAt (first : UInt8) : Nat :=
  if first = 0xFD then 2 else if first = 0xFE then 4 else if first = 0xFF then 8 else 1

theorem widthAt_le (first : UInt8) : widthAt first ≤ 8 := by
  unfold widthAt
  split_ifs <;> decide

theorem widthAt_eq_one {first : UInt8} : widthAt first = 1 ↔ first < 0xFD := by
  have hbound := first.toNat_lt
  unfold widthAt
  rw [UInt8.lt_iff_toNat_lt]
  simp only [← UInt8.toNat_inj]
  show (if first.toNat = 253 then 2 else if first.toNat = 254 then 4 else
    if first.toNat = 255 then 8 else 1) = 1 ↔ first.toNat < 253
  split_ifs <;> omega

/-- A marker and as many bytes as it asks for are a form. -/
theorem form_cons {marker : UInt8} {bs : Bytes} (hmarker : widthAt marker ≠ 1)
    (hlength : bs.length = widthAt marker) : Form (Bytes.toNatLE bs) (marker :: bs) := by
  unfold widthAt at hmarker hlength
  split_ifs at hmarker hlength with htwo hfour height
  · exact htwo ▸ .two hlength
  · exact hfour ▸ .four hlength
  · exact height ▸ .eight hlength
  · exact absurd rfl hmarker

theorem run_read_cons (first : UInt8) (s : Bytes) :
    read.run (first :: s) =
      if widthAt first = 1 then .ok first.toNat s
      else if s.length < widthAt first then .error (.malformed .cutCompactSize) []
      else .ok (Bytes.toNatLE (s.take (widthAt first))) (s.drop (widthAt first)) := by
  have hread : read.run (first :: s) =
      (do
        let payload ← if widthAt first > 1 then Reader.upTo (widthAt first) else pure [first]
        if payload.length ≠ widthAt first then throw (.malformed .cutCompactSize)
        return Bytes.toNatLE payload : Reader Nat).run s := by
    unfold widthAt
    simp [read, readAfter, EStateM.run_bind]
  rw [hread]
  -- A first byte that is no marker is the value; behind a marker there may be too few bytes.
  by_cases hone : widthAt first = 1
  · simp [hone, Bytes.toNatLE]
  · have hwidth : widthAt first > 1 := by
      unfold widthAt at hone ⊢
      split_ifs at hone ⊢ <;> omega
    by_cases hcut : s.length < widthAt first
    · simp only [if_pos hwidth, if_neg hone, if_pos hcut, EStateM.run_bind, Reader.run_upTo]
      rw [List.take_of_length_le hcut.le, List.drop_eq_nil_of_le hcut.le, if_pos hcut.ne]
      rfl
    · have hlength : (s.take (widthAt first)).length = widthAt first := by
        rw [List.length_take]
        omega
      simp only [if_pos hwidth, if_neg hone, if_neg hcut, EStateM.run_bind, Reader.run_upTo,
        hlength]
      simp

/-- A form behind a marker is read back. -/
theorem run_read_marker {marker : UInt8} {bs : Bytes} (rest : Bytes) (hmarker : widthAt marker ≠ 1)
    (hlength : bs.length = widthAt marker) :
    read.run (marker :: bs ++ rest) = .ok (Bytes.toNatLE bs) rest := by
  rw [List.cons_append, run_read_cons, if_neg hmarker, ← hlength,
    if_neg (by rw [List.length_append]; omega), List.take_left, List.drop_left]

/-- Reading finds exactly the forms. -/
theorem run_read_eq_ok {n : Nat} {s rest : Bytes} :
    read.run s = .ok n rest ↔ ∃ bs, Form n bs ∧ s = bs ++ rest := by
  constructor
  · intro h
    cases s with
    | nil => cases h
    | cons first s =>
        rw [run_read_cons] at h
        split_ifs at h with hone hcut
        · cases h
          exact ⟨[first], .one (widthAt_eq_one.mp hone), rfl⟩
        · cases h
          have hlength : (s.take (widthAt first)).length = widthAt first := by
            rw [List.length_take]
            omega
          exact ⟨first :: s.take (widthAt first), form_cons hone hlength, by simp⟩
  · rintro ⟨bs, hform, rfl⟩
    cases hform with
    | one h => rw [List.singleton_append, run_read_cons, if_pos (widthAt_eq_one.mpr h)]
    | two h => exact run_read_marker rest (by decide) h
    | four h => exact run_read_marker rest (by decide) h
    | eight h => exact run_read_marker rest (by decide) h

theorem run_read_of_form {n : Nat} {form : Bytes} (h : Form n form) (rest : Bytes) :
    read.run (form ++ rest) = .ok n rest :=
  run_read_eq_ok.mpr ⟨form, h, rfl⟩

/-! ## Forms that are cut -/

/-- The data ends inside a form, possibly before its first byte. -/
def Cut (s : Bytes) : Prop := ∃ n form, Form n form ∧ s <+: form ∧ s ≠ form

theorem Form.length_eq {n : Nat} {first : UInt8} {bs : Bytes} (h : Form n (first :: bs)) :
    bs.length = if widthAt first = 1 then 0 else widthAt first := by
  cases h with
  | one h => simp [widthAt_eq_one.mpr h]
  | two h => exact h
  | four h => exact h
  | eight h => exact h

theorem cut_nil : Cut [] := ⟨_, [0], .one (by decide), List.nil_prefix, by simp⟩

/-- A form is cut behind its first byte if bytes are missing that the marker asks for. -/
theorem cut_cons {first : UInt8} {s : Bytes} :
    Cut (first :: s) ↔ widthAt first ≠ 1 ∧ s.length < widthAt first := by
  constructor
  · rintro ⟨n, form, hform, ⟨more, rfl⟩, hne⟩
    have hmore : more ≠ [] := fun h => hne (by simp [h])
    have hpos := List.length_pos_of_ne_nil hmore
    have hlength := hform.length_eq
    change (s ++ more).length = _ at hlength
    rw [List.length_append] at hlength
    split_ifs at hlength with hone
    · omega
    · exact ⟨hone, by omega⟩
  · rintro ⟨hmarker, hcut⟩
    -- Zeros may stand for the missing bytes.
    let more : Bytes := List.replicate (widthAt first - s.length) 0
    have hlength : (s ++ more).length = widthAt first := by
      simp [more]
      omega
    refine ⟨_, _, form_cons hmarker hlength, List.prefix_append (first :: s) more, fun h => ?_⟩
    have := congrArg List.length h
    simp [more] at this
    omega

/-- Any bytes start with a form, or end inside one.  So a reader that accepts the forms and
refuses what is cut is described on all bytes. -/
theorem exists_form_or_cut (s : Bytes) :
    (∃ n form rest, Form n form ∧ s = form ++ rest) ∨ Cut s := by
  cases s with
  | nil => exact .inr cut_nil
  | cons first s =>
      by_cases hone : widthAt first = 1
      · exact .inl ⟨_, [first], s, .one (widthAt_eq_one.mp hone), rfl⟩
      · by_cases hcut : s.length < widthAt first
        · exact .inr (cut_cons.mpr ⟨hone, hcut⟩)
        · have hlength : (s.take (widthAt first)).length = widthAt first := by
            simp
            omega
          exact .inl ⟨_, first :: s.take (widthAt first), s.drop (widthAt first),
            form_cons hone hlength, by simp⟩

theorem run_read_of_cut {s : Bytes} (h : Cut s) :
    read.run s = .error (.malformed (if s = [] then .noCompactSize else .cutCompactSize)) [] := by
  cases s with
  | nil => rfl
  | cons first s =>
      obtain ⟨hmarker, hcut⟩ := cut_cons.mp h
      rw [run_read_cons, if_neg hmarker, if_pos hcut, if_neg (List.cons_ne_nil _ _)]

end CompactSize

namespace Field

open CompactSize

theorem run_compactSize_cons (first : UInt8) (s : Bytes) :
    compactSize.run (first :: s) =
      if widthAt first = 1 then .ok first.toNat s
      else (uint (widthAt first) .little).run s := by
  have hmarker (marker : UInt8) : first.toNat = marker.toNat ↔ first = marker := UInt8.toNat_inj
  rw [compactSize, run_bind_of_ok (run_uint_cons first s)]
  unfold widthAt
  simp only [← hmarker, run_ite]
  split_ifs <;> first | rfl | contradiction

/-- A form behind a marker is read back. -/
theorem run_compactSize_marker {marker : UInt8} {bs : Bytes} (rest : Bytes)
    (hmarker : widthAt marker ≠ 1) (hlength : bs.length = widthAt marker) :
    compactSize.run (marker :: bs ++ rest) = .ok (Bytes.toNatLE bs) rest := by
  have hwidth : widthAt marker < 0x8000000000000000 := (widthAt_le marker).trans_lt (by decide)
  rw [List.cons_append, run_compactSize_cons, if_neg hmarker]
  exact (run_uint_eq_ok hwidth).mpr ⟨bs, hlength, rfl, rfl⟩

/-- The strict reader finds exactly the forms, too. -/
theorem run_compactSize_eq_ok {n : Nat} {s rest : Bytes} :
    compactSize.run s = .ok n rest ↔ ∃ bs, Form n bs ∧ s = bs ++ rest := by
  constructor
  · intro h
    cases s with
    | nil => cases h
    | cons first s =>
        have hwidth : widthAt first < 0x8000000000000000 := (widthAt_le first).trans_lt (by decide)
        rw [run_compactSize_cons] at h
        split_ifs at h with hone
        · cases h
          exact ⟨[first], .one (widthAt_eq_one.mp hone), rfl⟩
        · obtain ⟨bs, hlength, rfl, rfl⟩ := (run_uint_eq_ok hwidth).mp h
          exact ⟨first :: bs, form_cons hone hlength, rfl⟩
  · rintro ⟨bs, hform, rfl⟩
    cases hform with
    | one h => rw [List.singleton_append, run_compactSize_cons, if_pos (widthAt_eq_one.mpr h)]
    | two h => exact run_compactSize_marker rest (by decide) h
    | four h => exact run_compactSize_marker rest (by decide) h
    | eight h => exact run_compactSize_marker rest (by decide) h

theorem run_compactSize_of_cut {s : Bytes} (h : Cut s) :
    compactSize.run s = .error (.malformed .exhausted) [] := by
  cases s with
  | nil => rfl
  | cons first s =>
      obtain ⟨hmarker, hcut⟩ := cut_cons.mp h
      have hwidth : widthAt first < 0x8000000000000000 := (widthAt_le first).trans_lt (by decide)
      rw [run_compactSize_cons, if_neg hmarker]
      exact run_uint_of_length_lt hwidth .little hcut

theorem run_compactSize_encode {n : Nat} (rest : Bytes) (hn : n < 2 ^ 64) :
    compactSize.run (CompactSize.encode n ++ rest) = .ok n rest :=
  run_compactSize_eq_ok.mpr ⟨_, form_encode hn, rfl⟩

theorem run_compactSize_to_end {n : Nat} (hn : n < 2 ^ 64) :
    compactSize.run (CompactSize.encode n) = .ok n [] := by
  have h := run_compactSize_encode [] hn
  rwa [List.append_nil] at h

end Field

namespace CompactSize

/-- No two numbers are written in the same way.  Longer forms of a number are read as the same
number, but never written. -/
theorem encode_inj {n m : Nat} (hn : n < 2 ^ 64) (hm : m < 2 ^ 64) :
    encode n = encode m ↔ n = m := by
  constructor
  · intro h
    have hread := Field.run_compactSize_to_end hn
    rw [h, Field.run_compactSize_to_end hm] at hread
    cases hread
    rfl
  · rintro rfl
    rfl

/-- Both readers give back what is written and leave what follows.  On any bytes they find the same
number behind the same form, or both refuse a form that is cut and leave nothing. -/
theorem readers_agree :
    (∀ n : Nat, n < 2 ^ 64 → ∃ form, write n = .ok form ∧ ∀ rest,
      read.run (form ++ rest) = .ok n rest ∧ Field.compactSize.run (form ++ rest) = .ok n rest) ∧
    (∀ s,
      (∃ n form rest, Form n form ∧ s = form ++ rest ∧
        read.run s = .ok n rest ∧ Field.compactSize.run s = .ok n rest) ∨
      (Cut s ∧
        read.run s =
          .error (.malformed (if s = [] then .noCompactSize else .cutCompactSize)) [] ∧
        Field.compactSize.run s = .error (.malformed .exhausted) [])) := by
  constructor
  · intro n hn
    refine ⟨encode n, write_ofNat hn, fun rest => ⟨?_, Field.run_compactSize_encode rest hn⟩⟩
    exact run_read_of_form (form_encode hn) rest
  · intro s
    rcases exists_form_or_cut s with ⟨n, form, rest, hform, rfl⟩ | hcut
    · refine .inl ⟨n, form, rest, hform, rfl, ?_, ?_⟩
      · exact run_read_of_form hform rest
      · exact Field.run_compactSize_eq_ok.mpr ⟨form, hform, rfl⟩
    · exact .inr ⟨hcut, run_read_of_cut hcut, Field.run_compactSize_of_cut hcut⟩

/-- The first number that takes four bytes, with one more byte behind it. -/
theorem readers_agree_of_four_bytes :
    0x10000 < 2 ^ 64 ∧ write 0x10000 = .ok [0xFE, 0x00, 0x00, 0x01, 0x00] ∧
      read.run [0xFE, 0x00, 0x00, 0x01, 0x00, 0xAA] = .ok 0x10000 [0xAA] ∧
      Field.compactSize.run [0xFE, 0x00, 0x00, 0x01, 0x00, 0xAA] = .ok 0x10000 [0xAA] := by
  have hbound : 0x10000 < 2 ^ 64 := by decide
  have hwrite : write 0x10000 = .ok [0xFE, 0x00, 0x00, 0x01, 0x00] := by decide
  obtain ⟨form, hform, hread⟩ := readers_agree.1 0x10000 hbound
  cases hwrite.symm.trans hform
  exact ⟨hbound, hwrite, hread [0xAA]⟩

end CompactSize

end SignerHost
