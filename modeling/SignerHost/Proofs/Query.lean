import SignerHost.Query
import SignerHost.Proofs.CompactSize

/-!
# Queries as a device writes them

A device writes a query as its code and the fields behind it.  The host reads back the query that
was written, as soon as digests have 32 bytes and numbers are below `2 ^ 64`.  Of any other bytes
it reads a query of this kind, or refuses them with a protocol failure.

* `Written` are all bytes that a query may have; `toBytes` are the shortest ones.
* `parse_eq_ok` says that exactly these are read as the query.
* `readSoundly_parse` says that whatever else comes is a protocol failure.
-/

namespace SignerHost

open Step

namespace Query

/-- The bytes of a query. -/
def toBytes : Query → Bytes
  | yield fragment => 0x10 :: fragment
  | preimage digest => 0x40 :: 0x00 :: digest
  | leafProof root size index =>
      0x41 :: (root ++ (CompactSize.encode size ++ CompactSize.encode index))
  | leafIndex root leaf => 0x42 :: (root ++ leaf)
  | moreElements => [0xA0]

/-- The queries that have a form. -/
def HasForm : Query → Prop
  | yield _ => True
  | preimage digest => digest.length = 32
  | leafProof root size index => root.length = 32 ∧ size < 2 ^ 64 ∧ index < 2 ^ 64
  | leafIndex root leaf => root.length = 32 ∧ leaf.length = 32
  | moreElements => True

instance : (q : Query) → Decidable q.HasForm
  | yield _ => inferInstanceAs (Decidable True)
  | preimage digest => inferInstanceAs (Decidable (digest.length = 32))
  | leafProof root size index =>
      inferInstanceAs (Decidable (root.length = 32 ∧ size < 2 ^ 64 ∧ index < 2 ^ 64))
  | leafIndex root leaf => inferInstanceAs (Decidable (root.length = 32 ∧ leaf.length = 32))
  | moreElements => inferInstanceAs (Decidable True)

/-- The bytes that a query may have.  Unlike in `toBytes` a number may stand in any form. -/
inductive Written : Query → Bytes → Prop
  | yield (fragment : Bytes) : Written (yield fragment) (0x10 :: fragment)
  | preimage {digest : Bytes} (h : digest.length = 32) :
      Written (preimage digest) (0x40 :: 0x00 :: digest)
  | leafProof {root sizeForm indexForm : Bytes} {size index : Nat} (hroot : root.length = 32)
      (hsize : CompactSize.Form size sizeForm) (hindex : CompactSize.Form index indexForm) :
      Written (leafProof root size index) (0x41 :: (root ++ (sizeForm ++ indexForm)))
  | leafIndex {root leaf : Bytes} (hroot : root.length = 32) (hleaf : leaf.length = 32) :
      Written (leafIndex root leaf) (0x42 :: (root ++ leaf))
  | moreElements : Written moreElements [0xA0]

/-- A device writes some of the bytes that a query may have. -/
theorem written_toBytes {q : Query} (h : q.HasForm) : Written q q.toBytes := by
  cases q with
  | yield fragment => exact .yield fragment
  | preimage digest => exact .preimage h
  | leafProof root size index =>
      exact .leafProof h.1 (CompactSize.form_encode h.2.1) (CompactSize.form_encode h.2.2)
  | leafIndex root leaf => exact .leafIndex h.1 h.2
  | moreElements => exact .moreElements

/-! ## Reading what was written -/

theorem run_readPreimage {digest : Bytes} (h : digest.length = 32) :
    readPreimage.run (0x00 :: digest) = .ok (.preimage digest) [] := by
  have hkind : (Field.bytes 1).run ([0x00] ++ digest) = .ok [0x00] digest :=
    Field.run_bytes_append digest (by decide) rfl
  have hdigest : (Field.bytes 32).run digest = .ok digest [] :=
    Field.run_bytes_to_end (by decide) h
  show readPreimage.run ([0x00] ++ digest) = _
  rw [readPreimage, run_bind_of_ok hkind]
  simp [run_bind_of_ok hdigest]

theorem run_readLeafProof {root sizeForm indexForm : Bytes} {size index : Nat}
    (hroot : root.length = 32) (hsize : CompactSize.Form size sizeForm)
    (hindex : CompactSize.Form index indexForm) :
    readLeafProof.run (root ++ (sizeForm ++ indexForm)) =
      .ok (.leafProof root size index) [] := by
  have hfirst : (Field.bytes 32).run (root ++ (sizeForm ++ indexForm)) =
      .ok root (sizeForm ++ indexForm) := Field.run_bytes_append _ (by decide) hroot
  have hsecond : Field.compactSize.run (sizeForm ++ indexForm) = .ok size indexForm :=
    Field.run_compactSize_eq_ok.mpr ⟨sizeForm, hsize, rfl⟩
  have hthird : Field.compactSize.run indexForm = .ok index [] :=
    Field.run_compactSize_eq_ok.mpr ⟨indexForm, hindex, (List.append_nil _).symm⟩
  rw [readLeafProof, run_bind_of_ok hfirst, run_bind_of_ok hsecond, run_bind_of_ok hthird]
  simp

theorem run_readLeafIndex {root leaf : Bytes} (hroot : root.length = 32)
    (hleaf : leaf.length = 32) :
    readLeafIndex.run (root ++ leaf) = .ok (.leafIndex root leaf) [] := by
  have hfirst : (Field.bytes 32).run (root ++ leaf) = .ok root leaf :=
    Field.run_bytes_append leaf (by decide) hroot
  have hlast : (Field.bytes 32).run leaf = .ok leaf [] :=
    Field.run_bytes_to_end (by decide) hleaf
  rw [readLeafIndex, run_bind_of_ok hfirst, run_bind_of_ok hlast]
  simp

theorem readBody_eq_ok {code : UInt8} {reader : Reader Query} {body : Bytes} {q : Query} :
    readBody code reader body = .ok q ↔ ∃ rest, reader.run body = .ok q rest := by
  cases hrun : reader.run body with
  | ok query rest =>
      have hread : readBody code reader body = .ok query := by
        rw [readBody, show reader body = _ from hrun]
      simp [hread]
  | error failure rest =>
      have hread : readBody code reader body = .error (blame code failure) := by
        rw [readBody, show reader body = _ from hrun]
      simp [hread]

/-! ## What was read was written -/

theorem written_of_run_readPreimage {q : Query} {body rest : Bytes}
    (h : readPreimage.run body = .ok q rest) : Written q (0x40 :: body) := by
  rw [readPreimage] at h
  obtain ⟨kind, behindKind, hkind, h₁⟩ := run_bind_eq_ok.mp h
  obtain ⟨-, rfl⟩ := (Field.run_bytes_eq_ok (n := 1) (by decide)).mp hkind
  by_cases hzero : kind = [0]
  · simp only [hzero, ne_eq, not_true_eq_false, if_false] at h₁
    obtain ⟨digest, behindDigest, hdigest, h₂⟩ := run_bind_eq_ok.mp h₁
    obtain ⟨hlength, rfl⟩ := (Field.run_bytes_eq_ok (n := 32) (by decide)).mp hdigest
    obtain ⟨_, s, hfinish, h₃⟩ := run_bind_eq_ok.mp h₂
    obtain ⟨rfl, rfl⟩ := Field.run_finish_eq_ok.mp hfinish
    cases h₃
    rw [hzero, List.append_nil]
    exact .preimage hlength
  · simp only [ne_eq, hzero, not_false_eq_true, if_true] at h₁
    cases h₁

theorem written_of_run_readLeafProof {q : Query} {body rest : Bytes}
    (h : readLeafProof.run body = .ok q rest) : Written q (0x41 :: body) := by
  rw [readLeafProof] at h
  obtain ⟨root, behindRoot, hroot, h₁⟩ := run_bind_eq_ok.mp h
  obtain ⟨hlength, rfl⟩ := (Field.run_bytes_eq_ok (n := 32) (by decide)).mp hroot
  obtain ⟨size, behindSize, hsize, h₂⟩ := run_bind_eq_ok.mp h₁
  obtain ⟨sizeForm, hsizeForm, rfl⟩ := Field.run_compactSize_eq_ok.mp hsize
  obtain ⟨index, behindIndex, hindex, h₃⟩ := run_bind_eq_ok.mp h₂
  obtain ⟨indexForm, hindexForm, rfl⟩ := Field.run_compactSize_eq_ok.mp hindex
  obtain ⟨_, s, hfinish, h₄⟩ := run_bind_eq_ok.mp h₃
  obtain ⟨rfl, rfl⟩ := Field.run_finish_eq_ok.mp hfinish
  cases h₄
  rw [List.append_nil]
  exact .leafProof hlength hsizeForm hindexForm

theorem written_of_run_readLeafIndex {q : Query} {body rest : Bytes}
    (h : readLeafIndex.run body = .ok q rest) : Written q (0x42 :: body) := by
  rw [readLeafIndex] at h
  obtain ⟨root, behindRoot, hroot, h₁⟩ := run_bind_eq_ok.mp h
  obtain ⟨hrootLength, rfl⟩ := (Field.run_bytes_eq_ok (n := 32) (by decide)).mp hroot
  obtain ⟨leaf, behindLeaf, hleaf, h₂⟩ := run_bind_eq_ok.mp h₁
  obtain ⟨hleafLength, rfl⟩ := (Field.run_bytes_eq_ok (n := 32) (by decide)).mp hleaf
  obtain ⟨_, s, hfinish, h₃⟩ := run_bind_eq_ok.mp h₂
  obtain ⟨rfl, rfl⟩ := Field.run_finish_eq_ok.mp hfinish
  cases h₃
  rw [List.append_nil]
  exact .leafIndex hrootLength hleafLength

/-- A query is read from exactly the bytes that it may have.  Counts may stand in any form, so a
query may have several. -/
theorem parse_eq_ok {bs : Bytes} {q : Query} : parse bs = .ok q ↔ Written q bs := by
  constructor
  · intro h
    cases bs with
    | nil => cases h
    | cons code body =>
        rw [parse] at h
        split_ifs at h with hyield hpreimage hproof hindex hmore hbody
        · cases h
          exact hyield ▸ .yield body
        · -- What is left behind the body has to be empty, so the body is the whole request.
          obtain ⟨rest, h⟩ := readBody_eq_ok.mp h
          exact hpreimage ▸ written_of_run_readPreimage h
        · obtain ⟨rest, h⟩ := readBody_eq_ok.mp h
          exact hproof ▸ written_of_run_readLeafProof h
        · obtain ⟨rest, h⟩ := readBody_eq_ok.mp h
          exact hindex ▸ written_of_run_readLeafIndex h
        · cases h
          rw [hmore, hbody]
          exact .moreElements
  · intro h
    cases h with
    | yield fragment => rfl
    | preimage h => exact readBody_eq_ok.mpr ⟨[], run_readPreimage h⟩
    | leafProof hroot hsize hindex =>
        exact readBody_eq_ok.mpr ⟨[], run_readLeafProof hroot hsize hindex⟩
    | leafIndex hroot hleaf => exact readBody_eq_ok.mpr ⟨[], run_readLeafIndex hroot hleaf⟩
    | moreElements => rfl

/-- The host reads the query that the device wrote. -/
theorem parse_toBytes {q : Query} (h : q.HasForm) : parse q.toBytes = .ok q :=
  parse_eq_ok.mpr (written_toBytes h)

end Query

/-! ## Any bytes -/

/-- A failure that is the device's fault, as soon as it is known what the device asked for. -/
def Failure.IsBlamable (f : Failure) : Prop := f.IsMalformed ∨ ∃ cause, f = .protocol cause

namespace Query

theorem exists_protocol_of_blame {f : Failure} (h : f.IsBlamable) (code : UInt8) :
    ∃ cause, blame code f = .protocol cause := by
  rcases h with ⟨cause, rfl⟩ | ⟨cause, rfl⟩
  · exact ⟨_, rfl⟩
  · exact ⟨_, rfl⟩

/-- Reading the fields behind a code. -/
abbrev Sound (reader : Reader Query) : Prop := Ensures reader HasForm Failure.IsBlamable

section Field

variable {α : Type} {x : Reader α} {Q : α → Prop} {f : α → Reader Query}

/-- The next field of a query. -/
theorem Sound.field (hx : Ensures x Q Failure.IsMalformed) (hf : ∀ a, Q a → Sound (f a)) :
    Sound (x >>= f) :=
  (hx.mono (fun _ h => h) fun _ h => .inl h).bind hf

end Field

theorem sound_readPreimage : Sound readPreimage := by
  unfold readPreimage
  exact .field (Field.ensures_bytes (n := 1) (by decide)) fun kind _ =>
    .guard (.inr ⟨_, rfl⟩) fun _ =>
      Sound.field (Field.ensures_bytes (n := 32) (by decide)) fun digest hdigest =>
        .field Field.ensures_finish fun _ _ => .pure hdigest

theorem sound_readLeafProof : Sound readLeafProof := by
  unfold readLeafProof
  exact .field (Field.ensures_bytes (n := 32) (by decide)) fun root hroot =>
    .field Field.ensures_compactSize fun size hsize =>
      .field Field.ensures_compactSize fun index hindex =>
        .field Field.ensures_finish fun _ _ => .pure ⟨hroot, hsize, hindex⟩

theorem sound_readLeafIndex : Sound readLeafIndex := by
  unfold readLeafIndex
  exact .field (Field.ensures_bytes (n := 32) (by decide)) fun root hroot =>
    .field (Field.ensures_bytes (n := 32) (by decide)) fun leaf hleaf =>
      .field Field.ensures_finish fun _ _ => .pure ⟨hroot, hleaf⟩

/-- What is read from bytes: a query that has a form, or a protocol failure. -/
def ReadSoundly (result : Except Failure Query) : Prop :=
  match result with
  | .ok q => q.HasForm
  | .error f => ∃ cause, f = .protocol cause

theorem readSoundly_readBody {reader : Reader Query} (h : Sound reader) (code : UInt8)
    (body : Bytes) : ReadSoundly (readBody code reader body) := by
  unfold readBody
  cases hrun : reader body with
  | ok q rest => exact h.ok hrun
  | error failure rest => exact exists_protocol_of_blame (h.error hrun) code

theorem readSoundly_parse (bs : Bytes) : ReadSoundly (parse bs) := by
  cases bs with
  | nil => exact ⟨_, rfl⟩
  | cons code body =>
      rw [parse]
      split_ifs
      · trivial
      · exact readSoundly_readBody sound_readPreimage code body
      · exact readSoundly_readBody sound_readLeafProof code body
      · exact readSoundly_readBody sound_readLeafIndex code body
      · trivial
      · exact ⟨_, rfl⟩
      · exact ⟨_, rfl⟩

theorem Written.hasForm {q : Query} {bs : Bytes} (h : Written q bs) : q.HasForm := by
  have hsound := readSoundly_parse bs
  rwa [parse_eq_ok.mpr h] at hsound

end Query
end SignerHost
