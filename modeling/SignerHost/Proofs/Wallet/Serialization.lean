import SignerHost.Proofs.Layout
import SignerHost.Proofs.Merkle.Collision
import SignerHost.Proofs.Wallet.Policy

/-!
# Serializations of wallets are read back

A serialization has one layout for each version.  Every field in it is fixed in length, or stands
behind its length, so a strict reader finds all fields again and nothing is left over.

* `SerializedPolicy` holds the fields as they stand in a serialization, and `SerializedPolicy.read`
  is the reader; `run_read_toBytes` says that it inverts the layout.
* `Policy.eq_or_collision_of_id` follows a pair of equal ids back: to the serializations, to their
  fields, and to the template and the keys that the fields are digests of.
-/

namespace SignerHost

open Step

/-! ## Text is read back -/

namespace Text

/-- The text with one character for each byte. -/
def ofLatin1 (bs : Bytes) : String := String.ofList (bs.map fun b => Char.ofNat b.toNat)

/-- The text that some bytes write in UTF-8. -/
def ofUtf8? (bs : Bytes) : Option String := String.fromUTF8? ⟨bs.toArray⟩

theorem ofLatin1_of_latin1 {text : String} {bs : Bytes} (h : latin1 text = .ok bs) :
    ofLatin1 bs = text := by
  unfold latin1 at h
  split_ifs at h with hall
  cases h
  have hchars : ∀ c ∈ text.toList, Char.ofNat (UInt8.ofNat c.toNat).toNat = id c := by
    intro c hc
    have hlt : c.toNat < 256 := by simpa using List.all_eq_true.mp hall c hc
    rw [UInt8.toNat_ofNat_of_lt' hlt, Char.ofNat_toNat, id]
  rw [ofLatin1, List.map_map]
  exact (congrArg String.ofList (List.map_congr_left hchars)).trans (by simp)

@[simp] theorem ofUtf8?_utf8 (text : String) : ofUtf8? (utf8 text) = some text := by
  have hbytes : (⟨(utf8 text).toArray⟩ : ByteArray) = text.toByteArray := by
    rw [utf8, Array.toArray_toList]
    rfl
  rw [ofUtf8?, hbytes, String.fromUTF8?, dif_pos text.isValidUTF8, Option.some_inj,
    ← String.toByteArray_inj]
  rfl

theorem utf8_injective : Function.Injective utf8 := by
  intro s t h
  have hread := congrArg ofUtf8? h
  rwa [ofUtf8?_utf8, ofUtf8?_utf8, Option.some_inj] at hread

end Text

/-! ## The layout -/

/-- The fields of a policy as they stand in its serialization.  The template field is the
template or its digest, and the keys are known by their root. -/
structure SerializedPolicy where
  version : Nat
  /-- The name in Latin-1. -/
  name : Bytes
  templateLength : Nat
  /-- The template itself, or its digest. -/
  template : Bytes
  keyCount : Nat
  keysRoot : Bytes
  deriving DecidableEq

namespace SerializedPolicy

/-- Exactly `n` bytes, where `n` has no other bound than what is left. -/
def exactly (n : Nat) : Reader Bytes := do
  let bs ← Reader.upTo n
  if bs.length ≠ n then throw (.malformed .exhausted)
  return bs

/-- Reads the fields.  The first byte tells whether the template or its digest follows. -/
def read : Reader SerializedPolicy := do
  let version ← Field.uint 1 .big
  let nameLength ← Field.uint 1 .big
  let name ← Field.bytes nameLength
  let templateLength ← Field.compactSize
  let template ← exactly (if version = 1 then templateLength else 32)
  let keyCount ← Field.compactSize
  let keysRoot ← Field.bytes 32
  return { version, name, templateLength, template, keyCount, keysRoot }

def toBytes (s : SerializedPolicy) : Bytes :=
  UInt8.ofNat s.version :: UInt8.ofNat s.name.length :: (s.name ++
    (CompactSize.encode s.templateLength ++ (s.template ++
      (CompactSize.encode s.keyCount ++ s.keysRoot))))

/-- The fields that fit into the layout.  Only these can be read back. -/
structure HasForm (s : SerializedPolicy) : Prop where
  version : s.version < 256
  name : s.name.length < 256
  templateLength : s.templateLength < 2 ^ 64
  template : s.template.length = if s.version = 1 then s.templateLength else 32
  keyCount : s.keyCount < 2 ^ 64
  keysRoot : s.keysRoot.length = 32

theorem run_exactly_append {n : Nat} {bs : Bytes} (rest : Bytes) (h : bs.length = n) :
    (exactly n).run (bs ++ rest) = .ok bs rest := by
  subst h
  simp [exactly]

theorem finds_exactly (n : Nat) :
    (exactly n).Finds fun bs s => bs.length = n ∧ s = bs := by
  intro bs s rest
  constructor
  · intro h
    unfold exactly at h
    obtain ⟨field, s', hfield, h⟩ := run_bind_eq_ok.mp h
    cases hfield
    rw [run_ite] at h
    split_ifs at h with hlength
    · cases h
    · cases h
      exact ⟨_, ⟨not_not.mp hlength, rfl⟩, (List.take_append_drop n s).symm⟩
  · rintro ⟨_, ⟨hlength, rfl⟩, rfl⟩
    exact run_exactly_append rest hlength

/-- The reader finds every field and consumes the whole serialization. -/
theorem run_read_toBytes {s : SerializedPolicy} (h : s.HasForm) :
    read.run s.toBytes = .ok s [] := by
  have hname : ∀ rest, (Field.bytes s.name.length).run (s.name ++ rest) = .ok s.name rest :=
    fun rest => Field.run_bytes_append rest (h.name.trans (by decide)) rfl
  have hroot : (Field.bytes 32).run s.keysRoot = .ok s.keysRoot [] :=
    Field.run_bytes_to_end (by decide) h.keysRoot
  rw [read, toBytes, run_bind_of_ok (Field.run_uint_cons _ _), UInt8.toNat_ofNat_of_lt' h.version,
    run_bind_of_ok (Field.run_uint_cons _ _), UInt8.toNat_ofNat_of_lt' h.name, run_bind_of_ok (hname _),
    run_bind_of_ok (Field.run_compactSize_encode _ h.templateLength),
    run_bind_of_ok (run_exactly_append _ h.template),
    run_bind_of_ok (Field.run_compactSize_encode _ h.keyCount), run_bind_of_ok hroot,
    EStateM.run_pure]

/-- Different fields are serialized differently, also across the versions.  The version stands in
front, and decides how long the template field is. -/
theorem toBytes_inj {s t : SerializedPolicy} (hs : s.HasForm) (ht : t.HasForm) :
    s.toBytes = t.toBytes ↔ s = t := by
  constructor
  · intro h
    have hread := run_read_toBytes hs
    rw [h, run_read_toBytes ht] at hread
    cases hread
    rfl
  · rintro rfl
    rfl

end SerializedPolicy

namespace Policy

/-- The fields that a policy with this name in Latin-1 is serialized with. -/
def serialized (p : Policy) (name : Bytes) : SerializedPolicy where
  version := p.version.number.toNat
  name := name
  templateLength := p.templateLength
  template := p.templateField
  keyCount := p.keys.length
  keysRoot := merkleRoot (p.keys.map Text.utf8)

/-- What a policy is like that has been serialized. -/
structure SerializesAs (p : Policy) (name bs : Bytes) : Prop where
  serialize : p.serialize = .ok bs
  version : p.version = .v1 ∨ p.version = .v2
  latin1 : Text.latin1 p.name = .ok name
  hasForm : (p.serialized name).HasForm
  bytes : bs = (p.serialized name).toBytes

theorem exists_serializesAs {p : Policy} {bs : Bytes} (h : p.serialize = .ok bs) :
    ∃ name, p.SerializesAs name bs := by
  have hserialize := h
  obtain ⟨header, hheader, h⟩ := bind_eq_ok.mp h
  obtain ⟨length, hlength, h⟩ := bind_eq_ok.mp h
  obtain ⟨count, hcount, h⟩ := bind_eq_ok.mp h
  obtain ⟨version, hversion, hheader⟩ := bind_eq_ok.mp hheader
  obtain ⟨short, hshort, hheader⟩ := bind_eq_ok.mp hheader
  obtain ⟨name, hname, hshort⟩ := bind_eq_ok.mp hshort
  obtain ⟨hlengthLt, rfl⟩ := CompactSize.write_ofNat_eq_ok.mp hlength
  obtain ⟨hcountLt, rfl⟩ := CompactSize.write_ofNat_eq_ok.mp hcount
  obtain ⟨hnameLt, hshort⟩ | ⟨-, hshort⟩ := ite_eq_ok.mp hshort
  rotate_left
  · cases hshort
  cases hshort
  cases hheader
  cases h
  -- Only the two versions have a byte, and each has that of its number.
  obtain ⟨hknown, rfl⟩ : (p.version = .v1 ∨ p.version = .v2) ∧
      version = [UInt8.ofNat p.version.number.toNat] := by
    cases hcase : p.version <;> rw [hcase] at hversion <;> cases hversion
    · exact ⟨.inl rfl, rfl⟩
    · exact ⟨.inr rfl, rfl⟩
  have hbyte : p.version.number.toNat < 256 := by
    rcases hknown with hcase | hcase <;> rw [hcase] <;> decide
  have hfield := p.length_templateField
  refine ⟨name, hserialize, hknown, hname,
    ⟨hbyte, hnameLt, hlengthLt, ?_, hcountLt, length_merkleRoot _⟩, ?_⟩
  · rcases hknown with hcase | hcase <;> rw [hcase] at hfield <;>
      simpa [serialized, hcase, PolicyVersion.number] using hfield
  · simp [SerializedPolicy.toBytes, serialized, templateLength]

/-! ## Ids -/

/-- Everything that is hashed to serialize a policy and to give its id.  These strings are all
that a collision could be made of. -/
def hashed (p : Policy) : List Hashed :=
  (p.serialize.toOption.toList ++ [Text.utf8 p.template]).map .bytes ++
    hashedElements (p.keys.map Text.utf8)

theorem bytes_template_mem_hashed (p : Policy) : .bytes (Text.utf8 p.template) ∈ p.hashed := by
  simp [hashed]

theorem bytes_serialize_mem_hashed {p : Policy} {bs : Bytes} (h : p.serialize = .ok bs) :
    .bytes bs ∈ p.hashed := by
  simp [hashed, h, Except.toOption]

theorem mem_hashed_of_mem_keys {p : Policy} {a : Hashed}
    (h : a ∈ hashedElements (p.keys.map Text.utf8)) : a ∈ p.hashed :=
  List.mem_append_right _ h

theorem id_eq_ok {p : Policy} {id : Bytes} :
    p.id = .ok id ↔ ∃ bs, p.serialize = .ok bs ∧ id = sha256 bs := by
  rw [Policy.id, bind_eq_ok]
  constructor
  · rintro ⟨bs, hbs, h⟩
    cases h
    exact ⟨bs, hbs, rfl⟩
  · rintro ⟨bs, hbs, rfl⟩
    exact ⟨bs, hbs, rfl⟩

/-- The template is determined by its field, which is the template or its digest. -/
theorem template_eq_or_collision {p q : Policy} (hversion : p.version = q.version)
    (hfield : p.templateField = q.templateField) :
    p.template = q.template ∨ Collision p.hashed q.hashed := by
  unfold templateField at hfield
  rw [hversion] at hfield
  split at hfield
  · exact .inl (Text.utf8_injective hfield)
  · exact (eq_or_collision p.bytes_template_mem_hashed q.bytes_template_mem_hashed
      hfield).imp_left fun h => Text.utf8_injective h

theorem keys_eq_or_collision {p q : Policy} (hcount : p.keys.length = q.keys.length)
    (hroot : merkleRoot (p.keys.map Text.utf8) = merkleRoot (q.keys.map Text.utf8)) :
    p.keys = q.keys ∨ Collision p.hashed q.hashed := by
  rcases elements_eq_or_collision (by simpa using hcount) hroot with hkeys | hcollision
  · exact .inl (List.map_injective_iff.mpr Text.utf8_injective hkeys)
  · exact .inr (hcollision.mono (fun _ => mem_hashed_of_mem_keys) fun _ => mem_hashed_of_mem_keys)

/-- Policies with the same id have the same version, name, template and keys, unless two of the
strings that were hashed for the two ids collide. -/
theorem eq_or_collision_of_id {p q : Policy} {id : Bytes} (hp : p.id = .ok id)
    (hq : q.id = .ok id) :
    (p.version = q.version ∧ p.name = q.name ∧ p.template = q.template ∧ p.keys = q.keys) ∨
      Collision p.hashed q.hashed := by
  obtain ⟨bs, hbs, rfl⟩ := id_eq_ok.mp hp
  obtain ⟨bs', hbs', hdigest⟩ := id_eq_ok.mp hq
  rcases eq_or_collision (bytes_serialize_mem_hashed hbs) (bytes_serialize_mem_hashed hbs')
    hdigest with rfl | hcollision
  rotate_left
  · exact .inr hcollision
  obtain ⟨name, hpSerial⟩ := exists_serializesAs hbs
  obtain ⟨name', hqSerial⟩ := exists_serializesAs hbs'
  -- The same bytes are the same fields.
  have hfields : p.serialized name = q.serialized name' :=
    (SerializedPolicy.toBytes_inj hpSerial.hasForm hqSerial.hasForm).mp
      (hpSerial.bytes.symm.trans hqSerial.bytes)
  injection hfields with hnumber hname _ hfield hcount hroot
  have hversion : p.version = q.version := by
    rcases hpSerial.version with hp | hp <;> rcases hqSerial.version with hq | hq <;>
      rw [hp, hq] at hnumber ⊢ <;> cases hnumber
  have hnames : p.name = q.name := by
    rw [← Text.ofLatin1_of_latin1 hpSerial.latin1, ← Text.ofLatin1_of_latin1 hqSerial.latin1, hname]
  rcases template_eq_or_collision hversion hfield with htemplate | hcollision
  · rcases keys_eq_or_collision hcount hroot with hkeys | hcollision
    · exact .inl ⟨hversion, hnames, htemplate, hkeys⟩
    · exact .inr hcollision
  · exact .inr hcollision

/-- A multisig wallet of the first version, and the same policy written by hand. -/
theorem eq_or_collision_of_id_of_multisig :
    let q : Policy :=
      { name := "Caffè", version := .v1, template := "wsh(sortedmulti(2,@0,@1))"
        keys := ["[76223a6e/48'/1']tpubA/**", "tpubB/**"] }
    ∃ m id, Multisig.make "Caffè" .wit 2 q.keys true .v1 = .ok m ∧ m.policy.id = .ok id ∧
      q.id = .ok id ∧
      ((m.policy.version = q.version ∧ m.policy.name = q.name ∧ m.policy.template = q.template ∧
        m.policy.keys = q.keys) ∨ Collision m.policy.hashed q.hashed) := by
  intro q
  have hmake : Multisig.make "Caffè" .wit 2 q.keys true .v1 = .ok ⟨q, 2⟩ := by cbv
  obtain ⟨hmade, hlength⟩ := Multisig.made_and_short hmake
  obtain ⟨bs, hbs⟩ : ∃ bs, q.serialize = .ok bs :=
    hmade.bounded.exists_serialize (.inl rfl) (hlength.trans_lt (by decide))
  have hid : q.id = .ok (sha256 bs) := id_eq_ok.mpr ⟨bs, hbs, rfl⟩
  exact ⟨⟨q, 2⟩, _, hmake, hid, hid, eq_or_collision_of_id hid hid⟩

end Policy
end SignerHost
