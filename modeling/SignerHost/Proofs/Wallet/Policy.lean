import SignerHost.Proofs.CompactSize
import SignerHost.Proofs.Merkle.Binding
import SignerHost.Wallet.Multisig

/-!
# The size of a wallet

A wallet that its constructors give has a short name, few keys and a known version.  Its
serialization ends with 33 bytes for the keys, so its length depends on the name and the template
alone.

* `Made` is what the constructors of policies give; those of multisig wallets give nothing else.
* `Made.length_serialize` is the length of the serialization.
* The template of a multisig wallet is short, in either version (`Multisig.length_template_le`).
-/

namespace SignerHost

open Step

/-! ## Text -/

namespace Text

theorem length_utf8 (text : String) : (utf8 text).length = text.utf8ByteSize := by
  rw [utf8, Array.length_toList, ByteArray.size_data]
  rfl

theorem length_of_latin1 {text : String} {bs : Bytes} (h : latin1 text = .ok bs) :
    bs.length = text.length := by
  unfold latin1 at h
  split_ifs at h
  cases h
  rw [List.length_map, String.length_toList]

theorem shortString_of_latin1 {text : String} {bs : Bytes} (h : latin1 text = .ok bs)
    (hlength : bs.length < 256) :
    shortString text = .ok (UInt8.ofNat bs.length :: bs) := by
  rw [shortString, h]
  exact if_pos hlength

/-- What is joined is at most as long as its parts, each with one separator. -/
theorem utf8ByteSize_intercalate_le (separator : String) {parts : List String} {width : Nat}
    (h : ∀ part ∈ parts, part.utf8ByteSize ≤ width) :
    (String.intercalate separator parts).utf8ByteSize ≤
      parts.length * (width + separator.utf8ByteSize) := by
  induction parts with
  | nil => exact Nat.zero_le _
  | cons first rest ih =>
      obtain ⟨hfirst, hrest⟩ := List.forall_mem_cons.mp h
      cases rest with
      | nil =>
          rw [String.intercalate_singleton, List.length_singleton]
          omega
      | cons second rest =>
          have ih := ih hrest
          rw [String.intercalate_cons_cons, String.utf8ByteSize_append,
            String.utf8ByteSize_append, List.length_cons, Nat.succ_mul]
          omega

end Text

/-! ## Wallets that can be made -/

namespace Policy

/-- The policy was made by its constructor.  A policy that was changed after that need not be. -/
def Made (p : Policy) : Prop :=
  ∃ name version template keys, Policy.make name version template keys = .ok p

/-- The name of a policy has a form of at most 64 bytes, and there are at most 252 keys.  The
constructor checks this, and nothing else. -/
structure Bounded (p : Policy) : Prop where
  version : p.version.isKnown = true
  name : ∃ bs, Text.latin1 p.name = .ok bs ∧ bs.length ≤ WalletHeader.maxName
  keys : p.keys.length ≤ maxKeys

theorem template_of_make {name template : String} {version : PolicyVersion} {keys : List String}
    {p : Policy} (h : make name version template keys = .ok p) : p.template = template := by
  obtain ⟨header, -, h⟩ := bind_eq_ok.mp h
  obtain ⟨-, h⟩ := guard_eq_ok.mp h
  cases h
  rfl

/-- The bounds are enough for the constructor. -/
theorem Bounded.make_eq {p : Policy} (h : p.Bounded) :
    make p.name p.version p.template p.keys = .ok p := by
  obtain ⟨bs, hname, hlength⟩ := h.name
  have hheader : WalletHeader.make p.name p.version = .ok p.toWalletHeader := by
    unfold WalletHeader.make
    refine guard_eq_ok.mpr ⟨not_not.mpr h.version, ?_⟩
    exact bind_eq_ok.mpr ⟨bs, hname, guard_eq_ok.mpr ⟨Nat.not_lt.mpr hlength, rfl⟩⟩
  exact bind_eq_ok.mpr ⟨_, hheader, guard_eq_ok.mpr ⟨Nat.not_lt.mpr h.keys, rfl⟩⟩

/-- The bounds are all that the constructor asks for.  Neither the template nor the texts of the
keys are looked at. -/
theorem made_iff_bounded {p : Policy} : p.Made ↔ p.Bounded := by
  constructor
  · rintro ⟨name, version, template, keys, h⟩
    obtain ⟨header, hheader, h⟩ := bind_eq_ok.mp h
    unfold WalletHeader.make at hheader
    obtain ⟨hversion, hheader⟩ := guard_eq_ok.mp hheader
    obtain ⟨bs, hname, hheader⟩ := bind_eq_ok.mp hheader
    obtain ⟨hlength, hheader⟩ := guard_eq_ok.mp hheader
    cases hheader
    obtain ⟨hkeys, h⟩ := guard_eq_ok.mp h
    cases h
    exact ⟨not_not.mp hversion, ⟨bs, hname, Nat.not_lt.mp hlength⟩, Nat.not_lt.mp hkeys⟩
  · intro h
    exact ⟨p.name, p.version, p.template, p.keys, h.make_eq⟩

theorem Made.bounded {p : Policy} (h : p.Made) : p.Bounded := made_iff_bounded.mp h

theorem Bounded.length_name_le {p : Policy} (h : p.Bounded) : p.name.length ≤ 64 := by
  obtain ⟨bs, hname, hlength⟩ := h.name
  rw [← Text.length_of_latin1 hname]
  exact hlength

/-- The number of bytes of a template. -/
def templateLength (p : Policy) : Nat := (Text.utf8 p.template).length

theorem length_templateField (p : Policy) :
    p.templateField.length = if p.version.number = 1 then p.templateLength else 32 := by
  unfold templateField templateLength
  split
  · rfl
  · exact length_sha256 _

/-- The version, the name behind its length, the template behind the length of it, the number of
keys, and their root. -/
theorem Bounded.length_serialize {p : Policy} (h : p.Bounded) {bs : Bytes}
    (hserialize : p.serialize = .ok bs) :
    p.templateLength < 2 ^ 64 ∧
      bs.length = 35 + p.name.length + (CompactSize.encode p.templateLength).length
        + p.templateField.length := by
  obtain ⟨name, hname, hlength⟩ := h.name
  have hshort : name.length < 256 := lt_of_le_of_lt hlength (by decide)
  have hkeys : p.keys.length ≤ 252 := h.keys
  obtain ⟨header, hheader, hserialize⟩ := bind_eq_ok.mp hserialize
  obtain ⟨length, htemplate, hserialize⟩ := bind_eq_ok.mp hserialize
  obtain ⟨count, hcount, hserialize⟩ := bind_eq_ok.mp hserialize
  obtain ⟨version, hversion, hheader⟩ := bind_eq_ok.mp hheader
  rw [Text.shortString_of_latin1 hname hshort] at hheader
  obtain ⟨hfits, rfl⟩ := CompactSize.write_ofNat_eq_ok.mp htemplate
  obtain ⟨-, rfl⟩ := CompactSize.write_ofNat_eq_ok.mp hcount
  have hbyte : version.length = 1 := by
    cases hcase : p.version <;> rw [hcase] at hversion <;> cases hversion <;> rfl
  cases hheader
  cases hserialize
  refine ⟨hfits, ?_⟩
  simp only [List.length_append, List.length_cons, length_merkleRoot,
    CompactSize.length_encode_of_le hkeys, Text.length_of_latin1 hname, hbyte]
  rw [templateLength]
  omega

/-- A policy with a version of its own can be serialized, unless its template has no length. -/
theorem Bounded.exists_serialize {p : Policy} (h : p.Bounded)
    (hversion : p.version = .v1 ∨ p.version = .v2) (htemplate : p.templateLength < 2 ^ 64) :
    ∃ bs, p.serialize = .ok bs := by
  obtain ⟨name, hname, hlength⟩ := h.name
  have hshort : name.length < 256 := lt_of_le_of_lt hlength (by decide)
  have hkeys : p.keys.length < 2 ^ 64 := lt_of_le_of_lt h.keys (by decide)
  obtain ⟨version, hbyte⟩ : ∃ bs, p.version.byte = .ok bs := by
    rcases hversion with hversion | hversion <;> rw [hversion] <;> exact ⟨_, rfl⟩
  have hheader : p.toWalletHeader.serialize =
      .ok (version ++ UInt8.ofNat name.length :: name) := by
    rw [WalletHeader.serialize, hbyte, Text.shortString_of_latin1 hname hshort]
    rfl
  exact ⟨_, bind_eq_ok.mpr ⟨_, hheader, bind_eq_ok.mpr ⟨_, CompactSize.write_ofNat htemplate,
    bind_eq_ok.mpr ⟨_, CompactSize.write_ofNat hkeys, rfl⟩⟩⟩⟩

end Policy

/-! ## Multisig wallets -/

namespace Multisig

theorem utf8ByteSize_placeholder_le (version : PolicyVersion) {i : Nat} (hi : i < maxKeys) :
    (placeholder version i).utf8ByteSize ≤ 6 := by
  have hdigits : ∀ n < maxKeys, (toString n).utf8ByteSize ≤ 2 := by decide
  have hdigits := hdigits i hi
  have hat : "@".utf8ByteSize = 1 := by decide
  have hbranch : "/**".utf8ByteSize = 3 := by decide
  have hempty : "".utf8ByteSize = 0 := by decide
  rw [placeholder, String.utf8ByteSize_append, String.utf8ByteSize_append]
  split <;> omega

/-- Sixteen keys are few enough for a short template, in either version. -/
theorem length_template_le {wrapper : String × String} {type : AddressType}
    (hwrapper : type.wrapper? = some wrapper) (sorted : Bool) {threshold count : Nat}
    (version : PolicyVersion) (hthreshold : threshold ≤ maxKeys) (hcount : count ≤ maxKeys) :
    (Text.utf8 (template wrapper sorted threshold count version)).length ≤ 137 := by
  -- Each part of the template is bounded on its own; numbers up to 16 have two digits at most.
  have hdigits : ∀ n ≤ maxKeys, (toString n).utf8ByteSize ≤ 2 := by decide
  have hdigits := hdigits threshold hthreshold
  have hparts : wrapper.1.utf8ByteSize + wrapper.2.utf8ByteSize ≤ 10 := by
    cases type <;> cases hwrapper <;> decide
  have hcomma : ",".utf8ByteSize = 1 := by decide
  have hsorted : (if sorted then "sortedmulti(" else "multi(").utf8ByteSize ≤ 12 := by
    cases sorted <;> decide
  have hplaceholders : ∀ part ∈ (List.range count).map (placeholder version),
      part.utf8ByteSize ≤ 6 := by
    intro part hpart
    obtain ⟨i, hi, rfl⟩ := List.mem_map.mp hpart
    exact utf8ByteSize_placeholder_le version ((List.mem_range.mp hi).trans_le hcount)
  have hkeys := Text.utf8ByteSize_intercalate_le "," hplaceholders
  rw [List.length_map, List.length_range, hcomma] at hkeys
  have hcount : count ≤ 16 := hcount
  rw [Text.length_utf8, template]
  simp only [String.utf8ByteSize_append]
  omega

/-- A multisig wallet is a policy like any other, with a short template. -/
theorem made_and_short {name : String} {type : AddressType} {threshold : Int} {keys : List String}
    {sorted : Bool} {version : PolicyVersion} {m : Multisig}
    (h : make name type threshold keys sorted version = .ok m) :
    m.policy.Made ∧ m.policy.templateLength ≤ 137 := by
  unfold make at h
  obtain ⟨hcounts, h⟩ := guard_eq_ok.mp h
  push Not at hcounts
  obtain ⟨hpositive, hthreshold, hkeys⟩ := hcounts
  cases hwrapper : type.wrapper? with
  | none =>
      rw [hwrapper] at h
      cases h
  | some wrapper =>
      rw [hwrapper] at h
      obtain ⟨policy, hpolicy, h⟩ := bind_eq_ok.mp h
      cases h
      refine ⟨⟨_, _, _, _, hpolicy⟩, ?_⟩
      rw [Policy.templateLength, Policy.template_of_make hpolicy]
      exact length_template_le hwrapper sorted version (by omega) hkeys

end Multisig
end SignerHost
