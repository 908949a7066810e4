import SignerHost.Client.Operations
import SignerHost.Proofs.Device.Lookup
import SignerHost.Proofs.Wallet.Serialization

/-!
# A device reads a policy from its id

The id of a policy is all that a device is given.  It reads the serialization that the id is the
digest of, then the template, and then the keys, and ends with the policy itself.

* `Device.readPolicy` is the program of the device.  It checks every byte string against its digest
  and every key against the root, and refuses a serialization with bytes left over.
* `KnowsPolicy` is what a responder has to know for that; `knowsPolicy_of_learnWallet` says that a
  client teaches it.
* `exists_run_readPolicy` puts both together, for either version.
-/

namespace SignerHost

open Step Responder

/-! ## The program of the device -/

namespace Device

/-- A whole byte string by its digest, checked against it.  A byte string with another digest
stops the program. -/
def checkedPreimage (digest : Bytes) : Device Bytes := do
  let preimage ← readPreimage digest
  if sha256 preimage ≠ digest then throw .mismatch
  return preimage

/-- A text in UTF-8. -/
def readText (bs : Bytes) : Device String :=
  match Text.ofUtf8? bs with
  | some text => return text
  | none => throw .garbled

def readVersion : Nat → Device PolicyVersion
  | 1 => return .v1
  | 2 => return .v2
  | _ => throw .garbled

/-- The template of a serialized policy.  In version 2 it is read by its digest, and has to have
the stated length. -/
def readTemplate (s : SerializedPolicy) : Device Bytes :=
  if s.version = 1 then return s.template
  else do
    let template ← checkedPreimage s.template
    if template.length ≠ s.templateLength then throw .mismatch
    return template

def readKey (root : Bytes) (count index : Nat) : Device String := do
  readText (← element root count index)

/-- A whole policy by its id.  What does not stand in the serialization is checked against what
stands there. -/
def readPolicy (id : Bytes) : Device Policy := do
  let s ← parse SerializedPolicy.read (← checkedPreimage id)
  let version ← readVersion s.version
  let template ← readText (← readTemplate s)
  let keys ← (List.range s.keyCount).mapM (readKey s.keysRoot s.keyCount)
  return { name := Text.ofLatin1 s.name, version, template, keys }

end Device

/-! ## What a responder has to know -/

namespace Policy

/-- The byte strings that a responder learns about a policy. -/
def learned (p : Policy) : List Bytes :=
  p.serialize.toOption.toList ++ Text.utf8 p.template :: p.keys.map Text.utf8

theorem mem_learned_of_serialize {p : Policy} {bs : Bytes} (h : p.serialize = .ok bs) :
    bs ∈ p.learned := by
  simp [learned, h, Except.toOption]

theorem template_mem_learned (p : Policy) : Text.utf8 p.template ∈ p.learned := by
  simp [learned]

theorem mem_learned_of_mem_keys {p : Policy} {bs : Bytes} (h : bs ∈ p.keys.map Text.utf8) :
    bs ∈ p.learned := by
  unfold learned
  exact List.mem_append_right _ (List.mem_cons_of_mem _ h)

end Policy

/-- The serialization, the template and the keys of a policy are known, and no answer is left
over. -/
structure KnowsPolicy (r : Responder) (p : Policy) (bs : Bytes) : Prop where
  idle : r.queue = []
  serialization : r.KnowsPreimage bs
  template : r.KnowsPreimage (Text.utf8 p.template)
  keys : r.KnowsList (p.keys.map Text.utf8)

namespace Client

/-- What is learned stays known until the end, as long as the strings of the policy do not
collide. -/
theorem knowsPolicy_of_learnWallet {p : Policy} {bs : Bytes} (hserialize : p.serialize = .ok bs)
    (hrun : NoCollision p.hashed) :
    ∃ r, (learnWallet p).run {} = .ok () r ∧ KnowsPolicy r p bs := by
  have hbs := Policy.bytes_serialize_mem_hashed hserialize
  have htemplate := p.bytes_template_mem_hashed
  have hkeys : ∀ a ∈ hashedElements (p.keys.map Text.utf8), a ∈ p.hashed :=
    fun _ => Policy.mem_hashed_of_mem_keys
  -- One responder for each registration, in their order.
  set first : Responder := ({} : Responder).withPreimage bs with hfirst
  set second : Responder :=
    { first.withList (p.keys.map Text.utf8) with
      keyLists := (first.withList (p.keys.map Text.utf8)).keyLists.learn
        (merkleRoot (p.keys.map Text.utf8)) p.keys } with hsecond
  have hlearn : (learnWallet p).run {} =
      .ok () (second.withPreimage (Text.utf8 p.template)) := by
    rw [learnWallet, hserialize, run_bind_of_ok (run_ofExcept_ok bs _),
      run_bind_of_ok (by rw [run_discard, run_addPreimage]),
      run_bind_of_ok (by rw [run_discard, run_addKeyList]), run_discard, run_addPreimage]
  have hknown : second.KnowsPreimage bs :=
    (knowsPreimage_withPreimage _ bs).withList hrun hkeys hbs
  have hlist : (first.withList (p.keys.map Text.utf8)).KnowsList (p.keys.map Text.utf8) :=
    knowsList_withList hrun hkeys
  have hlist : second.KnowsList (p.keys.map Text.utf8) := ⟨hlist.list, hlist.elements⟩
  refine ⟨_, hlearn, ?_, hknown.withPreimage hrun hbs htemplate,
    knowsPreimage_withPreimage _ _, hlist.withPreimage hrun hkeys htemplate⟩
  rw [queue_withPreimage]
  exact queue_withList first _

end Client

/-! ## Reading -/

namespace Device

theorem run_checkedPreimage {r : Responder} (hidle : r.queue = []) {preimage : Bytes}
    (hknown : r.KnowsPreimage preimage) (hlength : preimage.length < 2 ^ 64) :
    (checkedPreimage (sha256 preimage)).run r = .ok preimage r := by
  rw [checkedPreimage, run_bind_of_ok (run_readPreimage hidle (length_sha256 _) hknown hlength)]
  simp

theorem run_readText (text : String) (r : Responder) :
    (readText (Text.utf8 text)).run r = .ok text r := by
  simp [readText]

theorem run_readVersion {version : PolicyVersion} (h : version = .v1 ∨ version = .v2)
    (r : Responder) : (readVersion version.number.toNat).run r = .ok version r := by
  rcases h with rfl | rfl <;> rfl

section Policy

variable {p : Policy} {name bs : Bytes} (hserial : p.SerializesAs name bs) {r : Responder}
  (hknown : KnowsPolicy r p bs) (hshort : ∀ bs ∈ p.learned, bs.length < 2 ^ 64 - 1)

include hserial hknown hshort

/-- The template stands in the serialization, or is found under the digest that stands there. -/
theorem run_readTemplate :
    (readTemplate (p.serialized name)).run r = .ok (Text.utf8 p.template) r := by
  have hlength := hshort _ p.template_mem_learned
  -- The first version has the template itself, the second one its digest, which is looked up.
  rcases hserial.version with hversion | hversion
  · have hnumber : (p.serialized name).version = 1 := by
      rw [Policy.serialized, hversion]
      rfl
    have hfield : p.templateField = Text.utf8 p.template := by
      rw [Policy.templateField, hversion]
      rfl
    rw [readTemplate, if_pos hnumber, EStateM.run_pure, Policy.serialized, hfield]
  · have hnumber : (p.serialized name).version ≠ 1 := by
      rw [Policy.serialized, hversion]
      show (2 : Int).toNat ≠ 1
      decide
    have hfield : p.templateField = sha256 (Text.utf8 p.template) := by
      rw [Policy.templateField, hversion]
      rfl
    have hread := run_checkedPreimage hknown.idle hknown.template (hlength.trans (by decide))
    rw [readTemplate, if_neg hnumber, Policy.serialized, hfield, run_bind_of_ok hread]
    simp [Policy.templateLength]

theorem run_readKeys :
    ((List.range p.keys.length).mapM
      (readKey (merkleRoot (p.keys.map Text.utf8)) p.keys.length)).run r = .ok p.keys r := by
  apply run_mapM_of_forall₂
  refine List.forall₂_iff_get.mpr ⟨List.length_range, fun i _ hi => ?_⟩
  have hlength : (p.keys.map Text.utf8).length = p.keys.length := List.length_map _
  have hi' : i < (p.keys.map Text.utf8).length := by rwa [hlength]
  have hcount := hserial.hasForm.keyCount
  have helement := run_element hknown.idle (by rwa [hlength]) hi' hknown.keys
    (hshort _ (Policy.mem_learned_of_mem_keys (List.getElem_mem hi')))
  rw [hlength, List.getElem_map] at helement
  rw [List.get_eq_getElem, List.getElem_range, readKey, run_bind_of_ok helement]
  exact run_readText _ r

/-- A responder that knows a policy lets a device read it, and is left as it was.  It is put
together from the parts: the serialization by the id, the template, and the keys one by one. -/
theorem run_readPolicy : (readPolicy (sha256 bs)).run r = .ok p r := by
  have hlength := hshort _ (Policy.mem_learned_of_serialize hserial.serialize)
  have hread := run_checkedPreimage hknown.idle hknown.serialization (hlength.trans (by decide))
  have hparse : SerializedPolicy.read.run bs = .ok (p.serialized name) [] := by
    rw [hserial.bytes]
    exact SerializedPolicy.run_read_toBytes hserial.hasForm
  have hversion : (readVersion (p.serialized name).version).run r = .ok p.version r :=
    run_readVersion hserial.version r
  have hkeys : ((List.range (p.serialized name).keyCount).mapM
      (readKey (p.serialized name).keysRoot (p.serialized name).keyCount)).run r =
        .ok p.keys r := run_readKeys hserial hknown hshort
  have hname : Text.ofLatin1 (p.serialized name).name = p.name :=
    Text.ofLatin1_of_latin1 hserial.latin1
  rw [readPolicy, run_bind_of_ok hread, run_bind_of_ok (run_parse_of_run hparse r),
    run_bind_of_ok hversion, run_bind_of_ok (run_readTemplate hserial hknown hshort),
    run_bind_of_ok (run_readText p.template r), run_bind_of_ok hkeys, EStateM.run_pure, hname]

end Policy

/-- A policy of either version that can be made has an id, and a device that is given no more
than the id reads the whole policy from the responder that the client prepares for it.  All bytes
of the serialization are consumed, and no answer is left over.  The policy of a multisig wallet
can be made, too, by `Multisig.made_and_short`. -/
theorem exists_run_readPolicy {p : Policy} (hmade : p.Made)
    (hversion : p.version = .v1 ∨ p.version = .v2) (hcollision : NoCollision p.hashed)
    (hshort : ∀ bs ∈ p.learned, bs.length < 2 ^ 64 - 1) :
    ∃ id r, p.id = .ok id ∧ (Client.learnWallet p).run {} = .ok () r ∧ r.queue = [] ∧
      (readPolicy id).run r = .ok p r := by
  have htemplate : p.templateLength < 2 ^ 64 :=
    (hshort _ p.template_mem_learned).trans (by decide)
  obtain ⟨bs, hserialize⟩ := hmade.bounded.exists_serialize hversion htemplate
  obtain ⟨name, hserial⟩ := Policy.exists_serializesAs hserialize
  obtain ⟨r, hlearn, hknown⟩ := Client.knowsPolicy_of_learnWallet hserialize hcollision
  exact ⟨sha256 bs, r, Policy.id_eq_ok.mpr ⟨bs, hserialize, rfl⟩, hlearn, hknown.idle,
    run_readPolicy hserial hknown hshort⟩

/-- A policy of the second version with a name and a key outside of ASCII. -/
theorem exists_run_readPolicy_of_two_keys :
    let p : Policy :=
      { name := "Caffè", version := .v2, template := "wsh(multi(1,@0/**,@1/**))"
        keys := ["[76223a6e/48'/1']tpubA", "tpub€"] }
    p.Made ∧ (p.version = .v1 ∨ p.version = .v2) ∧ NoCollision p.hashed ∧
      (∀ bs ∈ p.learned, bs.length < 2 ^ 64 - 1) ∧
      ∃ id r, p.id = .ok id ∧ (Client.learnWallet p).run {} = .ok () r ∧ r.queue = [] ∧
        (readPolicy id).run r = .ok p r := by
  intro p
  have hmade : p.Made := ⟨_, _, _, _, (by cbv : Policy.make p.name .v2 p.template p.keys = .ok p)⟩
  have hcollision : NoCollision p.hashed := by decide +kernel
  have hshort : ∀ bs ∈ p.learned, bs.length < 2 ^ 64 - 1 := by decide +kernel
  exact ⟨hmade, .inr rfl, hcollision, hshort,
    exists_run_readPolicy hmade (.inr rfl) hcollision hshort⟩

end Device
end SignerHost
