import SignerHost.Proofs.Client.Operation
import SignerHost.Proofs.Wallet.Policy

/-!
# The size of commands

Of all commands that an operation may send, one kind does not always fit: the command that
registers a policy of version 1, which carries the template itself.  With more than 216 bytes of
name and template its data is longer than 255 bytes, and the command is sent nevertheless.

* `fits_registerWallet_iff` has the bound for one policy, and `fits_of_opening` covers the first
  command of every operation.
* `sent_fits` is about everything that an operation sends; the commands after the first one always
  fit, because answers do.
* `exists_sent_of_oversized` says that an oversized registration is sent, not refused.
-/

namespace SignerHost

open Step

/-! ## Registering a policy -/

namespace Policy

/-- Name and template of version 1 leave no room for the rest of the serialization. -/
def Oversized (p : Policy) : Prop := p.version = .v1 ∧ 216 < p.name.length + p.templateLength

/-- The rest of the serialization takes 35 bytes, and the length of the template and the length of
the whole take at least one byte each. -/
theorem Bounded.fits_registerWallet_iff {p : Policy} (h : p.Bounded) {c : Command}
    (hc : Command.registerWallet (.policy p) = .ok c) : c.Fits ↔ ¬ p.Oversized := by
  obtain ⟨bs, hserialize, -⟩ := Command.registerWallet_eq_ok.mp hc
  obtain ⟨-, hlength⟩ := h.length_serialize hserialize
  have hsize := CompactSize.length_encode_le p.templateLength
  have hname := h.length_name_le
  rw [Command.fits_registerWallet_iff hserialize hc, hlength, length_templateField]
  unfold Oversized
  cases hversion : p.version with
  | v1 =>
      rw [if_pos (show PolicyVersion.v1.number = 1 from rfl)]
      by_cases hlong : 252 < p.templateLength
      · have hthree := CompactSize.three_le_length_encode hlong
        simp only [true_and]
        omega
      · have hone := CompactSize.length_encode_of_le (Nat.not_lt.mp hlong)
        simp only [true_and]
        omega
  | v2 =>
      -- The digest takes the place of the template.
      rw [if_neg (show PolicyVersion.v2.number ≠ 1 by decide)]
      simp only [reduceCtorEq, false_and, not_false_iff, iff_true]
      omega
  | bare n =>
      obtain ⟨header, hheader, -⟩ := bind_eq_ok.mp hserialize
      obtain ⟨version, hbyte, -⟩ := bind_eq_ok.mp hheader
      rw [hversion] at hbyte
      cases hbyte

end Policy

/-! ## The first command -/

namespace Operation

/-- The operation registers a policy that is too long for it. -/
def Oversized : Operation → Prop
  | registerWallet (.policy p) => p.Oversized
  | _ => False

/-- The policy to be registered was made by its constructor.  Other operations need nothing of
the kind, because their data has a bound of its own. -/
def RegistersMade (op : Operation) : Prop :=
  ∀ p, op = registerWallet (.policy p) → p.Made

theorem fits_of_opening {op : Operation} (hmade : op.RegistersMade) {c : Command}
    (h : op.opening = .ok c) : c.HeaderFits ∧ (c.Fits ↔ ¬ op.Oversized) := by
  -- Every operation but a registration opens with a command that fits, whatever its arguments are.
  have always (hfits : c.Fits) (hshort : ¬ op.Oversized) :
      c.HeaderFits ∧ (c.Fits ↔ ¬ op.Oversized) := ⟨hfits.header, iff_of_true hfits hshort⟩
  cases op with
  | connect =>
      cases h
      exact always Command.fits_getVersion id
  | getVersion =>
      cases h
      exact always Command.fits_getVersion id
  | getMasterFingerprint =>
      cases h
      exact always Command.fits_getMasterFingerprint id
  | getExtendedPubkey path display =>
      exact always (Command.fits_of_getExtendedPubkey h) id
  | registerWallet wallet =>
      obtain ⟨policy, hpolicy, h⟩ := bind_eq_ok.mp h
      obtain ⟨_, -, hcommand⟩ := bind_eq_ok.mp h
      obtain rfl := Client.eq_policy_of_usablePolicy hpolicy
      exact ⟨Command.headerFits_of_registerWallet hcommand,
        (hmade policy rfl).bounded.fits_registerWallet_iff hcommand⟩
  | getWalletAddress wallet hmac change index display =>
      obtain ⟨policy, hpolicy, h⟩ := bind_eq_ok.mp h
      obtain ⟨-, h⟩ := guard_eq_ok.mp h
      obtain ⟨-, h⟩ := guard_eq_ok.mp h
      obtain ⟨-, -, h⟩ := bind_eq_ok.mp h
      exact always (Command.fits_of_getWalletAddress (Client.usablePolicy_eq_ok.mp hpolicy).2 h) id
  | signPsbt source wallet hmac =>
      obtain ⟨policy, hpolicy, h⟩ := bind_eq_ok.mp h
      obtain ⟨psbt, -, h⟩ := bind_eq_ok.mp h
      obtain ⟨⟨_, responder⟩, -, h⟩ := bind_eq_ok.mp h
      obtain ⟨⟨commitments, registered⟩, hregister, h⟩ := bind_eq_ok.mp h
      obtain ⟨f, -, -, rfl, -⟩ := Psbt.run_register_eq_ok.mp (Client.prepared_eq_ok.mp hregister)
      exact always (Command.fits_of_signPsbt (ByteMap.length_commitment_le _)
        (length_merkleRoot _) (length_merkleRoot _) (Client.usablePolicy_eq_ok.mp hpolicy).2 h) id
  | signMessage message path =>
      obtain ⟨⟨root, responder⟩, hlearned, h⟩ := bind_eq_ok.mp h
      obtain ⟨rfl, -⟩ := Client.of_addList hlearned
      exact always (Command.fits_of_signMessage (length_merkleRoot _) h) id

/-! ## Everything that is sent -/

/-- Every command that is sent fits and can be written, for every device; the only exception is the
first command of an oversized registration, whose data is too long. -/
theorem sent_fits (client : Client) {op : Operation} (hmade : op.RegistersMade) (link : Link) :
    ∃ sent, sentCommands (after (op.perform client) link).events =
        sentCommands link.events ++ sent ∧
      (∀ c ∈ sent.tail, c.Fits ∧ ∃ bs, c.serialize = .ok bs) ∧
      ∀ c ∈ sent.head?, c.HeaderFits ∧
        (¬ op.Oversized → c.Fits ∧ ∃ bs, c.serialize = .ok bs) ∧
        (op.Oversized → c.serialize = .error (.input (.commandLength c.data.length))) := by
  obtain ⟨events, hevents, hend⟩ := (op.opens_perform client).run link
  refine ⟨sentCommands events, ?_, ?_⟩
  · rw [hevents, sentCommands_append]
  cases hopening : op.opening with
  | error failure =>
      rw [hopening] at hend
      rw [hend.1]
      exact ⟨fun c hc => (List.not_mem_nil hc).elim, fun c hc => by cases hc⟩
  | ok first =>
      rw [hopening] at hend
      -- The commands behind the first carry answers, which are short.  So the first one decides.
      obtain ⟨rest, hsent, hrest, -⟩ := hend
      obtain ⟨hheader, hfits⟩ := fits_of_opening hmade hopening
      rw [hsent]
      refine ⟨fun c hc => ⟨hrest c hc, Command.fits_iff.mp (hrest c hc)⟩, ?_⟩
      rintro c ⟨⟩
      refine ⟨hheader, fun hshort => ?_, fun hlong => ?_⟩
      · exact ⟨hfits.mpr hshort, Command.fits_iff.mp (hfits.mpr hshort)⟩
      · exact Command.serialize_of_not_fits hheader fun h => hfits.mp h hlong

/-- A policy whose template is short leaves room for everything else. -/
theorem sent_fits_of_short_template :
    let p : Policy :=
      { name := "Cold storage", version := .v1, template := "wpkh(@0)", keys := ["xpub/**"] }
    let link : Link := { replies := [], afterwards := fun _ => .ok [], hasSessions := false }
    (registerWallet (.policy p)).RegistersMade ∧
      ∀ c ∈ sentCommands (after ((registerWallet (.policy p)).perform {}) link).events,
        c.Fits ∧ ∃ bs, c.serialize = .ok bs := by
  intro p link
  have hmade : (registerWallet (.policy p)).RegistersMade := by
    rintro p' ⟨⟩
    exact Policy.made_iff_bounded.mpr ⟨rfl, ⟨_, if_pos (by decide), by decide⟩, by decide⟩
  have hshort : ¬ p.Oversized := fun h => absurd h.2 (by decide)
  refine ⟨hmade, ?_⟩
  obtain ⟨sent, hsent, htail, hhead⟩ := sent_fits {} hmade link
  rw [hsent]
  cases sent with
  | nil =>
      intro c hc
      cases hc
  | cons first rest =>
      exact List.forall_mem_cons.mpr ⟨(hhead first rfl).2.1 hshort, htail⟩

/-- A policy with a version of its own is not refused, long as its template may be. -/
theorem exists_opening_registerWallet {p : Policy} (h : p.Bounded)
    (hversion : p.version = .v1 ∨ p.version = .v2) (htemplate : p.templateLength < 2 ^ 63) :
    ∃ c, (registerWallet (.policy p)).opening = .ok c := by
  obtain ⟨bs, hserialize⟩ := h.exists_serialize hversion (htemplate.trans (by decide))
  have hlength : bs.length < 2 ^ 64 := by
    obtain ⟨-, hlength⟩ := h.length_serialize hserialize
    have hname := h.length_name_le
    have hsize := CompactSize.length_encode_le p.templateLength
    rw [hlength, Policy.length_templateField]
    split <;> omega
  obtain ⟨r, hlearn, -⟩ := Client.exists_run_learnWallet hserialize .new
  have husable : Client.usablePolicy (.policy p) none = .ok p := by
    refine Client.usablePolicy_eq_ok.mpr ⟨if_pos h.version, ?_⟩
    intro code hcode
    cases hcode
  exact ⟨_, bind_eq_ok.mpr ⟨p, husable, bind_eq_ok.mpr ⟨_, Client.prepared_eq_ok.mpr hlearn,
    Command.registerWallet_eq_ok.mpr ⟨bs, hserialize, hlength, rfl⟩⟩⟩⟩

/-- An oversized registration is sent, by every client and on every link. -/
theorem exists_sent_of_oversized (client : Client) {p : Policy} (hmade : p.Made)
    (hlong : p.Oversized) (htemplate : p.templateLength < 2 ^ 63) (link : Link) :
    ∃ c rest, sentCommands (after ((registerWallet (.policy p)).perform client) link).events =
        sentCommands link.events ++ c :: rest ∧
      c.serialize = .error (.input (.commandLength c.data.length)) := by
  obtain ⟨c, hopening⟩ := exists_opening_registerWallet hmade.bounded (.inl hlong.1) htemplate
  have hregisters : (registerWallet (.policy p)).RegistersMade := by
    rintro p' ⟨⟩
    exact hmade
  obtain ⟨hheader, hfits⟩ := fits_of_opening hregisters hopening
  obtain ⟨events, hevents, hend⟩ := ((registerWallet (.policy p)).opens_perform client).run link
  rw [hopening] at hend
  obtain ⟨rest, hsent, -⟩ := hend
  refine ⟨c, rest, ?_, Command.serialize_of_not_fits hheader fun h => hfits.mp h hlong⟩
  rw [hevents, sentCommands_append, hsent]

/-- Twenty-five keys in a template of version 1 are too many. -/
theorem sent_too_long_of_many_keys :
    let p : Policy :=
      { name := "Cold storage"
        version := .v1
        template :=
          "wsh(thresh(1,pk(@0),s:pk(@1),s:pk(@2),s:pk(@3),s:pk(@4),s:pk(@5),s:pk(@6),s:pk(@7),s" ++
          ":pk(@8),s:pk(@9),s:pk(@10),s:pk(@11),s:pk(@12),s:pk(@13),s:pk(@14),s:pk(@15),s:pk(@1" ++
          "6),s:pk(@17),s:pk(@18),s:pk(@19),s:pk(@20),s:pk(@21),s:pk(@22),s:pk(@23),s:pk(@24)))"
        keys := List.replicate 25 "xpub/**" }
    let link : Link := { replies := [], afterwards := fun _ => .ok [], hasSessions := false }
    p.Made ∧ ∃ c ∈ sentCommands (after ((registerWallet (.policy p)).perform {}) link).events,
      ¬ c.Fits ∧ c.serialize = .error (.input (.commandLength c.data.length)) := by
  intro p link
  have hmade : p.Made :=
    Policy.made_iff_bounded.mpr ⟨rfl, ⟨_, if_pos (by decide), by decide⟩, by decide⟩
  have hlength : p.templateLength = 252 := by decide +kernel
  have hlong : p.Oversized := ⟨rfl, by rw [hlength]; decide⟩
  obtain ⟨c, rest, hsent, herror⟩ :=
    exists_sent_of_oversized {} hmade hlong (by rw [hlength]; decide) link
  refine ⟨hmade, c, ?_, fun hfits => ?_, herror⟩
  · rw [hsent]
    exact List.mem_append_right _ List.mem_cons_self
  · obtain ⟨bs, hserialize⟩ := Command.fits_iff.mp hfits
    rw [herror] at hserialize
    cases hserialize

end Operation
end SignerHost
