import SignerHost.Proofs.Bytes
import SignerHost.Proofs.Reader
import SignerHost.Proofs.Wire
import SignerHost.Psbt.Source

/-!
# Reading a piece of data

Reading goes forward within the data.  It stops where the data is no part of a transaction, where it
ends although a count or a length is due, and where a length is stated that no byte string can have.

* `Stop` lists these failures, with the place where the data ends and the length as it is stated.
* The judgement `Parses` says that a reader goes forward from certain places, and fails only in
  given ways; it has one rule for each way to build a reader.
* Integers are read from a number of bytes and written again in as many, so what is read `fits`.
-/

namespace SignerHost

open Step

/-! ## What stands in the data -/

/-- A number of eight bytes stands in the data behind its marker. -/
def StatesNumber (data : Bytes) (n : Nat) : Prop :=
  ∃ bs : Bytes, bs.length = 8 ∧ Bytes.toNatLE bs = n ∧ 0xFF :: bs <:+: data

/-- A place in the data: bytes that stand in it one after the other.  Nothing is said about where
it begins. -/
def Within (data s : Bytes) : Prop := s <:+: data

theorem StatesNumber.mono {data part : Bytes} {n : Nat} (h : StatesNumber part n)
    (hpart : part <:+: data) : StatesNumber data n := by
  obtain ⟨bs, hlength, hn, hbs⟩ := h
  exact ⟨bs, hlength, hn, hbs.trans hpart⟩

/-! ## Failures and what they are due to -/

/-- How reading a piece of data may fail, given what is left of it. -/
inductive Stop (data : Bytes) : Bytes → Failure → Prop
  | unreadable {rest : Bytes} : Stop data rest (.psbt .unreadable)
  /-- No byte is left where a count or a length is due. -/
  | missingCompactSize : Stop data [] .missingCompactSize
  /-- A length is no word. -/
  | overflow {rest : Bytes} {n : Nat} (hn : 2 ^ 63 ≤ n) (h : StatesNumber data n) :
      Stop data rest .overflow

/-- From the places in question a reader goes forward and gives a value with a property, or fails in
one of the given ways. -/
structure Parses {α : Type} (P : Bytes → Failure → Prop) (places : Bytes → Prop) (x : Reader α)
    (Q : α → Prop) : Prop where
  ok : ∀ {s rest : Bytes} {a : α}, places s → x.run s = .ok a rest → rest <:+ s ∧ Q a
  error : ∀ {s rest : Bytes} {failure : Failure}, places s →
    x.run s = .error failure rest → P rest failure

/-- A reader of one piece of data.  It fails only as a reader of the pieces of a transaction may. -/
abbrev Takes {α : Type} (data : Bytes) (x : Reader α) (Q : α → Prop) : Prop :=
  Parses (Stop data) (Within data) x Q

/-- A result that is no reader and fails with data that is no transaction. -/
abbrev Refuses {α : Type} (x : Except Failure α) : Prop := FailsOnly (· = .psbt .unreadable) x

theorem Refuses.refuse {α : Type} : Refuses (Wire.refuse : Except Failure α) := .error rfl

namespace Parses

variable {α β : Type} {P : Bytes → Failure → Prop} {places : Bytes → Prop} {data : Bytes}
  {Q : α → Prop} {R : β → Prop}

theorem mono {Q' : α → Prop} {x : Reader α} (h : Parses P places x Q) (hQ : ∀ a, Q a → Q' a) :
    Parses P places x Q' where
  ok := fun hs hrun => ⟨(h.ok hs hrun).1, hQ _ (h.ok hs hrun).2⟩
  error := h.error

theorem ofExcept {e : Except Failure α} (h : FailsOnly (fun failure => ∀ rest, P rest failure) e)
    (hQ : ∀ a, e = .ok a → Q a) : Parses P places (MonadExcept.ofExcept e) Q where
  ok := by
    intro s rest a _ hrun
    obtain ⟨ha, rfl⟩ := run_ofExcept_eq_ok.mp hrun
    exact ⟨List.suffix_refl rest, hQ a ha⟩
  error := by
    intro s rest failure _ hrun
    cases e with
    | ok a => cases hrun
    | error failure' =>
        cases hrun
        exact h _ rfl _

theorem pure {a : α} (h : Q a) : Parses P places (Pure.pure a) Q :=
  ofExcept (e := .ok a) (.pure a) fun _ heq => by
    cases heq
    exact h

theorem ite {c : Prop} [Decidable c] {x y : Reader α} (hx : c → Parses P places x Q)
    (hy : ¬ c → Parses P places y Q) : Parses P places (if c then x else y) Q := by
  split
  · exact hx ‹_›
  · exact hy ‹_›

/-- The second part of a chain starts at the places that the first part leads to. -/
theorem bindAt {after : α → Bytes → Prop} {x : Reader α} {f : α → Reader β}
    (hx : Parses P places x Q)
    (hafter : ∀ {s s' : Bytes} {a : α}, places s → x.run s = .ok a s' → after a s')
    (hf : ∀ a, Q a → Parses P (after a) (f a) R) : Parses P places (x >>= f) R where
  ok := by
    intro s rest b hs hrun
    obtain ⟨a, s', hfirst, hrest⟩ := run_bind_eq_ok.mp hrun
    -- What the second part reads is left by the first one, so it is further on in the data.
    obtain ⟨hforward, ha⟩ := hx.ok hs hfirst
    obtain ⟨hfurther, hb⟩ := (hf a ha).ok (hafter hs hfirst) hrest
    exact ⟨hfurther.trans hforward, hb⟩
  error := by
    intro s rest failure hs hrun
    cases hfirst : x.run s with
    | ok a s' =>
        rw [run_bind_of_ok hfirst] at hrun
        exact (hf a (hx.ok hs hfirst).2).error (hafter hs hfirst) hrun
    | error failure' s' =>
        rw [run_bind_of_error hfirst] at hrun
        cases hrun
        exact hx.error hs hfirst

theorem bind {x : Reader α} {f : α → Reader β} (hx : Parses P (Within data) x Q)
    (hf : ∀ a, Q a → Parses P (Within data) (f a) R) : Parses P (Within data) (x >>= f) R :=
  bindAt hx (fun hs hrun => (hx.ok hs hrun).1.isInfix.trans hs) hf

theorem discard {x : Reader α} (h : Parses P (Within data) x Q) :
    Parses P (Within data) (Functor.discard x) fun _ => True :=
  bind (f := fun _ => Pure.pure ()) h fun _ _ => pure trivial

/-- The same reader any number of times. -/
theorem many {x : Reader α} (hx : Parses P (Within data) x Q) (n : Nat) :
    Parses P (Within data) (Wire.many x n) fun as => ∀ a ∈ as, Q a := by
  induction n with
  | zero => exact pure (by simp)
  | succ n ih =>
      refine bind hx fun first hfirst => bind ih fun rest hrest => pure ?_
      exact List.forall_mem_cons.mpr ⟨hfirst, hrest⟩

theorem mapM {f : β → Reader α} (hf : ∀ b, Parses P (Within data) (f b) Q) (bs : List β) :
    Parses P (Within data) (bs.mapM f) fun as => ∀ a ∈ as, Q a := by
  induction bs with
  | nil => exact pure (by simp)
  | cons b bs ih =>
      rw [List.mapM_cons]
      refine bind (hf b) fun first hfirst => bind ih fun rest hrest => pure ?_
      exact List.forall_mem_cons.mpr ⟨hfirst, hrest⟩

/-! ## Pieces of data -/

theorem refuse : Takes data (MonadExcept.ofExcept Wire.refuse) Q :=
  ofExcept (.error fun _ => .unreadable) fun _ heq => by cases heq

/-- A result that is refused as no transaction, inside a reader. -/
theorem refuses {e : Except Failure α} (h : Refuses e) (hQ : ∀ a, e = .ok a → Q a) :
    Takes data (MonadExcept.ofExcept e) Q :=
  ofExcept (fun failure hfailure rest => by
    rw [h failure hfailure]
    exact .unreadable) hQ

/-- A check that refuses the data under a condition, before what follows. -/
theorem guard {c : Prop} [Decidable c] {f : Unit → Reader α}
    (hP : ∀ rest, P rest (.psbt .unreadable)) (hf : ¬ c → Parses P places (f ()) Q) :
    Parses P places (if c then MonadExcept.ofExcept Wire.refuse >>= f else f ()) Q :=
  ite (fun _ => ofExcept (e := Wire.refuse) (.error hP) fun _ heq => by cases heq) hf

theorem upTo (n : Nat) : Takes data (Reader.upTo n) fun bs => bs <:+: data ∧ bs.length ≤ n where
  ok := by
    intro s rest bs hs hrun
    cases hrun
    exact ⟨List.drop_suffix n s, (List.take_prefix n s).isInfix.trans hs, List.length_take_le n s⟩
  error := by
    intro s rest failure hs hrun
    cases hrun

theorem remaining : Takes data Reader.remaining fun bs => bs <:+: data where
  ok := by
    intro s rest bs hs hrun
    cases hrun
    exact ⟨List.nil_suffix, hs⟩
  error := by
    intro s rest failure hs hrun
    cases hrun

/-- A length that is no word has to be one that the data states. -/
theorem grab {n : Nat} (h : 2 ^ 63 ≤ n → StatesNumber data n) :
    Takes data (Reader.grab n) fun bs => bs <:+: data := by
  by_cases hn : n < 2 ^ 63
  · rw [Reader.grab_ofNat hn]
    exact (upTo n).mono fun _ hbs => hbs.1
  · have hn : 2 ^ 63 ≤ n := Nat.le_of_not_lt hn
    unfold Reader.grab
    refine ite (fun _ => ?_) fun hword => ?_
    · exact ofExcept (e := .error .overflow) (.error fun _ => .overflow hn (h hn))
        fun _ heq => by cases heq
    · have hword : isWord n = true := by simpa using hword
      simp only [isWord, Bool.and_eq_true, decide_eq_true_eq] at hword
      omega

end Parses

/-- A number of at most `width` bytes has a form of `width` bytes. -/
theorem Bytes.fits_toNatLE {width : Nat} {bs : Bytes} (h : bs.length ≤ width) :
    Bytes.fits width (Bytes.toNatLE bs) = true := by
  have hlt := (Bytes.toNatLE_lt bs).trans_le (Nat.pow_le_pow_right (by decide) h)
  exact Bytes.fits_iff.mpr ⟨Int.natCast_nonneg _, by exact_mod_cast hlt⟩

theorem Bytes.fits_toNatBE {width : Nat} {bs : Bytes} (h : bs.length ≤ width) :
    Bytes.fits width (Bytes.toNatBE bs) = true :=
  Bytes.fits_toNatLE (List.length_reverse.trans_le h)

namespace Parses

variable {data : Bytes}

theorem uint (width : Nat) : Takes data (Wire.uint width) fun n => Bytes.fits width n = true := by
  unfold Wire.uint
  exact bind (upTo width) fun bs hbs => pure (Bytes.fits_toNatLE hbs.2)

theorem run_uint (width : Nat) (s : Bytes) :
    (Wire.uint width).run s = .ok (Bytes.toNatLE (s.take width)) (s.drop width) := rfl

/-- A marker says how many bytes follow. -/
theorem run_compactSize_cons (marker : UInt8) (s : Bytes) :
    Wire.compactSize.run (marker :: s) =
      if marker < 0xFD then .ok marker.toNat s
      else .ok (Bytes.toNatLE (s.take (1 <<< (marker.toNat - 0xFC))))
        (s.drop (1 <<< (marker.toNat - 0xFC))) := by
  unfold Wire.compactSize
  rw [run_bind_of_ok (Reader.run_upTo 1 (marker :: s))]
  show (if marker < 0xFD then Pure.pure marker.toNat
    else Wire.uint (1 <<< (marker.toNat - 0xFC)) : Reader Nat).run s = _
  rw [run_ite, run_uint]
  rfl

/-- Eight bytes are needed for a number that is no word. -/
theorem eight_le_length {bs : Bytes} (h : 2 ^ 63 ≤ Bytes.toNatLE bs) : 8 ≤ bs.length := by
  by_contra hlength
  have hlt : Bytes.toNatLE bs < 256 ^ 7 := (Bytes.toNatLE_lt bs).trans_le
    (Nat.pow_le_pow_right (by decide) (by omega))
  norm_num at h hlt
  omega

/-- Only the last marker asks for so many bytes. -/
theorem eq_of_eight_le {marker : UInt8} (hmarker : ¬ marker < 0xFD)
    (h : 8 ≤ 1 <<< (marker.toNat - 0xFC)) : marker = 0xFF := by
  have hbound := marker.toNat_lt
  have hge : 253 ≤ marker.toNat := UInt8.le_iff_toNat_le.mp (UInt8.not_lt.mp hmarker)
  apply UInt8.toNat_inj.mp
  show marker.toNat = 255
  generalize marker.toNat = m at *
  interval_cases m <;> simp_all

/-- Only a number of eight bytes can be large, and only at the end of the data there is none. -/
theorem compactSize : Takes data Wire.compactSize fun n => 2 ^ 63 ≤ n → StatesNumber data n where
  ok := by
    intro s rest n hs hrun
    cases s with
    | nil => cases hrun
    | cons marker s =>
        rw [run_compactSize_cons] at hrun
        split_ifs at hrun with hmarker
        · obtain ⟨rfl, rfl⟩ := EStateM.Result.ok.inj hrun
          refine ⟨List.suffix_cons marker s, fun hn => ?_⟩
          have := marker.toNat_lt
          omega
        · obtain ⟨rfl, rfl⟩ := EStateM.Result.ok.inj hrun
          refine ⟨(List.drop_suffix _ s).trans (List.suffix_cons marker s), fun hn => ?_⟩
          -- So large a number needs all eight bytes, and only one marker stands for so many.
          have hlength := eight_le_length hn
          have hwidth := hlength.trans (List.length_take_le _ s)
          obtain rfl := eq_of_eight_le hmarker hwidth
          refine ⟨_, le_antisymm (List.length_take_le 8 s) hlength, rfl, ?_⟩
          exact (List.take_prefix 9 (0xFF :: s)).isInfix.trans hs
  error := by
    intro s rest failure hs hrun
    cases s with
    | nil =>
        cases hrun
        exact .missingCompactSize
    | cons marker s =>
        rw [run_compactSize_cons] at hrun
        split_ifs at hrun

theorem string : Takes data Wire.string fun bs => bs <:+: data := by
  unfold Wire.string
  refine bind compactSize fun length hlength => bind (grab hlength) fun bs hbs => ?_
  exact ite (fun _ => pure hbs) fun _ => refuse

theorem cutString : Takes data Wire.cutString fun bs => bs <:+: data := by
  unfold Wire.cutString
  exact bind compactSize fun length hlength => grab hlength

end Parses

/-! ## Transactions -/

section Transactions

variable {data : Bytes}

theorem TxInput.takes_read : Takes data TxInput.read fun i => i.fits = true := by
  unfold TxInput.read
  refine .bind (.upTo 32) fun txid _ => .bind (.uint 4) fun vout hvout => ?_
  refine .bind .string fun script _ => .bind (.uint 4) fun sequence hsequence => .pure ?_
  exact Bool.and_eq_true_iff.mpr ⟨hvout, hsequence⟩

theorem TxOutput.takes_read : Takes data TxOutput.read fun o => o.fits = true := by
  unfold TxOutput.read
  exact .bind (.uint 8) fun value hvalue => .bind .string fun script _ => .pure hvalue

theorem Witness.takes_read : Takes data Witness.read fun _ => True := by
  unfold Witness.read
  exact .bind .compactSize fun count _ => (Parses.many .cutString count).mono fun _ _ => trivial

namespace Transaction

theorem fits_iff {t : Transaction} :
    t.fits = true ↔ Bytes.fits 4 t.version = true ∧ (∀ i ∈ t.inputs, i.fits = true) ∧
      (∀ o ∈ t.outputs, o.fits = true) ∧ Bytes.fits 4 t.lockTime = true := by
  simp [fits, and_assoc]

/-- Witnesses change no number of an input. -/
theorem fits_attach {inputs : List TxInput} {witnesses : List (List Bytes)}
    (h : ∀ i ∈ inputs, i.fits = true) : ∀ i ∈ attach inputs witnesses, i.fits = true := by
  intro i hi
  rw [attach, ← List.map_uncurry_zip_eq_zipWith] at hi
  obtain ⟨⟨input, witness⟩, hmem, rfl⟩ := List.mem_map.mp hi
  exact h input (List.of_mem_zip hmem).1

theorem takes_readOutputs : Takes data readOutputs fun os => ∀ o ∈ os, o.fits = true := by
  unfold readOutputs
  exact .bind .compactSize fun count _ => .many TxOutput.takes_read count

theorem takes_readWithWitnesses {version : Int} (hversion : Bytes.fits 4 version = true) :
    Takes data (readWithWitnesses version) fun t => t.fits = true := by
  unfold readWithWitnesses
  refine .bind (.upTo 1) fun flag _ => .guard (fun _ => .unreadable) fun _ => ?_
  refine .bind .compactSize fun count _ => ?_
  refine .bind (.many TxInput.takes_read count) fun inputs hinputs => ?_
  refine .bind takes_readOutputs fun outputs houtputs => ?_
  refine .bind (.many Witness.takes_read inputs.length) fun witnesses _ => ?_
  refine .bind (.uint 4) fun lockTime hlockTime => .pure ?_
  exact fits_iff.mpr ⟨hversion, fits_attach hinputs, houtputs, hlockTime⟩

theorem takes_read : Takes data read fun t => t.fits = true := by
  unfold read
  refine .bind (.uint 4) fun version hversion => .bind .compactSize fun count _ => ?_
  refine .ite (fun _ => takes_readWithWitnesses hversion) fun _ => ?_
  refine .bind (.many TxInput.takes_read count) fun inputs hinputs => ?_
  refine .bind takes_readOutputs fun outputs houtputs => ?_
  refine .bind (.uint 4) fun lockTime hlockTime => .pure ?_
  exact fits_iff.mpr ⟨hversion, hinputs, houtputs, hlockTime⟩

end Transaction

end Transactions

/-! ## Origins of keys -/

namespace KeyOrigin

theorem refuses_ofBytes (bs : Bytes) : Refuses (KeyOrigin.ofBytes bs) := by
  unfold ofBytes
  split
  · exact .pure _
  · exact .refuse

theorem fits_of_steps? {bs : Bytes} {steps : List Int} (h : steps? bs = some steps) :
    steps.all (Bytes.fits 4) = true := by
  induction bs using steps?.induct generalizing steps with
  | case1 =>
      cases h
      rfl
  | case2 a b c d rest ih =>
      obtain ⟨others, hothers, rfl⟩ := Option.map_eq_some_iff.mp h
      have hfirst : Bytes.fits 4 (Bytes.toNatLE [a, b, c, d]) = true :=
        Bytes.fits_toNatLE (le_refl 4)
      rw [List.all_cons, hfirst, ih hothers]
      rfl
  | case3 bs hnil hcons => simp [steps?] at h

theorem fits_ofBytes {bs : Bytes} {o : KeyOrigin} (h : KeyOrigin.ofBytes bs = .ok o) :
    o.fits = true := by
  unfold ofBytes at h
  split at h
  · next hsteps =>
      cases h
      exact fits_of_steps? hsteps
  · cases h

end KeyOrigin

namespace LeafOrigin

variable {data : Bytes}

theorem takes_readLeaf : Takes data readLeaf fun _ => True := by
  unfold readLeaf
  exact .bind (.upTo 32) fun leaf _ => .ite (fun _ => .pure trivial) fun _ => .refuse

theorem takes_read : Takes data read fun o => o.origin.fits = true := by
  unfold read
  refine .bind .compactSize fun count _ => .bind (.many takes_readLeaf count) fun leaves _ => ?_
  refine .bind .remaining fun bs _ => ?_
  refine .bind (.refuses (KeyOrigin.refuses_ofBytes bs) fun _ h => KeyOrigin.fits_ofBytes h) ?_
  exact fun origin horigin => .pure horigin

end LeafOrigin

end SignerHost
