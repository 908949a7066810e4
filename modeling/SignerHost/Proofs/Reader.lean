import SignerHost.Proofs.Bytes
import SignerHost.Proofs.Step

/-!
# Reading fields back

A strict field reader gives back the field that stands at the front of the bytes and leaves
exactly what follows it.  From any other bytes it gives a field of the length asked for, or fails
because the bytes are malformed.

* `run_bytes_append` and `run_uint_cons` read back what was written.
* `ensures_bytes` and its siblings bound what may be read from any bytes.
* `run_bytes_eq_ok`, `run_uint_eq_ok` and `run_finish_eq_ok` say from which bytes it is read, and
  `run_bytes_of_length_lt` what becomes of bytes that are too few.
-/

namespace SignerHost

open Step

namespace Reader

@[simp] theorem run_upTo (n : Nat) (s : Bytes) :
    (upTo n).run s = .ok (s.take n) (s.drop n) := rfl

theorem isWord_ofNat {n : Nat} (h : n < 0x8000000000000000) : isWord n = true := by
  simp [isWord]
  omega

theorem grab_ofNat {n : Nat} (h : n < 0x8000000000000000) : grab n = upTo n := by
  unfold grab
  rw [if_neg (by simp [isWord_ofNat h]), if_neg (by omega), Int.toNat_natCast]

end Reader

namespace Field

theorem run_bytes_append {n : Nat} {bs : Bytes} (rest : Bytes) (hn : n < 0x8000000000000000)
    (hlength : bs.length = n) : (bytes n).run (bs ++ rest) = .ok bs rest := by
  subst hlength
  simp [bytes, Reader.grab_ofNat hn]

theorem run_bytes_to_end {n : Nat} {bs : Bytes} (hn : n < 0x8000000000000000)
    (hlength : bs.length = n) : (bytes n).run bs = .ok bs [] := by
  have h := run_bytes_append [] hn hlength
  rwa [List.append_nil] at h

theorem run_uint_cons (b : UInt8) (rest : Bytes) :
    (uint 1 .big).run (b :: rest) = .ok b.toNat rest := by
  have hbytes : (bytes 1).run ([b] ++ rest) = .ok [b] rest :=
    run_bytes_append rest (by decide) rfl
  rw [List.singleton_append] at hbytes
  rw [uint, run_bind_of_ok hbytes]
  simp [ByteOrder.toNat, Bytes.toNatBE_singleton]

@[simp] theorem run_finish_nil : finish.run [] = .ok () [] := rfl

end Field

/-! ## From any bytes -/

/-- A failure that blames the bytes. -/
def Failure.IsMalformed (f : Failure) : Prop := ∃ cause, f = .malformed cause

namespace Reader

theorem ensures_upTo (n : Nat) :
    Ensures (upTo n) (fun bs => bs.length ≤ n) Failure.IsMalformed where
  ok := by
    intro s s' bs hrun
    cases hrun
    exact List.length_take_le n s
  error := by
    intro s s' f hrun
    cases hrun

end Reader

namespace Field

theorem ensures_bytes {n : Nat} (hn : n < 0x8000000000000000) :
    Ensures (bytes n) (fun bs => bs.length = n) Failure.IsMalformed := by
  unfold bytes
  rw [Reader.grab_ofNat hn]
  refine (Reader.ensures_upTo n).bind fun bs hbs => .guard ⟨_, rfl⟩ fun hcut => .pure ?_
  omega

/-- A number is below the power of 256 that its bytes can hold. -/
theorem ensures_uint {n : Nat} (hn : n < 0x8000000000000000) (order : ByteOrder) :
    Ensures (uint n order) (fun k => k < 256 ^ n) Failure.IsMalformed := by
  unfold uint
  refine (ensures_bytes hn).bind fun bs hbs => .pure ?_
  subst hbs
  cases order with
  | big => exact Bytes.toNatBE_lt bs
  | little => exact Bytes.toNatLE_lt bs

theorem ensures_compactSize :
    Ensures compactSize (fun n => n < 2 ^ 64) Failure.IsMalformed := by
  have huint : ∀ {width : Nat}, width ≤ 8 →
      Ensures (uint width .little) (fun n => n < 2 ^ 64) Failure.IsMalformed := by
    intro width hwidth
    refine (ensures_uint (by omega) .little).mono (fun n hn => hn.trans_le ?_) fun _ h => h
    calc 256 ^ width ≤ 256 ^ 8 := Nat.pow_le_pow_right (by decide) hwidth
      _ = 2 ^ 64 := by norm_num
  unfold compactSize
  refine (ensures_uint (by decide) .big : Ensures (uint (1 : Nat) .big) _ _).bind
    fun first hfirst => ?_
  refine .ite (fun _ => huint (by decide)) fun _ => ?_
  refine .ite (fun _ => huint (by decide)) fun _ => ?_
  refine .ite (fun _ => huint (by decide)) fun _ => .pure ?_
  exact hfirst.trans (by norm_num)

theorem ensures_finish : Ensures finish (fun _ => True) Failure.IsMalformed := by
  unfold finish
  exact (Reader.ensures_upTo 1).bind fun bs _ =>
    .ite (fun _ => .throw ⟨_, rfl⟩) fun _ => .pure trivial

/-! ## Exactly what is read -/

/-- A field is read exactly if it stands at the front. -/
theorem run_bytes_eq_ok {n : Nat} (hn : n < 0x8000000000000000) {s field rest : Bytes} :
    (bytes n).run s = .ok field rest ↔ field.length = n ∧ s = field ++ rest := by
  constructor
  · intro h
    have hlength := (ensures_bytes hn).ok h
    rw [bytes, Reader.grab_ofNat hn] at h
    obtain ⟨bs, s', hfirst, hrest⟩ := run_bind_eq_ok.mp h
    cases hfirst
    rw [run_ite] at hrest
    split_ifs at hrest
    · cases hrest
    · cases hrest
      exact ⟨hlength, (List.take_append_drop n s).symm⟩
  · rintro ⟨hlength, rfl⟩
    exact run_bytes_append rest hn hlength

theorem run_uint_eq_ok {n k : Nat} (hn : n < 0x8000000000000000) {order : ByteOrder}
    {s rest : Bytes} :
    (uint n order).run s = .ok k rest ↔
      ∃ bs, bs.length = n ∧ s = bs ++ rest ∧ order.toNat bs = k := by
  rw [uint, run_bind_eq_ok]
  constructor
  · rintro ⟨bs, s', hbs, hvalue⟩
    cases hvalue
    obtain ⟨hlength, rfl⟩ := (run_bytes_eq_ok hn).mp hbs
    exact ⟨bs, hlength, rfl, rfl⟩
  · rintro ⟨bs, hlength, rfl, rfl⟩
    exact ⟨bs, rest, (run_bytes_eq_ok hn).mpr ⟨hlength, rfl⟩, rfl⟩

/-- A field that is cut is refused, and what was left of it is consumed. -/
theorem run_bytes_of_length_lt {n : Nat} (hn : n < 0x8000000000000000) {s : Bytes}
    (hcut : s.length < n) : (bytes n).run s = .error (.malformed .exhausted) [] := by
  have htake : (Reader.upTo n).run s = .ok s [] := by
    rw [Reader.run_upTo, List.take_of_length_le hcut.le, List.drop_eq_nil_of_le hcut.le]
  rw [bytes, Reader.grab_ofNat hn, run_bind_of_ok htake, run_ite, if_pos (by omega)]
  rfl

theorem run_uint_of_length_lt {n : Nat} (hn : n < 0x8000000000000000) (order : ByteOrder)
    {s : Bytes} (hcut : s.length < n) :
    (uint n order).run s = .error (.malformed .exhausted) [] := by
  rw [uint, run_bind_of_error (run_bytes_of_length_lt hn hcut)]

theorem run_finish_eq_ok {s rest : Bytes} :
    finish.run s = .ok () rest ↔ s = [] ∧ rest = [] := by
  cases s with
  | nil =>
      rw [run_finish_nil]
      constructor
      · intro h
        cases h
        exact ⟨rfl, rfl⟩
      · rintro ⟨-, rfl⟩
        rfl
  | cons b s =>
      constructor
      · intro h
        cases h
      · rintro ⟨h, -⟩
        cases h

end Field
end SignerHost
