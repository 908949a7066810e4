import SignerHost.Command
import SignerHost.Proofs.CompactSize
import SignerHost.Wire

/-!
# Readers of a layout

A layout says by which bytes a value is written.  A strict reader finds what is laid out and nothing
else, so that two values can be written by the same bytes only if they are the same.

* `Finds` is for a field in front of others, and `FindsAll` for what has to end with the bytes.
* `Finds.bind` and `Finds.bind_all` put readers together; the layouts follow each other.
* `Finds.guard` is for a check between fields.
* There is one lemma for each kind of field, of the form that its name says, and
  `Wire.finds_many` for values of one kind.
* `Rejects` says on which bytes a reader fails, and what it blames; `Finds.bind_rejects` goes with
  `Finds.bind`.
-/

namespace SignerHost

open Step

namespace Reader

variable {α β : Type}

/-- The reader finds exactly what is laid out in front, and leaves what follows.  So what is
written can be followed by anything, and is found all the same. -/
def Finds (reader : Reader α) (layout : α → Bytes → Prop) : Prop :=
  ∀ a s rest, reader.run s = .ok a rest ↔ ∃ field, layout a field ∧ s = field ++ rest

/-- The reader finds exactly what is laid out by all of the bytes.  It is the notion for readers
that go up to the end. -/
def FindsAll (reader : Reader α) (layout : α → Bytes → Prop) : Prop :=
  ∀ a s rest, reader.run s = .ok a rest ↔ layout a s ∧ rest = []

section Compose

variable {x : Reader α} {f : α → Reader β} {first : α → Bytes → Prop}
  {second : α → β → Bytes → Prop}

theorem Finds.bind (hx : x.Finds first) (hf : ∀ a, (f a).Finds (second a)) :
    (x >>= f).Finds fun b s =>
      ∃ a front back, s = front ++ back ∧ first a front ∧ second a b back := by
  intro b s rest
  rw [run_bind_eq_ok]
  constructor
  · rintro ⟨a, s', ha, hb⟩
    obtain ⟨front, hfront, rfl⟩ := (hx _ _ _).mp ha
    obtain ⟨back, hback, rfl⟩ := (hf _ _ _ _).mp hb
    exact ⟨front ++ back, ⟨a, front, back, rfl, hfront, hback⟩, by rw [List.append_assoc]⟩
  · rintro ⟨_, ⟨a, front, back, rfl, hfront, hback⟩, rfl⟩
    refine ⟨a, back ++ rest, (hx _ _ _).mpr ⟨front, hfront, by rw [List.append_assoc]⟩, ?_⟩
    exact (hf _ _ _ _).mpr ⟨back, hback, rfl⟩

theorem Finds.bind_all (hx : x.Finds first) (hf : ∀ a, (f a).FindsAll (second a)) :
    (x >>= f).FindsAll fun b s =>
      ∃ a front back, s = front ++ back ∧ first a front ∧ second a b back := by
  intro b s rest
  rw [run_bind_eq_ok]
  constructor
  · rintro ⟨a, s', ha, hb⟩
    obtain ⟨front, hfront, rfl⟩ := (hx _ _ _).mp ha
    obtain ⟨hback, rfl⟩ := (hf _ _ _ _).mp hb
    exact ⟨⟨a, front, s', rfl, hfront, hback⟩, rfl⟩
  · rintro ⟨⟨a, front, back, rfl, hfront, hback⟩, rfl⟩
    exact ⟨a, back, (hx _ _ _).mpr ⟨front, hfront, rfl⟩, (hf _ _ _ _).mpr ⟨hback, rfl⟩⟩

end Compose

theorem Finds.congr {x : Reader α} {layout layout' : α → Bytes → Prop} (h : x.Finds layout)
    (hlayout : ∀ a s, layout a s ↔ layout' a s) : x.Finds layout' := by
  intro a s rest
  simp only [h a s rest, hlayout]

theorem FindsAll.congr {x : Reader α} {layout layout' : α → Bytes → Prop} (h : x.FindsAll layout)
    (hlayout : ∀ a s, layout a s ↔ layout' a s) : x.FindsAll layout' := by
  intro a s rest
  rw [h a s rest, hlayout]

/-- What a reader gives from any bytes is what they start with. -/
theorem Finds.result_eq_ok {x : Reader α} {layout : α → Bytes → Prop} (h : x.Finds layout)
    {a : α} {s : Bytes} :
    result x s = .ok a ↔ ∃ field rest, s = field ++ rest ∧ layout a field := by
  constructor
  · intro hresult
    cases hrun : x.run s with
    | ok a' rest =>
        cases (result_of_ok hrun).symm.trans hresult
        obtain ⟨field, hfield, rfl⟩ := (h _ _ _).mp hrun
        exact ⟨field, rest, rfl, hfield⟩
    | error failure rest => cases (result_of_error hrun).symm.trans hresult
  · rintro ⟨field, rest, rfl, hfield⟩
    exact result_of_ok ((h a _ rest).mpr ⟨field, hfield, rfl⟩)

theorem finds_pure (a : α) : (pure a : Reader α).Finds fun b s => b = a ∧ s = [] := by
  intro b s rest
  constructor
  · intro h
    cases h
    exact ⟨[], ⟨rfl, rfl⟩, rfl⟩
  · rintro ⟨_, ⟨rfl, rfl⟩, rfl⟩
    rfl

/-- A check that refuses under a condition, before what follows. -/
theorem Finds.guard {c : Prop} [Decidable c] {failure : Failure} {f : Unit → Reader α}
    {layout : α → Bytes → Prop} (h : (f ()).Finds layout) :
    (if c then throw failure >>= f else f ()).Finds fun a s => ¬ c ∧ layout a s := by
  intro a s rest
  by_cases hc : c
  · rw [if_pos hc, run_bind_of_error (run_throw _ _)]
    simp [hc]
  · rw [if_neg hc, h a s rest]
    simp [hc]

theorem FindsAll.map {x : Reader α} {layout : α → Bytes → Prop} (h : x.FindsAll layout)
    (f : α → β) :
    (x >>= fun a => pure (f a)).FindsAll fun b s => ∃ a, layout a s ∧ b = f a := by
  intro b s rest
  rw [run_bind_eq_ok]
  constructor
  · rintro ⟨a, s', ha, hb⟩
    cases hb
    obtain ⟨ha, hrest⟩ := (h _ _ _).mp ha
    exact ⟨⟨a, ha, rfl⟩, hrest⟩
  · rintro ⟨⟨a, ha, rfl⟩, rfl⟩
    exact ⟨a, [], (h _ _ _).mpr ⟨ha, rfl⟩, rfl⟩

theorem findsAll_remaining : remaining.FindsAll fun bs s => bs = s := by
  intro bs s rest
  constructor
  · intro h
    cases h
    exact ⟨rfl, rfl⟩
  · rintro ⟨rfl, rfl⟩
    rfl

/-- No bytes are laid out for two values if a reader finds the layout.  This is how a reader
proves that a format has one meaning. -/
theorem FindsAll.unique {x : Reader α} {layout : α → Bytes → Prop} (h : x.FindsAll layout)
    {a b : α} {s : Bytes} (ha : layout a s) (hb : layout b s) : a = b := by
  have hrun := (h a s []).mpr ⟨ha, rfl⟩
  rw [(h b s []).mpr ⟨hb, rfl⟩] at hrun
  cases hrun
  rfl

/-- The bytes that a reader consumes, instead of what it makes of them. -/
def consumed (reader : Reader α) : Reader Bytes := fun s =>
  match reader s with
  | .ok _ rest => .ok (s.take (s.length - rest.length)) rest
  | .error failure rest => .error failure rest

theorem Finds.consumed {x : Reader α} {layout : α → Bytes → Prop} (h : x.Finds layout) :
    x.consumed.Finds fun bs s => s = bs ∧ ∃ a, layout a bs := by
  intro bs s rest
  -- What is consumed is the part in front of what is left.
  have hrun : x.consumed.run s = match x.run s with
    | .ok _ rest => .ok (s.take (s.length - rest.length)) rest
    | .error failure rest => .error failure rest := rfl
  rw [hrun]
  constructor
  · intro hconsumed
    cases hx : x.run s with
    | ok a rest' =>
        obtain ⟨field, hfield, rfl⟩ := (h _ _ _).mp hx
        rw [hx] at hconsumed
        cases hconsumed
        refine ⟨field, ?_, rfl⟩
        simpa using ⟨a, hfield⟩
    | error failure rest' =>
        rw [hx] at hconsumed
        cases hconsumed
  · rintro ⟨_, ⟨rfl, a, hfield⟩, rfl⟩
    rw [(h a _ rest).mpr ⟨_, hfield, rfl⟩]
    simp

/-! ### Bytes that are rejected -/

/-- The reader fails on exactly the bytes that have a flaw, and the flaw is what it blames.
Together with `Finds` it says what a reader does on any bytes. -/
def Rejects (reader : Reader α) (flaw : Bytes → Malformed → Prop) : Prop :=
  ∀ s failure, result reader s = .error failure ↔
    ∃ cause, flaw s cause ∧ failure = .malformed cause

theorem Finds.bind_rejects {x : Reader α} {f : α → Reader β} {layout : α → Bytes → Prop}
    {flaw : Bytes → Malformed → Prop} {later : α → Bytes → Malformed → Prop}
    (hx : x.Finds layout) (hflaw : x.Rejects flaw) (hf : ∀ a, (f a).Rejects (later a)) :
    (x >>= f).Rejects fun s cause =>
      flaw s cause ∨ ∃ a front back, s = front ++ back ∧ layout a front ∧ later a back cause := by
  intro s failure
  rw [result_bind_eq_error, hflaw s failure]
  constructor
  · rintro (⟨cause, hcause, rfl⟩ | ⟨a, back, ha, hfailure⟩)
    · exact ⟨cause, .inl hcause, rfl⟩
    · obtain ⟨front, hfront, rfl⟩ := (hx _ _ _).mp ha
      obtain ⟨cause, hcause, rfl⟩ := (hf a _ _).mp hfailure
      exact ⟨cause, .inr ⟨a, front, back, rfl, hfront, hcause⟩, rfl⟩
  · rintro ⟨cause, hcause | ⟨a, front, back, rfl, hfront, hcause⟩, rfl⟩
    · exact .inl ⟨cause, hcause, rfl⟩
    · exact .inr ⟨a, back, (hx _ _ _).mpr ⟨front, hfront, rfl⟩,
        (hf a _ _).mpr ⟨cause, hcause, rfl⟩⟩

theorem Rejects.congr {x : Reader α} {flaw flaw' : Bytes → Malformed → Prop} (h : x.Rejects flaw)
    (hflaw : ∀ s cause, flaw s cause ↔ flaw' s cause) : x.Rejects flaw' := by
  intro s failure
  simp only [h s failure, hflaw]

theorem rejects_pure (a : α) : (pure a : Reader α).Rejects fun _ _ => False := by
  intro s failure
  simp [result]

/-- A check that refuses under a condition, before what follows. -/
theorem Rejects.guard {c : Prop} [Decidable c] {blamed : Malformed} {f : Unit → Reader α}
    {flaw : Bytes → Malformed → Prop} (h : (f ()).Rejects flaw) :
    (if c then throw (.malformed blamed) >>= f else f ()).Rejects fun s cause =>
      c ∧ cause = blamed ∨ ¬ c ∧ flaw s cause := by
  intro s failure
  by_cases hc : c
  · rw [if_pos hc, result_of_error (run_bind_of_error (run_throw _ _))]
    simp [hc, eq_comm]
  · rw [if_neg hc, h s failure]
    simp [hc]

end Reader

/-- Values of one layout are found one after another. -/
theorem Wire.finds_many {α : Type} {reader : Reader α} {P : α → Prop} {emit : α → Bytes}
    (h : reader.Finds fun a s => P a ∧ s = emit a) (n : Nat) :
    (Wire.many reader n).Finds fun as s =>
      as.length = n ∧ (∀ a ∈ as, P a) ∧ s = as.flatMap emit := by
  -- The number of parts is fixed in advance, so the induction is on it and not on what is read.
  induction n with
  | zero =>
      refine (Reader.finds_pure []).congr fun as s => ?_
      constructor
      · rintro ⟨rfl, rfl⟩
        simp
      · rintro ⟨hlength, -, rfl⟩
        obtain rfl := List.length_eq_zero_iff.mp hlength
        exact ⟨rfl, rfl⟩
  | succ n ih =>
      refine (h.bind fun first => ih.bind fun rest =>
        Reader.finds_pure (first :: rest)).congr fun as s => ?_
      constructor
      · rintro ⟨first, _, _, rfl, ⟨hfirst, rfl⟩, rest, _, _, rfl, ⟨rfl, hrest, rfl⟩, rfl, rfl⟩
        exact ⟨rfl, List.forall_mem_cons.mpr ⟨hfirst, hrest⟩, by simp⟩
      · rintro ⟨hlength, hall, rfl⟩
        obtain ⟨first, rest, rfl⟩ := List.exists_cons_of_length_eq_add_one hlength
        obtain ⟨hfirst, hrest⟩ := List.forall_mem_cons.mp hall
        exact ⟨first, _, _, by simp, ⟨hfirst, rfl⟩, rest, _, _, rfl,
          ⟨Nat.succ.inj hlength, hrest, rfl⟩, rfl, rfl⟩

/-! ## Fields -/

namespace Field

theorem finds_bytes {n : Nat} (hn : n < 0x8000000000000000) :
    (bytes n).Finds fun bs s => bs.length = n ∧ s = bs := by
  intro bs s rest
  rw [run_bytes_eq_ok hn]
  constructor
  · rintro ⟨hlength, rfl⟩
    exact ⟨bs, ⟨hlength, rfl⟩, rfl⟩
  · rintro ⟨_, ⟨hlength, rfl⟩, rfl⟩
    exact ⟨hlength, rfl⟩

theorem finds_uint {n : Nat} (hn : n < 0x8000000000000000) :
    (uint n .big).Finds fun k s => k < 256 ^ n ∧ s = Bytes.ofNatBE n k := by
  intro k s rest
  rw [run_uint_eq_ok hn]
  constructor
  · rintro ⟨bs, rfl, rfl, rfl⟩
    exact ⟨bs, ⟨Bytes.toNatBE_lt bs, (Bytes.ofNatBE_toNatBE bs).symm⟩, rfl⟩
  · rintro ⟨_, ⟨hk, rfl⟩, rfl⟩
    exact ⟨_, Bytes.length_ofNatBE n k, rfl, Bytes.toNatBE_ofNatBE_of_lt hk⟩

/-- Bytes behind one byte of length. -/
def counted (bs : Bytes) : Bytes := UInt8.ofNat bs.length :: bs

def readCounted : Reader Bytes := do
  let length ← uint 1 .big
  bytes length

theorem finds_readCounted :
    readCounted.Finds fun bs s => bs.length < 256 ∧ s = counted bs := by
  intro bs s rest
  have hbyte := finds_uint (n := 1) (by decide)
  have hshort {n : Nat} (hn : n < 256) : n < 0x8000000000000000 := hn.trans (by decide)
  rw [readCounted, run_bind_eq_ok]
  constructor
  · rintro ⟨n, s', hn, hbs⟩
    obtain ⟨_, ⟨hlt, rfl⟩, rfl⟩ := (hbyte _ _ _).mp hn
    obtain ⟨rfl, rfl⟩ := (run_bytes_eq_ok (hshort hlt)).mp hbs
    exact ⟨counted bs, ⟨hlt, rfl⟩, by rw [Bytes.ofNatBE_one hlt, counted]; rfl⟩
  · rintro ⟨_, ⟨hlt, rfl⟩, rfl⟩
    refine ⟨bs.length, bs ++ rest, (hbyte _ _ _).mpr ⟨_, ⟨hlt, rfl⟩, ?_⟩, ?_⟩
    · rw [Bytes.ofNatBE_one hlt, counted]
      rfl
    · exact (run_bytes_eq_ok (hshort hlt)).mpr ⟨rfl, rfl⟩

theorem rejects_bytes {n : Nat} (hn : n < 0x8000000000000000) :
    (bytes n).Rejects fun s cause => s.length < n ∧ cause = .exhausted := by
  intro s failure
  by_cases hcut : s.length < n
  · rw [result_of_error (run_bytes_of_length_lt hn hcut)]
    simp [hcut, eq_comm]
  · have hread : (bytes n).run s = .ok (s.take n) (s.drop n) :=
      (run_bytes_eq_ok hn).mpr ⟨List.length_take_of_le (Nat.le_of_not_lt hcut),
        (List.take_append_drop n s).symm⟩
    rw [result_of_ok hread]
    simp [hcut]

theorem rejects_byte : (uint 1 .big).Rejects fun s cause => s = [] ∧ cause = .exhausted := by
  intro s failure
  cases s with
  | nil =>
      have hread : (uint 1 .big).run [] = .error (.malformed .exhausted) [] :=
        run_uint_of_length_lt (n := 1) (by decide) .big (Nat.zero_lt_one)
      rw [result_of_error hread]
      simp [eq_comm]
  | cons b s =>
      rw [result_of_ok (run_uint_cons b s)]
      simp

/-- Bytes behind their length are cut: there is no length, or it is more than what follows. -/
inductive Cut : Bytes → Prop
  | length : Cut []
  | content {n : UInt8} {rest : Bytes} (h : rest.length < n.toNat) : Cut (n :: rest)

theorem cut_cons {n : UInt8} {rest : Bytes} : Cut (n :: rest) ↔ rest.length < n.toNat := by
  constructor
  · rintro (_ | h)
    exact h
  · exact .content

theorem rejects_readCounted : readCounted.Rejects fun s cause => Cut s ∧ cause = .exhausted := by
  intro s failure
  cases s with
  | nil =>
      have hread : result readCounted [] = .error (.malformed .exhausted) :=
        result_bind_eq_error.mpr (.inl ((rejects_byte _ _).mpr ⟨_, ⟨rfl, rfl⟩, rfl⟩))
      rw [hread]
      simp [Cut.length, eq_comm]
  | cons b s =>
      have hlength : b.toNat < 0x8000000000000000 := b.toNat_lt.trans (by decide)
      rw [readCounted, result_bind_of_ok (result_of_ok (run_uint_cons b s)),
        after_of_ok (run_uint_cons b s), rejects_bytes hlength]
      simp only [cut_cons]

theorem finds_compactSize : compactSize.Finds CompactSize.Form := by
  intro n s rest
  exact run_compactSize_eq_ok

theorem findsAll_finish {α : Type} (a : α) :
    (finish >>= fun _ => pure a : Reader α).FindsAll fun b s => b = a ∧ s = [] := by
  intro b s rest
  rw [run_bind_eq_ok]
  constructor
  · rintro ⟨_, s', hfinish, hpure⟩
    obtain ⟨rfl, rfl⟩ := run_finish_eq_ok.mp hfinish
    cases hpure
    exact ⟨⟨rfl, rfl⟩, rfl⟩
  · rintro ⟨⟨rfl, rfl⟩, rfl⟩
    exact ⟨(), [], run_finish_nil, rfl⟩

/-- One byte that is zero or one. -/
def flag : Reader Bool := do
  let n ← uint 1 .big
  if n = 0 then return false
  else if n = 1 then return true
  else throw .overflow

theorem finds_flag : flag.Finds fun b s => s = [Command.flag b] := by
  have hbyte : ∀ b, Bytes.ofNatBE 1 (Command.flag b).toNat = [Command.flag b] := by decide
  have hvalue : ∀ n, (if n = 0 then pure false else if n = 1 then pure true
      else throw .overflow : Reader Bool).Finds
        fun b s => n = (Command.flag b).toNat ∧ s = [] := by
    intro n b s rest
    rw [run_ite, run_ite]
    split_ifs with hzero hone
    · cases b <;> simp [hzero, Command.flag]
    · cases b <;> simp [hone, Command.flag, eq_comm]
    · cases b <;> simp [hzero, hone, Command.flag]
  refine ((finds_uint (n := 1) (by decide)).bind hvalue).congr fun b s => ?_
  constructor
  · rintro ⟨_, _, _, rfl, ⟨-, rfl⟩, rfl, rfl⟩
    rw [hbyte, List.append_nil]
  · rintro rfl
    exact ⟨_, _, _, rfl, ⟨(Command.flag b).toNat_lt, (hbyte b).symm⟩, rfl, rfl⟩

/-- A compact size and two roots, as they stand. -/
def commitment : Reader Bytes := Reader.consumed do
  let _ ← compactSize
  bytes 64

/-- The bytes that commit to a map: its size in any form, and two roots. -/
def IsCommitment (bs : Bytes) : Prop :=
  ∃ size form roots, CompactSize.Form size form ∧ roots.length = 64 ∧ bs = form ++ roots

theorem finds_commitment : commitment.Finds fun bs s => s = bs ∧ IsCommitment bs := by
  have hroots : ∀ _ : Nat, (bytes 64).Finds fun bs s => bs.length = 64 ∧ s = bs :=
    fun _ => finds_bytes (n := 64) (by decide)
  refine (finds_compactSize.bind hroots).consumed.congr fun bs s => and_congr_right fun _ => ?_
  constructor
  · rintro ⟨_, size, form, roots, rfl, hform, hlength, rfl⟩
    exact ⟨size, form, roots, hform, hlength, rfl⟩
  · rintro ⟨size, form, roots, hform, hlength, rfl⟩
    exact ⟨roots, size, form, roots, rfl, hform, hlength, rfl⟩

end Field
end SignerHost
