import SignerHost.Client.Operations
import SignerHost.Proofs.Layout
import SignerHost.Proofs.Text.Ascii

/-!
# The layout of a version response

An app names itself, its version and its flags, each behind one byte of length, and the byte of the
format stands in front.

* `AppInfo.response` is what an app sends.
* `AppInfo.finds_read` says that the reader finds it and nothing else in front of any bytes.
* `AppInfo.rejects_read` says which bytes it rejects, and for what flaw.
-/

namespace SignerHost

open Step

namespace AppInfo

/-- The name and the version are texts in ASCII, and each of the fields has a length in a byte.
It is what has to hold so that a response can say all of them. -/
structure HasForm (info : AppInfo) : Prop where
  name : Text.IsAscii info.name
  version : Text.IsAscii info.version
  name_length : (Text.ascii info.name).length < 256
  version_length : (Text.ascii info.version).length < 256
  flags_length : info.flags.length < 256

/-- The response of an app: the format and the three fields.  The fields stand behind one byte of
length each. -/
def response (info : AppInfo) : Bytes :=
  0x01 :: (Field.counted (Text.ascii info.name) ++ Field.counted (Text.ascii info.version)
    ++ Field.counted info.flags)

/-- A text that can stand behind one byte of length. -/
def FitsField (text : String) : Prop := Text.IsAscii text ∧ (Text.ascii text).length < 256

theorem readText_eq :
    readText = Field.readCounted >>= fun bs => MonadExcept.ofExcept (Text.ofAscii bs) :=
  (bind_assoc _ _ _).symm

theorem finds_readText :
    readText.Finds fun text s =>
      Text.IsAscii text ∧ (Text.ascii text).length < 256 ∧ s = Field.counted (Text.ascii text) := by
  intro text s rest
  rw [readText_eq, run_bind_eq_ok]
  constructor
  · rintro ⟨bs, s', hbs, htext⟩
    obtain ⟨hchars, rfl⟩ := run_ofExcept_eq_ok.mp htext
    obtain ⟨hascii, rfl⟩ := Text.ofAscii_eq_ok.mp hchars
    obtain ⟨field, ⟨hlength, rfl⟩, rfl⟩ := (Field.finds_readCounted _ _ _).mp hbs
    exact ⟨_, ⟨hascii, hlength, rfl⟩, rfl⟩
  · rintro ⟨_, ⟨hascii, hlength, rfl⟩, rfl⟩
    exact ⟨_, rest, (Field.finds_readCounted _ _ _).mpr ⟨_, ⟨hlength, rfl⟩, rfl⟩,
      run_ofExcept_eq_ok.mpr ⟨Text.ofAscii_eq_ok.mpr ⟨hascii, rfl⟩, rfl⟩⟩

/-- What is read behind the format.  The bytes behind the last field are left. -/
def readFields : Reader AppInfo := do
  let name ← readText
  let version ← readText
  let flags ← Field.readCounted
  return { name, version, flags }

theorem finds_readFields :
    readFields.Finds fun info s => info.HasForm ∧ info.response = 0x01 :: s := by
  refine (finds_readText.bind fun name => finds_readText.bind fun version =>
    Field.finds_readCounted.bind fun flags =>
      Reader.finds_pure (⟨name, version, flags⟩ : AppInfo)).congr fun info s => ?_
  constructor
  · rintro ⟨name, _, _, rfl, ⟨hname, hnameLength, rfl⟩, version, _, _, rfl,
      ⟨hversion, hversionLength, rfl⟩, flags, _, _, rfl, ⟨hflags, rfl⟩, rfl, rfl⟩
    exact ⟨⟨hname, hversion, hnameLength, hversionLength, hflags⟩, by simp [response]⟩
  · rintro ⟨h, hs⟩
    obtain rfl := (List.cons.inj hs).2
    exact ⟨_, _, _, List.append_assoc _ _ _, ⟨h.name, h.name_length, rfl⟩, _, _, _, rfl,
      ⟨h.version, h.version_length, rfl⟩, _, _, _, (List.append_nil _).symm,
      ⟨h.flags_length, rfl⟩, rfl, rfl⟩

theorem read_eq : AppInfo.read = Field.uint 1 .big >>= fun format =>
    if format ≠ 1 then (throw (.malformed .versionFormat) : Reader Unit) >>= fun _ => readFields
    else readFields := by
  rw [AppInfo.read]
  refine bind_congr fun format => ?_
  simp only [readFields, Field.readCounted, bind_assoc]

theorem finds_read : AppInfo.read.Finds fun info s => info.HasForm ∧ s = info.response := by
  rw [read_eq]
  refine Reader.Finds.congr ((Field.finds_uint (n := 1) (by decide)).bind fun format =>
    Reader.Finds.guard finds_readFields) fun info s => ?_
  constructor
  · rintro ⟨format, _, fields, rfl, ⟨-, rfl⟩, hformat, hform, hresponse⟩
    obtain rfl := not_not.mp hformat
    exact ⟨hform, hresponse.symm⟩
  · rintro ⟨hform, rfl⟩
    exact ⟨1, [0x01], _, rfl, ⟨by decide, rfl⟩, not_not.mpr rfl, hform, rfl⟩

/-! ## Responses that are rejected -/

/-- What is wrong with a text behind its length: it is cut, or it is not in ASCII.  A text that
is cut is not looked at further. -/
inductive FlawedText : Bytes → Malformed → Prop
  | cut {s : Bytes} (h : Field.Cut s) : FlawedText s .exhausted
  | notAscii {bs rest : Bytes} (hlength : bs.length < 256) (h : ∃ b ∈ bs, 128 ≤ b.toNat) :
      FlawedText (Field.counted bs ++ rest) .notAscii

theorem rejects_readText : readText.Rejects FlawedText := by
  have htext (bs : Bytes) : (MonadExcept.ofExcept (Text.ofAscii bs) : Reader String).Rejects
      fun _ cause => (∃ b ∈ bs, 128 ≤ b.toNat) ∧ cause = .notAscii := by
    intro s failure
    rw [result_ofExcept, Text.ofAscii_eq_error]
    simp
  rw [readText_eq]
  refine (Field.finds_readCounted.bind_rejects Field.rejects_readCounted htext).congr
    fun s cause => ?_
  constructor
  · rintro (⟨hcut, rfl⟩ | ⟨bs, _, rest, rfl, ⟨hlength, rfl⟩, hhigh, rfl⟩)
    · exact .cut hcut
    · exact .notAscii hlength hhigh
  · rintro (hcut | ⟨hlength, hhigh⟩)
    · exact .inl ⟨hcut, rfl⟩
    · exact .inr ⟨_, _, _, rfl, ⟨hlength, rfl⟩, hhigh, rfl⟩

/-- What is wrong with the fields behind the format: the first one that cannot be read. -/
inductive FlawedFields : Bytes → Malformed → Prop
  | name {s : Bytes} {cause : Malformed} (h : FlawedText s cause) : FlawedFields s cause
  | version {name : String} {s : Bytes} {cause : Malformed} (hname : FitsField name)
      (h : FlawedText s cause) : FlawedFields (Field.counted (Text.ascii name) ++ s) cause
  | flags {name version : String} {s : Bytes} (hname : FitsField name)
      (hversion : FitsField version) (h : Field.Cut s) :
      FlawedFields (Field.counted (Text.ascii name) ++ (Field.counted (Text.ascii version) ++ s))
        .exhausted

theorem rejects_readFields : readFields.Rejects FlawedFields := by
  -- From the last field back, each field is refused behind the fields that are found.
  have hflags (name version : String) : (do
      let flags ← Field.readCounted
      return ⟨name, version, flags⟩ : Reader AppInfo).Rejects
        fun s cause => Field.Cut s ∧ cause = .exhausted :=
    (Field.finds_readCounted.bind_rejects Field.rejects_readCounted fun flags =>
      Reader.rejects_pure _).congr fun s cause => by simp
  refine (finds_readText.bind_rejects rejects_readText fun name =>
    finds_readText.bind_rejects rejects_readText (hflags name)).congr fun s cause => ?_
  constructor
  · rintro (h | ⟨name, _, _, rfl, ⟨hname, hlength, rfl⟩,
      h | ⟨version, _, _, rfl, ⟨hversion, hlength', rfl⟩, hcut, rfl⟩⟩)
    · exact .name h
    · exact .version ⟨hname, hlength⟩ h
    · exact .flags ⟨hname, hlength⟩ ⟨hversion, hlength'⟩ hcut
  · rintro (h | ⟨⟨hname, hlength⟩, h⟩ | ⟨⟨hname, hlength⟩, ⟨hversion, hlength'⟩, hcut⟩)
    · exact .inl h
    · exact .inr ⟨_, _, _, rfl, ⟨hname, hlength, rfl⟩, .inl h⟩
    · exact .inr ⟨_, _, _, rfl, ⟨hname, hlength, rfl⟩,
        .inr ⟨_, _, _, rfl, ⟨hversion, hlength', rfl⟩, hcut, rfl⟩⟩

/-- What is wrong with a response: there is no format, or another one, or its fields are flawed. -/
inductive Flawed : Bytes → Malformed → Prop
  | noFormat : Flawed [] .exhausted
  | format {b : UInt8} {rest : Bytes} (h : b ≠ 0x01) : Flawed (b :: rest) .versionFormat
  | fields {s : Bytes} {cause : Malformed} (h : FlawedFields s cause) : Flawed (0x01 :: s) cause

theorem flawed_cons {b : UInt8} {s : Bytes} {cause : Malformed} :
    Flawed (b :: s) cause ↔
      b ≠ 0x01 ∧ cause = .versionFormat ∨ b = 0x01 ∧ FlawedFields s cause := by
  constructor
  · rintro (_ | hformat | h)
    · exact .inl ⟨hformat, rfl⟩
    · exact .inr ⟨rfl, h⟩
  · rintro (⟨hformat, rfl⟩ | ⟨rfl, h⟩)
    · exact .format hformat
    · exact .fields h

theorem rejects_read : AppInfo.read.Rejects Flawed := by
  have hone (b : UInt8) : b.toNat = 1 ↔ b = 0x01 := by
    rw [← UInt8.toNat_inj]
    rfl
  -- The format stands in the first byte, and it is checked before anything else is read.
  rw [read_eq]
  intro s failure
  cases s with
  | nil =>
      have hread : result (Field.uint 1 .big) [] = .error (.malformed .exhausted) :=
        (Field.rejects_byte _ _).mpr ⟨_, ⟨rfl, rfl⟩, rfl⟩
      rw [result_bind_eq_error.mpr (.inl hread)]
      constructor
      · intro h
        exact ⟨_, .noFormat, (Except.error.inj h).symm⟩
      · rintro ⟨cause, ⟨⟩, rfl⟩
        rfl
  | cons b s =>
      have hread := Field.run_uint_cons b s
      rw [result_bind_of_ok (result_of_ok hread), after_of_ok hread,
        Reader.Rejects.guard rejects_readFields]
      simp only [flawed_cons, ne_eq, hone, not_not]

end AppInfo
end SignerHost
