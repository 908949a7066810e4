import Mathlib.Data.Char
import Mathlib.Data.List.DropRight
import Mathlib.Data.List.GetD
import Mathlib.Data.List.Lex
import Mathlib.Data.Prod.Lex
import Mathlib.Data.Sum.Order
import Mathlib.Order.WithBot
import Mathlib.Tactic
import SignerHost.Client.AppVersion

/-!
# The order of versions

Versions are ordered by their epochs, and then by their release numbers, where zeros at the end do
not count.  Among versions of one release, a development release comes first, then pre-releases, the
release itself, and later releases; each of them comes behind its own development releases.  The
name of a build is looked at last.

* `AppVersion.key` lists what versions are compared by, and `AppVersion.Older` compares it.
* `AppVersion.older_oldest_iff` says which versions are older than the oldest one that is supported.
* `AppVersion.isLegacy_iff` says which versions the gate of the client turns away: it looks at the
  release numbers alone.
-/

namespace SignerHost

/-- The place of a kind of pre-releases among the others.  Only the order of the ranks counts. -/
def PreRelease.rank : PreRelease → Nat
  | alpha => 0
  | beta => 1
  | candidate => 2

namespace AppVersion

/-! ## The order -/

/-- Release numbers without the zeros at their end.  Versions that differ only in such zeros are
the same version. -/
def significant (release : List Nat) : List Nat := release.rdropWhile (· = 0)

/-- The mark of a pre-release, with all that have none behind, and with development releases that
have no other mark in front. -/
def preKey (v : AppVersion) : WithBot (WithTop (ℕ ×ₗ ℕ)) :=
  match v.pre with
  | some (kind, n) => WithBot.some (WithTop.some (toLex (kind.rank, n)))
  | none => if v.post = none ∧ v.dev ≠ none then ⊥ else ⊤

/-- A part of the name of a build: numbers come behind other parts. -/
def partKey (part : List Char) : List Char ⊕ₗ ℕ :=
  if part.all Char.isDigit then toLex (.inr (Decimal.ofDigits (part.filterMap Decimal.value?)))
  else toLex (.inl part)

/-- What versions are compared by.  The parts are compared in turn, from the epoch to the name of
the build. -/
def key (v : AppVersion) :
    ℕ ×ₗ List ℕ ×ₗ WithBot (WithTop (ℕ ×ₗ ℕ)) ×ₗ WithBot ℕ ×ₗ WithTop ℕ ×ₗ
      List (List Char ⊕ₗ ℕ) :=
  toLex (v.epoch, toLex (significant v.release, toLex (v.preKey,
    toLex (v.post.elim ⊥ (↑), toLex (v.dev.elim ⊤ (↑), v.build.map partKey)))))

/-- A version comes before another one.  It is the order of the keys, so versions with the same
key are not older than each other. -/
def Older (v w : AppVersion) : Prop := v.key < w.key

instance (v w : AppVersion) : Decidable (v.Older w) := inferInstanceAs (Decidable (v.key < w.key))

example : (["1.dev0", "1.0.dev456", "1.0a1", "1.0a2.dev456", "1.0a12.dev456", "1.0a12",
    "1.0b1.dev456", "1.0b2", "1.0b2.post345.dev456", "1.0b2.post345", "1.0rc1.dev456", "1.0rc1",
    "1.0", "1.0+abc.5", "1.0+abc.7", "1.0+5", "1.0.post456.dev34", "1.0.post456", "1.0.15",
    "1.1.dev1", "1!0.9"].mapM parse?).map (fun vs => decide (vs.IsChain Older)) = some true := by
  decide

/-! ## The oldest version -/

/-- The oldest version that is supported.  The gate is meant to refuse what is older than this. -/
def oldest : AppVersion := { release := [2, 1, 0] }

/-- A version is from before its release: a pre-release, or a development release that has no other
mark. -/
def Early (v : AppVersion) : Prop := v.pre ≠ none ∨ v.post = none ∧ v.dev ≠ none

instance (v : AppVersion) : Decidable v.Early := inferInstanceAs (Decidable (_ ∨ _))

theorem preKey_eq_top_iff {v : AppVersion} : v.preKey = ⊤ ↔ ¬ v.Early := by
  rw [preKey, Early]
  cases hpre : v.pre with
  | none =>
      by_cases hdev : v.post = none ∧ v.dev ≠ none
      · simp [hdev]
      · simp [hdev]
  | some mark =>
      have hmark : WithBot.some (WithTop.some (toLex (mark.1.rank, mark.2))) ≠
          (⊤ : WithBot (WithTop (ℕ ×ₗ ℕ))) := by
        rw [← WithBot.coe_top, Ne, WithBot.coe_inj]
        exact WithTop.coe_ne_top
      simp [hmark]

/-- Behind its pre-releases, no version comes before the release itself. -/
theorem not_before_of_not_early {v : AppVersion} (h : ¬ v.Early) :
    ¬ (v.post.elim (⊥ : WithBot ℕ) (↑) < ⊥ ∨ v.post.elim (⊥ : WithBot ℕ) (↑) = ⊥ ∧
      (v.dev.elim (⊤ : WithTop ℕ) (↑) < ⊤ ∨ v.dev.elim (⊤ : WithTop ℕ) (↑) = ⊤ ∧
        v.build.map partKey < [])) := by
  cases hpost : v.post with
  | some n => simp
  | none =>
      have hdev : v.dev = none := by
        by_contra hdev
        exact h (.inr ⟨hpost, hdev⟩)
      simp [hdev]

/-- A version is older than the oldest one that is supported if its release is, or if it is from
before that release. -/
theorem older_oldest_iff {v : AppVersion} :
    v.Older oldest ↔ v.epoch = 0 ∧
      (significant v.release < [2, 1] ∨ significant v.release = [2, 1] ∧ v.Early) := by
  have holdest : oldest.key = toLex (0, toLex ([2, 1], toLex (⊤, toLex (⊥, toLex (⊤, []))))) := rfl
  rw [Older, holdest, key]
  simp only [Prod.Lex.toLex_lt_toLex, lt_top_iff_ne_top (a := v.preKey), Ne, preKey_eq_top_iff,
    not_not, Nat.not_lt_zero, false_or]
  by_cases hearly : v.Early
  · simp only [hearly, true_or]
  · simp only [hearly, not_false_eq_true, not_before_of_not_early hearly, and_false, or_self]

/-! ## The gate -/

theorem getD_significant (release : List Nat) (i : Nat) :
    (significant release).getD i 0 = release.getD i 0 := by
  induction release using List.reverseRecOn with
  | nil => rfl
  | append_singleton release n ih =>
      rw [significant, List.rdropWhile_concat]
      by_cases hzero : n = 0
      · rw [if_pos (by simpa using hzero), ← significant, ih, hzero]
        rcases lt_or_ge i release.length with hi | hi
        · rw [List.getD_append _ _ _ _ hi]
        · rw [List.getD_append_right _ _ _ _ hi, List.getD_eq_default _ _ hi]
          cases i - release.length <;> rfl
      · rw [if_neg (by simpa using hzero)]

/-- A release is below 2.1 if its first two numbers say so. -/
theorem release_lt_iff {release : List Nat} :
    release < [2, 1] ↔
      release.getD 0 0 < 2 ∨ release.getD 0 0 = 2 ∧ release.getD 1 0 = 0 := by
  match release with
  | [] => simp
  | [major] =>
      simp [List.cons_lt_cons_iff]
  | major :: minor :: rest =>
      simp [List.cons_lt_cons_iff]

theorem isLegacy_iff {v : AppVersion} {name : String} :
    v.isLegacy name = true ↔ name ∈ legacyNames ∨ significant v.release < [2, 1] := by
  rw [release_lt_iff, getD_significant, getD_significant, isLegacy, major, minor]
  simp [or_assoc]

end AppVersion
end SignerHost
