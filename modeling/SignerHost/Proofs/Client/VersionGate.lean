import SignerHost.Proofs.Client.AppVersion
import SignerHost.Proofs.Client.VersionReading

/-!
# The version gate

A client is given out for an app that is none of the older ones and whose version is not older than
the oldest one that is supported.  The gate does not compare versions, though: it looks at the first
two release numbers.

* `AppInfo.Supported` is the condition on the version, and `AppInfo.Misjudged` says where the
  release numbers tell otherwise: an epoch makes up for a low release, and a version from before
  release 2.1 is older than it.
* `Client.connect_exact` says what becomes of every app: a client is given out or refused as the
  condition says, and the other way around for the apps that are misjudged.
-/

namespace SignerHost

open Step

/-! ## The condition and the gate -/

/-- The release numbers of a version tell otherwise than the order of versions.  The gate looks
at two of these numbers only, and at nothing else of a version. -/
def AppVersion.Misjudged (v : AppVersion) : Prop :=
  v.epoch ≠ 0 ∧ significant v.release < [2, 1] ∨
    v.epoch = 0 ∧ significant v.release = [2, 1] ∧ v.Early

instance (v : AppVersion) : Decidable v.Misjudged := inferInstanceAs (Decidable (_ ∨ _))

/-- The release numbers tell whether a version is older, unless it is misjudged.  The two differ
only for an epoch of its own and for versions from before 2.1 itself. -/
theorem AppVersion.significant_lt_iff {v : AppVersion} :
    significant v.release < [2, 1] ↔
      v.Older oldest ∧ ¬ v.Misjudged ∨ ¬ v.Older oldest ∧ v.Misjudged := by
  have hne : significant v.release < [2, 1] → significant v.release ≠ [2, 1] := ne_of_lt
  rw [older_oldest_iff, Misjudged]
  by_cases hlow : significant v.release < [2, 1]
  · simp [hlow, hne hlow, em]
  · simp [hlow]

namespace AppInfo

variable {info : AppInfo}

/-- The app is none of the older ones, and its version is not older than the oldest one that is
supported. -/
def Supported (info : AppInfo) : Prop :=
  info.name ∉ AppVersion.legacyNames ∧
    ∃ v, AppVersion.parse? info.version = some v ∧ ¬ v.Older AppVersion.oldest

/-- The app is none of the older ones, and its version is misjudged. -/
def Misjudged (info : AppInfo) : Prop :=
  info.name ∉ AppVersion.legacyNames ∧
    ∃ v, AppVersion.parse? info.version = some v ∧ v.Misjudged

/-- Why an app is refused: by its version if that is none.  Otherwise it is refused as an app
that is not supported. -/
def refusal (info : AppInfo) : Failure :=
  .result .unsupportedApp (some .getVersion) (Text.utf8 info.version) <|
    match AppVersion.parse? info.version with
    | none => .appVersion info.version
    | some _ => .app info.name info.version

/-- What the gate lets through: none of the older apps, with a release that is not below 2.1.
The order of versions does not enter here. -/
def Passes (info : AppInfo) : Prop :=
  info.name ∉ AppVersion.legacyNames ∧
    ∃ v, AppVersion.parse? info.version = some v ∧ ¬ AppVersion.significant v.release < [2, 1]

theorem checkApp_of_passes (h : info.Passes) : Client.checkApp info = .ok () := by
  obtain ⟨hname, v, hparse, hrelease⟩ := h
  have hlegacy : ¬ v.isLegacy info.name = true := fun hlegacy =>
    (AppVersion.isLegacy_iff.mp hlegacy).elim hname hrelease
  unfold Client.checkApp
  rw [hparse]
  exact if_neg hlegacy

theorem checkApp_of_not_passes (h : ¬ info.Passes) :
    Client.checkApp info = .error info.refusal := by
  unfold Client.checkApp refusal
  cases hparse : AppVersion.parse? info.version with
  | none => rfl
  | some v =>
      have hlegacy : v.isLegacy info.name = true := by
        refine AppVersion.isLegacy_iff.mpr (or_iff_not_imp_left.mpr fun hname => ?_)
        by_contra hrelease
        exact h ⟨hname, v, hparse, hrelease⟩
      exact if_pos hlegacy

theorem passes_iff :
    info.Passes ↔ info.Supported ∧ ¬ info.Misjudged ∨ ¬ info.Supported ∧ info.Misjudged := by
  rw [Passes, Supported, Misjudged]
  cases AppVersion.parse? info.version with
  | none => simp
  | some v =>
      simp only [Option.some_inj, exists_eq_left', AppVersion.significant_lt_iff]
      by_cases hname : info.name ∈ AppVersion.legacyNames
      · simp [hname]
      · by_cases holder : v.Older AppVersion.oldest
        · simp [hname, holder]
        · simp [hname, holder]

theorem not_passes_iff :
    ¬ info.Passes ↔ info.Supported ∧ info.Misjudged ∨ ¬ info.Supported ∧ ¬ info.Misjudged := by
  rw [passes_iff]
  tauto

end AppInfo

/-! ## Connecting -/

namespace Client

variable {client : Client} {link : Link}

variable {info : AppInfo}

theorem result_connect (hversion : result client.getVersion link = .ok info) :
    result client.connect link = (checkApp info).map fun _ => client := by
  rw [connect, result_bind_of_ok hversion]
  cases checkApp info <;> rfl

/-- An app that reports itself in a version response is given a client or refused, as its version
says unless it is misjudged. -/
theorem connect_exact (hform : info.HasForm)
    (hreceived : link.received [Command.getVersion] = [.answer Status.success info.response]) :
    (result client.connect link = .ok client ↔
        info.Supported ∧ ¬ info.Misjudged ∨ ¬ info.Supported ∧ info.Misjudged) ∧
      (result client.connect link = .error info.refusal ↔
        info.Supported ∧ info.Misjudged ∨ ¬ info.Supported ∧ ¬ info.Misjudged) := by
  have hread : AppInfo.read.run info.response = .ok info [] :=
    (AppInfo.finds_read _ _ _).mpr ⟨_, ⟨hform, rfl⟩, (List.append_nil _).symm⟩
  rw [result_connect (result_getVersion hreceived hread)]
  by_cases h : info.Passes
  · rw [AppInfo.checkApp_of_passes h]
    exact ⟨iff_of_true rfl (AppInfo.passes_iff.mp h), iff_of_false (fun herror => by cases herror)
      fun hnot => AppInfo.not_passes_iff.mpr hnot h⟩
  · rw [AppInfo.checkApp_of_not_passes h]
    exact ⟨iff_of_false (fun hok => by cases hok) fun hpasses => h (AppInfo.passes_iff.mpr hpasses),
      iff_of_true rfl (AppInfo.not_passes_iff.mp h)⟩

/-- A link that has one reply, the version response of an app. -/
def reporting (info : AppInfo) : Link where
  replies := [.answer Status.success info.response]
  afterwards := fun _ => .error { kind := .system, text := "" }
  hasSessions := false

/-- A candidate of a later release is not older than the oldest version that is supported. -/
theorem connect_exact_of_later_release :
    result ({} : Client).connect (reporting ⟨"Bitcoin", "2.2.0rc1", [0x00]⟩) = .ok {} := by
  have hform : AppInfo.HasForm ⟨"Bitcoin", "2.2.0rc1", [0x00]⟩ :=
    ⟨by decide, by decide, by decide, by decide, by decide⟩
  have hparse : AppVersion.parse? "2.2.0rc1" =
      some { release := [2, 2, 0], pre := some (.candidate, 1) } := by decide
  refine (connect_exact hform rfl).1.mpr (.inl ⟨⟨by decide, _, hparse, by decide⟩, ?_⟩)
  rintro ⟨-, v, hv, hmisjudged⟩
  obtain rfl := Option.some_inj.mp (hparse.symm.trans hv)
  exact absurd hmisjudged (by decide)

/-- A candidate of the oldest version comes before it, and its app is given a client. -/
theorem older_candidate_connects :
    ¬ AppInfo.Supported ⟨"Bitcoin", "2.1.0rc1", [0x00]⟩ ∧
      result ({} : Client).connect (reporting ⟨"Bitcoin", "2.1.0rc1", [0x00]⟩) = .ok {} := by
  have hparse : AppVersion.parse? "2.1.0rc1" =
      some { release := [2, 1, 0], pre := some (.candidate, 1) } := by decide
  refine ⟨?_, ?_⟩
  · rintro ⟨-, v, hv, hnot⟩
    obtain rfl := Option.some_inj.mp (hparse.symm.trans hv)
    exact hnot (by decide)
  · rfl

end Client
end SignerHost
