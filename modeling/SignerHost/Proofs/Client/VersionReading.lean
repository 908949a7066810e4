import SignerHost.Proofs.Client.Transcript
import SignerHost.Proofs.Client.VersionResponse

/-!
# Reading the version of an app

The version of an app is asked for by one command, and the response is read from the front.  It is
not looked at what stands behind the last field.

* `Client.result_request_of_received` says how a request ends whose first reply is a success.
* `Client.getVersion_exact` says what becomes of every response: it gives an app if it starts with
  the version response of that app, and otherwise it is an invalid result, which holds the response
  and names the flaw.
-/

namespace SignerHost

open Step

namespace Client

variable {client : Client} {link : Link}

/-- A request whose first reply is a success ends with its data. -/
theorem result_request_of_received {command : Command} {responder : Option Responder} {data : Bytes}
    (h : link.received [command] = [.answer Status.success data]) :
    result (client.request command responder) link = .ok (data, responder) := by
  obtain ⟨hresult, -⟩ := request_eq_run client command responder link
  rw [hresult]
  rw [Link.received] at h
  -- The response may be the last reply of the link or what the link has behind them.
  cases hreplies : link.replies with
  | nil =>
      have hrun : ((client.options command).run link.afterwards []
          (pendingAfter command [] responder)).outcome =
          (pendingAfter command [] responder).conclude (link.afterwards command) := rfl
      rw [hreplies] at h
      have hreply : Reply.last (link.afterwards command) = .answer Status.success data :=
        (List.cons.inj h).1
      cases hlast : link.afterwards command with
      | ok data' =>
          rw [hlast] at hreply
          rw [hrun, hlast, ← (Reply.answer.inj hreply).2]
          rfl
      | error fault =>
          rw [hlast] at hreply
          cases hreply
  | cons reply rest =>
      rw [hreplies] at h
      obtain rfl : reply = .answer Status.success data := (List.cons.inj h).1
      rfl

variable {response : Bytes}

theorem result_getVersion {info : AppInfo} {rest : Bytes}
    (hreceived : link.received [Command.getVersion] = [.answer Status.success response])
    (hread : AppInfo.read.run response = .ok info rest) :
    result client.getVersion link = .ok info := by
  rw [EStateM.run] at hread
  rw [getVersion, result_bind_of_ok (result_request_of_received hreceived)]
  simp only [hread]
  rfl

theorem result_getVersion_of_malformed {cause : Malformed} {rest : Bytes}
    (hreceived : link.received [Command.getVersion] = [.answer Status.success response])
    (hread : AppInfo.read.run response = .error (.malformed cause) rest) :
    result client.getVersion link =
      .error (unexpected Command.getVersion response (.versionResponse cause)) := by
  rw [EStateM.run] at hread
  rw [getVersion, result_bind_of_ok (result_request_of_received hreceived)]
  simp only [hread]
  rfl

/-- Whatever is reported with a success either starts with a version response, and then it gives the
app whatever stands behind it, or it has a flaw, and then it is an invalid result that holds all of
it and names the flaw. -/
theorem getVersion_exact
    (hreceived : link.received [Command.getVersion] = [.answer Status.success response]) :
    (∀ info, result client.getVersion link = .ok info ↔
        info.HasForm ∧ ∃ rest, response = info.response ++ rest) ∧
      ∀ failure, result client.getVersion link = .error failure ↔
        ∃ cause, AppInfo.Flawed response cause ∧
          failure = .result .unexpected (some .getVersion) response (.versionResponse cause) := by
  have hfinds (info : AppInfo) : result AppInfo.read response = .ok info ↔
      info.HasForm ∧ ∃ rest, response = info.response ++ rest := by
    rw [AppInfo.finds_read.result_eq_ok]
    constructor
    · rintro ⟨_, rest, rfl, hform, rfl⟩
      exact ⟨hform, rest, rfl⟩
    · rintro ⟨hform, rest, rfl⟩
      exact ⟨_, rest, rfl, hform, rfl⟩
  have hrejects (cause : Malformed) : result AppInfo.read response = .error (.malformed cause) ↔
      AppInfo.Flawed response cause := by
    rw [AppInfo.rejects_read]
    simp
  -- A response is read or refused, and never both.  So each side excludes the other.
  cases hread : AppInfo.read.run response with
  | ok info' rest =>
      rw [result_of_ok hread] at hfinds hrejects
      rw [result_getVersion hreceived hread]
      refine ⟨hfinds, fun failure => iff_of_false (fun h => by cases h) ?_⟩
      rintro ⟨cause, hflaw, -⟩
      cases (hrejects cause).mpr hflaw
  | error failure' rest =>
      obtain ⟨cause', hflaw, rfl⟩ := (AppInfo.rejects_read _ _).mp (result_of_error hread)
      rw [result_of_error hread] at hfinds hrejects
      rw [result_getVersion_of_malformed hreceived hread]
      refine ⟨fun info => iff_of_false (fun h => by cases h) fun h => ?_, fun failure => ?_⟩
      · cases (hfinds info).mpr h
      · constructor
        · intro h
          exact ⟨cause', hflaw, (Except.error.inj h).symm⟩
        · rintro ⟨cause, hcause, rfl⟩
          cases (hrejects cause).mpr hcause
          rfl

/-- A link that has one reply, a success with a response. -/
def responding (response : Bytes) : Link where
  replies := [.answer Status.success response]
  afterwards := fun _ => .error { kind := .system, text := "" }
  hasSessions := false

/-- Version 2.1.3 of an app, as it reports itself. -/
def reportedApp : AppInfo := ⟨"Bitcoin", "2.1.3", [0x00]⟩

theorem hasForm_reportedApp : reportedApp.HasForm :=
  ⟨by decide, by decide, by decide, by decide, by decide⟩

/-- The report without its last byte: the flags are cut. -/
theorem getVersion_exact_of_cut_flags :
    let response := reportedApp.response.dropLast
    (responding response).received [Command.getVersion] = [.answer Status.success response] ∧
      result ({} : Client).getVersion (responding response) =
        .error (.result .unexpected (some .getVersion) response (.versionResponse .exhausted)) := by
  intro response
  have hname : AppInfo.FitsField "Bitcoin" := ⟨by decide, by decide⟩
  have hversion : AppInfo.FitsField "2.1.3" := ⟨by decide, by decide⟩
  have hflags : Field.Cut [0x01] := .content (by decide)
  have hcut : AppInfo.Flawed response .exhausted := .fields (.flags hname hversion hflags)
  exact ⟨rfl, (getVersion_exact rfl).2 _ |>.mpr ⟨_, hcut, rfl⟩⟩

/-- The report with a byte behind it is no version response, and gives the app all the same. -/
theorem getVersion_of_trailing_byte :
    let response := reportedApp.response ++ [0xFF]
    (¬ ∃ info : AppInfo, info.HasForm ∧ response = info.response) ∧
      result ({} : Client).getVersion (responding response) = .ok reportedApp := by
  intro response
  have hread : AppInfo.read.run response = .ok reportedApp [0xFF] :=
    (AppInfo.finds_read _ _ _).mpr ⟨_, ⟨hasForm_reportedApp, rfl⟩, rfl⟩
  refine ⟨?_, result_getVersion rfl hread⟩
  rintro ⟨info, hform, hresponse⟩
  have hwhole : AppInfo.read.run response = .ok info [] :=
    (AppInfo.finds_read _ _ _).mpr ⟨_, ⟨hform, rfl⟩, by rw [hresponse, List.append_nil]⟩
  rw [hread] at hwhole
  cases hwhole

end Client
end SignerHost
