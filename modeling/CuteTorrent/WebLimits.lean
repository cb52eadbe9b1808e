import CuteTorrent.HttpConnectionHandlerPool
import CuteTorrent.WebSettingsReply

/-! `RequestMapper` behind the connections: no controller sets what limits a request or the
number of threads. -/
namespace CuteTorrent
open QApplicationSettings HttpRequestHandler

/-- The keys of the account, of which a default is stored when it is read. -/
def accountKeys : List QString := [requireAuthKey, loginKey, passwordKey]

/-- The two have the group of the server in common, but for the account. -/
def SameServer (s t : Settings) : Prop :=
  ∀ key ∉ accountKeys, stored s serverName key = stored t serverName key

theorem SameServer.refl (s : Settings) : SameServer s s := fun _ _ => rfl

theorem SameServer.trans {s t u : Settings} (hst : SameServer s t) (htu : SameServer t u) :
    SameServer s u := fun key hkey => (hst key hkey).trans (htu key hkey)

theorem sameServer_of_find {s t : Settings} (h : Assoc.find serverName s = Assoc.find serverName t) :
    SameServer s t := fun key _ => by rw [stored, stored, h]

theorem sameServer_initSettings (s : Settings) : SameServer (initSettings s).2 s := by
  intro key hkey
  simp only [accountKeys, List.mem_cons, List.not_mem_nil, or_false, not_or] at hkey
  change stored (value (value (value s _ _ _).2 _ _ _).2 _ _ _).2 _ _ = _
  rw [stored_value_of_ne hkey.2.2, stored_value_of_ne hkey.2.1, stored_value_of_ne hkey.1]

theorem SameServer.value_eq {s t : Settings} (h : SameServer s t) {key : QString}
    (hkey : key ∉ accountKeys) {defaultVal : QVariant} (hd : defaultVal.isValid = true) :
    (value s serverName key defaultVal).1 = (value t serverName key defaultVal).1 := by
  rw [value_fst s serverName key hd, value_fst t serverName key hd, h key hkey]

theorem SameServer.sameLimits {s t : Settings} (h : SameServer s t) : Connection.SameLimits s t :=
  ⟨congrArg QVariant.toInt (h.value_eq (by decide) rfl), congrArg QVariant.toInt (h.value_eq (by decide) rfl)⟩

theorem SameServer.maxThreads {s t : Settings} (h : SameServer s t) :
    HttpServer.maxThreadsOf serverName s = HttpServer.maxThreadsOf serverName t :=
  congrArg QVariant.toInt (h.value_eq (by decide) rfl)

section
variable [DataFolder] [Md5]

theorem sameServer_afterCheck {p : Platform} {w : WebWorld} {request : HttpRequest}
    {response : HttpResponse} {serve : HttpRequestHandler → WebWorld → HttpResponse → Served}
    (h : ∀ handler w response, SameServer (serve handler w response).web.settings w.settings) :
    SameServer (afterCheck p w request response serve).web.settings w.settings := by
  have hsettings : (CheckCreditinals p w.settings request response).2.2.1 = (initSettings w.settings).2 := by
    rw [CheckCreditinals]
    dsimp only
    split_ifs <;> rfl
  have hcheck := sameServer_initSettings w.settings
  rw [← hsettings] at hcheck
  unfold afterCheck
  dsimp only
  split_ifs
  · exact hcheck
  · exact (h _ _ _).trans hcheck

variable [QtHash] [QtJson]

theorem SettingsAPiController.sameServer_service (p : Platform) (w : WebWorld) (request : HttpRequest)
    (response : HttpResponse) : SameServer (service p w request response).web.settings w.settings := by
  have htorrent : serverName ≠ torrentGroup := by decide
  have hfile : serverName ≠ fileFiltering := by decide
  refine sameServer_afterCheck fun handler w response => ?_
  split_ifs
  · have hread := sameServer_of_find (find_readFields_of_ne htorrent fields w.settings)
    generalize readFields fields w.settings = read at hread ⊢
    cases hgroups : getFileFilterGroups read.2 with
    | error f => simpa only [hgroups] using hread
    | ok groups => simpa only [hgroups] using hread
  · dsimp only
    split_ifs
    · refine sameServer_of_find ?_
      rw [saveFilterGropups, Assoc.find_insert_of_ne hfile, find_writeFields_of_ne htorrent]
    · exact SameServer.refl _
  · exact SameServer.refl _

omit [Md5] [QtHash] in
theorem TorrentApiController.settings_service (p : Platform) (handler : HttpRequestHandler) (w : WebWorld)
    (request : HttpRequest) (response : HttpResponse) :
    (service p handler w request response).web.settings = w.settings := by
  rw [service]
  dsimp only
  split_ifs
  · cases toInt (p.fromCString (request.getParameter "page")) with
    | none => rfl
    | some iPage =>
      cases toInt (p.fromCString (request.getParameter "pageSize")) with
      | none => rfl
      | some iPageSize =>
        dsimp only
        cases page w.world.storrage iPage iPageSize with
        | error f => rfl
        | ok respJson => rfl
  · rfl
  · rfl

omit [QtHash] [QtJson] in
theorem MagnetApiController.sameServer_service (p : Platform) (w : WebWorld) (request : HttpRequest)
    (response : HttpResponse) : SameServer (service p w request response).web.settings w.settings := by
  refine sameServer_afterCheck fun handler w response => ?_
  dsimp only
  split_ifs <;> exact SameServer.refl _

omit [Md5] [QtHash] [QtJson] in
theorem CommandsApiController.settings_serveCommand (p : Platform) (request : HttpRequest)
    (handler : HttpRequestHandler) (w : WebWorld) (response : HttpResponse) :
    (serveCommand p request handler w response).web.settings = w.settings := by
  have hcommand : ∀ action id, (command p w action id).settings = w.settings := by
    intro action id
    unfold command
    cases w.world.storrage.value id with
    | none => rfl
    | some tor =>
      dsimp only
      split_ifs <;> rfl
  unfold serveCommand
  split_ifs
  · exact hcommand _ _
  · rfl

omit [QtHash] [QtJson] in
theorem CommandsApiController.sameServer_service (p : Platform) (handler : HttpRequestHandler)
    (w : WebWorld) (request : HttpRequest) (response : HttpResponse) :
    SameServer (service p handler w request response).web.settings w.settings := by
  unfold service
  split_ifs
  · refine sameServer_afterCheck fun handler w response => ?_
    rw [settings_serveCommand]
    exact SameServer.refl _
  · rw [settings_serveCommand]
    exact SameServer.refl _

variable [WebServer] [Libtorrent]

omit [QtHash] [QtJson] in
theorem UploadController.sameServer_service (p : Platform) (w : WebWorld) (request : HttpRequest)
    (response : HttpResponse) : SameServer (service p w request response).web.settings w.settings := by
  refine sameServer_afterCheck fun handler w response => ?_
  dsimp only
  split_ifs
  · exact SameServer.refl _
  · split
    · exact SameServer.refl _
    · split <;> exact SameServer.refl _
  · exact SameServer.refl _
  · exact SameServer.refl _

namespace RequestMapper

theorem sameServer_service (p : Platform) (m : RequestMapper) (w : WebWorld) (request : HttpRequest) :
    SameServer (service p m w request).2.web.settings w.settings := by
  unfold service serve
  cases Route.ofPath request.getPath with
  | magnet => exact MagnetApiController.sameServer_service p w request .initial
  | settings => exact SettingsAPiController.sameServer_service p w request .initial
  | torrent =>
    dsimp only
    rw [TorrentApiController.settings_service]
    exact SameServer.refl _
  | upload => exact UploadController.sameServer_service p w request .initial
  | action => exact CommandsApiController.sameServer_service p _ w request .initial
  | file => exact sameServer_afterCheck fun handler w response => SameServer.refl _

/-- The mapper as the program behind a connection, with the calls that a controller has made
on its response. -/
def answer (p : Platform) (calls : HttpResponse → List ResponseCall) (request : HttpRequest)
    (s : Settings) (program : RequestMapper × WebWorld) : Answer (RequestMapper × WebWorld) :=
  let (m, served) := service p program.1 { program.2 with settings := s } request
  ⟨calls served.response, served.web.settings, (m, served.web)⟩

/-- What the runs of connections and of the server ask of the program behind them. -/
theorem limits_answer (p : Platform) (calls : HttpResponse → List ResponseCall) (request : HttpRequest)
    (s : Settings) (program : RequestMapper × WebWorld) :
    HttpServer.maxThreadsOf serverName (answer p calls request s program).settings =
        HttpServer.maxThreadsOf serverName s ∧
      Connection.SameLimits (answer p calls request s program).settings s := by
  have hserver := sameServer_service p program.1 { program.2 with settings := s } request
  exact ⟨hserver.maxThreads, hserver.sameLimits⟩

end RequestMapper

end
end CuteTorrent
