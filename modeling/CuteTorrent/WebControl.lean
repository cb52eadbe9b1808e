import Mathlib.Logic.Function.Basic
import CuteTorrent.Library.Runs
import CuteTorrent.HttpRequestHandler
import CuteTorrent.TorrentManager

/-! The web control: `RequestMapper` and its controllers, and which requests
without valid credentials they refuse. -/
namespace CuteTorrent
open QApplicationSettings HttpRequestHandler

class QtJson where
  parse : QString → QVariant × Bool
  serialize : QVariant → QByteArray

/-- What a controller finds outside CT_DATA: folders, files that open for
writing, the text of an error code, the files below the document root. -/
class WebServer where
  dirExists : QString → Bool
  opensForWriting : QString → Bool
  errorMessage : QByteArray
  staticFile : QByteArray → HttpResponse → HttpResponse

inductive HandleCall where
  | pause (h : Sha1Hash)
  | resume (h : Sha1Hash)
deriving DecidableEq

/-- The controllers of `RequestMapper`, in the order their paths are tried. -/
inductive Route where
  | magnet
  | settings
  | torrent
  | upload
  | action
  | file
deriving DecidableEq, Repr

namespace Route

def ofPath (path : QByteArray) : Route :=
  if (literal "/magnet/api").isPrefixOf path then magnet
  else if (literal "/settings/api").isPrefixOf path then settings
  else if (literal "/torrent/api").isPrefixOf path then torrent
  else if (literal "/torrent/upload").isPrefixOf path then upload
  else if (literal "/torrent/action").isPrefixOf path then action
  else file

end Route

structure RequestMapper where
  controller : Route → HttpRequestHandler

def methodNotAllowed (response : HttpResponse) : HttpResponse :=
  ((response.setStatus 405 "Method Not Allowed").write
    (literal "<BODY><h3>405 Method Not Allowed.</h3>")).write (literal "</BODY>")

@[simp] theorem status_methodNotAllowed : (methodNotAllowed .initial).status = 405 := rfl

section
variable [DataFolder]

/-- The torrents, the settings, the calls on handles, the waiters that were
started and the save paths kept for them. -/
structure WebWorld where
  world : TorrentManager.World
  settings : Settings
  handleCalls : List HandleCall
  waiters : List QString
  savePathMap : List (QString × QString)

structure Served where
  handler : HttpRequestHandler
  web : WebWorld
  response : HttpResponse
  fault : Option Fault

def afterCheck [Md5] (p : Platform) (w : WebWorld) (request : HttpRequest) (response : HttpResponse)
    (serve : HttpRequestHandler → WebWorld → HttpResponse → Served) : Served :=
  let (verdict, handler, settings, response) := CheckCreditinals p w.settings request response
  let w := { w with settings := settings }
  if !verdict then ⟨handler, w, response, none⟩ else serve handler w response

namespace MagnetApiController

def service [Md5] (p : Platform) (w : WebWorld) (request : HttpRequest) (response : HttpResponse) :
    Served :=
  afterCheck p w request response fun handler w response =>
    if equalsLiteral request.method "POST" then
      let magnetLink := p.fromCString (request.getParameter "magnetLink")
      let savePath := p.fromCString (request.getParameter "savePath")
      if magnetLink = [] ∨ savePath = [] then
        -- the status is set when the first part has already gone out
        let response := (response.write (literal "Invalid data passed")).setStatus 500
          "Internal server error"
        ⟨handler, w, response, none⟩
      else
        let w := { w with
          savePathMap := Assoc.insert magnetLink savePath w.savePathMap
          waiters := w.waiters ++ [magnetLink] }
        ⟨handler, w, response.setStatus 200 "OK", none⟩
    else ⟨handler, w, methodNotAllowed response, none⟩

end MagnetApiController

namespace SettingsAPiController

def torrentGroup : QString := "Torrent".toList

def filteringGroupsKey : QString := "filteringGroups".toList

/-- The settings of a reply, in the order they are read, with the defaults of
`valueInt`, `valueString` and `valueBool`. -/
def fields : List (String × QVariant) :=
  [("listen_port", .int 0), ("active_downloads", .string []), ("download_rate_limit", .string []),
    ("active_limit", .string []), ("upload_rate_limit", .string []), ("active_seeds", .string []),
    ("disk_io_read_mode", .string []), ("cache_size", .int 0), ("use_disk_read_ahead", .bool true),
    ("allow_reordered_disk_operations", .bool true), ("lock_files", .bool true),
    ("low_prio_disk", .bool true), ("use_read_cache", .string [])]

def typed : QVariant → QVariant → QVariant
  | .int _, v => .int v.toInt
  | .bool _, v => .bool v.toBool
  | _, v => .string v.toString

def replyValue (key : String) (v : QVariant) : QVariant :=
  if key = "cache_size" then .int (wrapInt (v.toInt * 16)) else v

def readFields : List (String × QVariant) → Settings → List (QString × QVariant) × Settings
  | [], s => ([], s)
  | (key, defalt) :: rest, s =>
    let (v, s) := value s torrentGroup key.toList defalt
    let (jSettings, s) := readFields rest s
    (Assoc.insert key.toList (replyValue key (typed defalt v)) jSettings, s)

def groupJson [QtHash] (g : GroupForFileFiltering) : QVariant :=
  .map [("extensions".toList, .string g.extensionsText), ("name".toList, .string g.name),
    ("path".toList, .string g.path)]

def storedValue (key : String) (v : QVariant) : QVariant :=
  if key = "cache_size" then .int (v.toInt.tdiv 16) else v

def writeFields (settingsVal : QVariant) (s : Settings) : Settings :=
  fields.foldl (fun s f => setValue s torrentGroup f.1.toList
    (storedValue f.1 (settingsVal.member f.1.toList))) s

def groupOfJson (v : QVariant) : GroupForFileFiltering :=
  .ofText (v.member "name".toList).toString (v.member "extensions".toList).toString
    (v.member "path".toList).toString

def service [Md5] [QtHash] [QtJson] (p : Platform) (w : WebWorld) (request : HttpRequest)
    (response : HttpResponse) : Served :=
  afterCheck p w request response fun handler w response =>
    if equalsLiteral request.method "GET" then
      let (jSettings, s) := readFields fields w.settings
      let w := { w with settings := s }
      match getFileFilterGroups s with
      | .error f => ⟨handler, w, response, some f⟩
      | .ok groups =>
        let reply := Assoc.insert filteringGroupsKey (.list (groups.map groupJson)) jSettings
        let response := (response.setHeader "Content-Type" "application/json").write
          (QtJson.serialize (.map reply))
        ⟨handler, w, response, none⟩
    else if equalsLiteral request.method "PUT" || equalsLiteral request.method "POST" then
      let (settingsVal, ok) := QtJson.parse (p.fromCString request.body)
      if ok then
        let groups := (settingsVal.member filteringGroupsKey).toList
        let s := saveFilterGropups (writeFields settingsVal w.settings) (groups.map groupOfJson)
        ⟨handler, { w with settings := s }, response, none⟩
      else
        let response := (response.setStatus 400 "Bad Request").write
          (literal "<BODY><h3>400 Bad Request.</h3></BODY>")
        ⟨handler, w, response, none⟩
    else ⟨handler, w, methodNotAllowed response, none⟩

end SettingsAPiController

namespace TorrentApiController

def number (n : Int) : QVariant := .string n.repr.toList

def statusOf (t : Torrent) : Int := if t.handle.isValid then t.handle.status.state.toInt else 0

def torrentJson (count : Int) (t : Torrent) : QVariant :=
  .map [("id".toList, .string t.getInfoHash), ("progress".toList, number t.getProgress),
    ("torrentStatus".toList, number (statusOf t)), ("torrentsCount".toList, .int count)]

def window (torrents : TorrentStorrage) : Int → Nat → Except Fault (List QVariant)
  | _, 0 => .ok []
  | i, left + 1 => do
    match ← torrents.atIndex i with
    | none => .error .nullPointer
    | some curret =>
      match torrents.value curret with
      | none => .error .nullPointer
      | some t => do
        let respJson ← window torrents (i + 1) left
        return torrentJson torrents.count t :: respJson

def firstIndex (iPage iPageSize : Int) : Int := wrapInt (wrapInt (iPage - 1) * iPageSize)

def bound (torrents : TorrentStorrage) (iPage iPageSize : Int) : Int :=
  min torrents.count (wrapInt (iPage * iPageSize))

def page (torrents : TorrentStorrage) (iPage iPageSize : Int) : Except Fault (List QVariant) :=
  let i := firstIndex iPage iPageSize
  window torrents i (bound torrents iPage iPageSize - i).toNat

/-- The check is commented out in the source. -/
def service [QtJson] (p : Platform) (handler : HttpRequestHandler) (w : WebWorld)
    (request : HttpRequest) (response : HttpResponse) : Served :=
  if toUpper request.method = literal "GET" then
    let pageText := p.fromCString (request.getParameter "page")
    let pageSize := p.fromCString (request.getParameter "pageSize")
    if pageText.length > 0 then
      match toInt pageText with
      | none =>
        ⟨handler, w, (response.setStatus 400 "Bad Request").write
          (literal "<h3>400 Bad Request.</h3>"), none⟩
      | some iPage =>
        match toInt pageSize with
        | none =>
          ⟨handler, w, (response.setStatus 400 "Bad Request").write
            (literal "<BODY><h3>400 Bad Request.</h3></BODY>"), none⟩
        | some iPageSize =>
          match page w.world.storrage iPage iPageSize with
          | .error f => ⟨handler, w, response, some f⟩
          | .ok respJson =>
            ⟨handler, w, (response.setHeader "Content-Type" "application/json").write
              (QtJson.serialize (.list respJson)), none⟩
    else ⟨handler, w, methodNotAllowed response, none⟩
  else ⟨handler, w, response, none⟩

end TorrentApiController

namespace UploadController

/-- The folder of uploads lies beside CT_DATA. -/
def uploadedPath (name : QString) : QString := "../uploaded/".toList ++ name

def serverError (response : HttpResponse) (text : QByteArray) : HttpResponse :=
  ((response.setStatus 500 " Internal Server Error").write
    (literal "<BODY><h3>500  Internal Server Error.</h3>")).write
      (literal "<h3>" ++ text ++ literal "</h3></BODY>")

def service [Md5] [WebServer] [Libtorrent] (p : Platform) (w : WebWorld) (request : HttpRequest)
    (response : HttpResponse) : Served :=
  afterCheck p w request response fun handler w response =>
    if equalsLiteral request.method "POST" then
      let savePath := p.fromCString (request.getParameter "savePath")
      if savePath = [] ∨ WebServer.dirExists savePath = false then
        let response := ((response.setStatus 400 "Bad Request").write
          (literal "<BODY><h3>400 Bad Request.</h3>")).write
            (literal "<h3>Invalid save-path</h3></BODY>")
        ⟨handler, w, response, none⟩
      else
        let uploaded := uploadedPath (p.fromCString (request.getParameter "files[]"))
        if WebServer.opensForWriting uploaded then
          let disk := w.world.disk.write uploaded []
          match request.getUploadedFile "files[]" with
          | none => ⟨handler, { w with world := { w.world with disk := disk } }, response,
              some .nullPointer⟩
          | some content =>
            let (world, added) := TorrentManager.AddTorrent p
              { w.world with disk := disk.write uploaded content }
              ⟨uploaded, savePath, [], [], [], false⟩
            let w := { w with world := world }
            match added with
            | .ok true => ⟨handler, w, response, none⟩
            | .ok false =>
              ⟨handler, w, serverError response WebServer.errorMessage, none⟩
            | .error f => ⟨handler, w, response, some f⟩
        else
          ⟨handler, w, serverError response (literal "Unable to open output file"), none⟩
    else ⟨handler, w, methodNotAllowed response, none⟩

end UploadController

/-- `Torrent::RemoveTorrent`, by the handle; an invalid one has the zero hash and
no name, and the session refuses it. -/
def Torrent.RemoveTorrent (p : Platform) (w : TorrentManager.World) (t : Torrent) (delfiles : Bool) :
    TorrentManager.World :=
  if t.handle.isValid then TorrentManager.RemoveTorrent p w t.handle.hash delfiles
  else
    { w with
      disk := ((w.disk.remove (hashFile .zero .torrent)).remove
        (TorrentManager.namedFile p [])).remove (hashFile .zero .resume)
      storrage := w.storrage.remove Sha1Hash.zero.hex }

namespace CommandsApiController

/-- The actions of a POST. `remove` hands the pointer to the manager to a `bool`
parameter; the pointer is not null. -/
def command (p : Platform) (w : WebWorld) (action id : QString) : WebWorld :=
  match w.world.storrage.value id with
  | none => w
  | some tor =>
    if action = "pause".toList then
      if tor.handle.isValid then
        { w with handleCalls := w.handleCalls ++ [.pause tor.handle.hash] }
      else w
    else if action = "resume".toList then
      if tor.handle.isValid then
        { w with handleCalls := w.handleCalls ++ [.resume tor.handle.hash] }
      else w
    else if action = "remove".toList then
      { w with world := Torrent.RemoveTorrent p w.world tor true }
    else w

def serveCommand (p : Platform) (request : HttpRequest) (handler : HttpRequestHandler) (w : WebWorld)
    (response : HttpResponse) : Served :=
  if toUpper request.method = literal "POST" then
    ⟨handler, command p w (p.fromCString (request.getParameter "action"))
      (p.fromCString (request.getParameter "id")), response, none⟩
  else ⟨handler, w, methodNotAllowed response, none⟩

/-- The member is asked before `CheckCreditinals` has set it. -/
def service [Md5] (p : Platform) (handler : HttpRequestHandler) (w : WebWorld)
    (request : HttpRequest) (response : HttpResponse) : Served :=
  if handler.requireAuth then afterCheck p w request response (serveCommand p request)
  else serveCommand p request handler w response

end CommandsApiController

namespace StaticFileController

def service [Md5] [WebServer] (p : Platform) (w : WebWorld) (request : HttpRequest)
    (response : HttpResponse) : Served :=
  let path := request.getPath
  let response :=
    if (literal "/..").isPrefixOf path then
      (response.setStatus 403 "forbidden").write (literal "403 forbidden")
    else response
  afterCheck p w request response fun handler w response =>
    ⟨handler, w, WebServer.staticFile path response, none⟩

end StaticFileController

namespace RequestMapper
variable [Md5] [QtHash] [QtJson] [WebServer] [Libtorrent]

def serve (p : Platform) (m : RequestMapper) (w : WebWorld) (request : HttpRequest) : Route → Served
  | .magnet => MagnetApiController.service p w request .initial
  | .settings => SettingsAPiController.service p w request .initial
  | .torrent => TorrentApiController.service p (m.controller .torrent) w request .initial
  | .upload => UploadController.service p w request .initial
  | .action => CommandsApiController.service p (m.controller .action) w request .initial
  | .file => StaticFileController.service p w request .initial

def service (p : Platform) (m : RequestMapper) (w : WebWorld) (request : HttpRequest) :
    RequestMapper × Served :=
  let route := Route.ofPath request.getPath
  let served := serve p m w request route
  (⟨Function.update m.controller route served.handler⟩, served)

end RequestMapper

/-! ### Requests without valid credentials -/

structure Refused (w : WebWorld) (s : Served) : Prop where
  no_fault : s.fault = none
  unchanged : s.web = w
  status_eq : s.response.status = 401
  headers_eq : s.response.headers = (challenge .initial).headers
  body_mem : s.response.body ∈ [[], unauthorizedBody]

theorem afterCheck_of_invalid [Md5] {p : Platform} {w : WebWorld} {request : HttpRequest}
    (hauth : RequiresAuth w.settings) (hv : ¬ Valid p (initSettings w.settings).1.account request)
    (serve : HttpRequestHandler → WebWorld → HttpResponse → Served) :
    ∃ response ∈ refusals, afterCheck p w request .initial serve =
      ⟨(initSettings w.settings).1, { w with settings := (initSettings w.settings).2 }, response,
        none⟩ := by
  obtain ⟨response, hmem, heq⟩ := checkCreditinals_of_invalid hauth hv
  refine ⟨response, hmem, ?_⟩
  rw [afterCheck, heq]
  rfl

theorem afterCheck_refused_iff [Md5] {p : Platform} {w : WebWorld} {request : HttpRequest}
    (hauth : RequiresAuth w.settings) (hv : ¬ Valid p (initSettings w.settings).1.account request)
    (serve : HttpRequestHandler → WebWorld → HttpResponse → Served) :
    Refused w (afterCheck p w request .initial serve) ↔ LoginStored w.settings := by
  obtain ⟨response, hmem, heq⟩ := afterCheck_of_invalid hauth hv serve
  rw [← initSettings_snd_eq_iff hauth, heq]
  constructor
  · intro h
    exact congrArg WebWorld.settings h.unchanged
  · intro h
    have hfixed : ∀ r ∈ refusals, r.status = 401 ∧ r.headers = (challenge .initial).headers ∧
        r.body ∈ [[], unauthorizedBody] := by
      decide +kernel
    obtain ⟨hstatus, hheaders, hbody⟩ := hfixed response hmem
    refine ⟨rfl, ?_, hstatus, hheaders, hbody⟩
    simp only [h]

theorem TorrentApiController.status_ne [QtJson] (p : Platform) (handler : HttpRequestHandler)
    (w : WebWorld) (request : HttpRequest) :
    (service p handler w request .initial).response.status ≠ 401 := by
  rw [service]
  dsimp only
  split_ifs
  · cases toInt (p.fromCString (request.getParameter "page")) with
    | none => simp
    | some iPage =>
      cases toInt (p.fromCString (request.getParameter "pageSize")) with
      | none => simp
      | some iPageSize =>
        cases hjson : page w.world.storrage iPage iPageSize with
        | error f => simp [hjson]
        | ok respJson => simp [hjson]
  · simp
  · simp

theorem CommandsApiController.status_ne (p : Platform) (request : HttpRequest)
    (handler : HttpRequestHandler) (w : WebWorld) :
    (serveCommand p request handler w .initial).response.status ≠ 401 := by
  rw [serveCommand]
  split_ifs
  · simp
  · simp

namespace RequestMapper
variable [Md5] [QtHash] [QtJson] [WebServer] [Libtorrent] (p : Platform)

/-- While the setting requireAuth is true, a request for one of the API
controllers without valid credentials is refused. -/
def ObeysPassword (m : RequestMapper) (w : WebWorld) (request : HttpRequest) : Prop :=
  Route.ofPath request.getPath ≠ .file → RequiresAuth w.settings →
    ¬ Valid p (initSettings w.settings).1.account request → Refused w (service p m w request).2

/-- The request goes to a controller that makes the check: not to the torrent
list, and to the actions only if their controller's member is set. The account
is stored, so that reading it does not store a default. -/
def Guarded (m : RequestMapper) (w : WebWorld) (request : HttpRequest) : Prop :=
  Route.ofPath request.getPath ≠ .file → RequiresAuth w.settings →
    ¬ Valid p (initSettings w.settings).1.account request →
      Route.ofPath request.getPath ≠ .torrent ∧
      (Route.ofPath request.getPath = .action → (m.controller .action).requireAuth = true) ∧
      LoginStored w.settings

theorem serve_refused_iff (m : RequestMapper) {w : WebWorld} {request : HttpRequest}
    (hauth : RequiresAuth w.settings) (hv : ¬ Valid p (initSettings w.settings).1.account request)
    {route : Route} (hroute : route ≠ .file) :
    Refused w (serve p m w request route) ↔ route ≠ .torrent ∧
      (route = .action → (m.controller .action).requireAuth = true) ∧ LoginStored w.settings := by
  cases route with
  | magnet =>
    have h := afterCheck_refused_iff hauth hv
    simpa [serve, MagnetApiController.service] using h _
  | settings =>
    have h := afterCheck_refused_iff hauth hv
    simpa [serve, SettingsAPiController.service] using h _
  | upload =>
    have h := afterCheck_refused_iff hauth hv
    simpa [serve, UploadController.service] using h _
  | torrent =>
    refine iff_of_false (fun h => ?_) (fun h => h.1 rfl)
    exact TorrentApiController.status_ne p _ w request h.status_eq
  | action =>
    rw [serve, CommandsApiController.service]
    split_ifs with hmember
    · rw [afterCheck_refused_iff hauth hv]
      simp [hmember]
    · refine iff_of_false (fun h => ?_) (fun h => hmember (h.2.1 rfl))
      exact CommandsApiController.status_ne p request _ w h.status_eq
  | file => exact absurd rfl hroute

theorem obeysPassword_iff (m : RequestMapper) (w : WebWorld) (request : HttpRequest) :
    ObeysPassword p m w request ↔ Guarded p m w request := by
  apply forall_congr'
  intro hroute
  apply forall_congr'
  intro hauth
  apply forall_congr'
  intro hv
  exact serve_refused_iff p m hauth hv hroute

inductive WebOp
  | request (r : HttpRequest)
  | setValue (group key : QString) (v : QVariant)
  | world (w : TorrentManager.World)

def step (s : RequestMapper × WebWorld) : WebOp → RequestMapper × WebWorld
  | .request r =>
    let (m, served) := service p s.1 s.2 r
    (m, served.web)
  | .setValue group key v =>
    (s.1, { s.2 with settings := QApplicationSettings.setValue s.2.settings group key v })
  | .world w => (s.1, { s.2 with world := w })

def OnRequests (C : RequestMapper → WebWorld → HttpRequest → Prop) (s : RequestMapper × WebWorld) :
    WebOp → Prop
  | .request r => C s.1 s.2 r
  | .setValue _ _ _ | .world _ => True

/-- In a run from any members of the controllers every request obeys the
password exactly when each of them is guarded as it comes. -/
theorem password_obeyed_iff (s : RequestMapper × WebWorld) (ops : List WebOp) :
    Runs.Along (step p) (OnRequests (ObeysPassword p)) s ops ↔
      Runs.Along (step p) (OnRequests (Guarded p)) s ops := by
  refine Runs.along_iff_along (I := fun _ => True) (fun s op _ => ?_) (fun _ _ _ _ => trivial)
    trivial ops
  cases op with
  | request r => exact obeysPassword_iff p s.1 s.2 r
  | setValue group key v => exact Iff.rfl
  | world w => exact Iff.rfl

end RequestMapper

end

/-! ### A server for the examples -/

@[reducible] def plainJson : QtJson := ⟨fun _ => (.invalid, false), fun _ => literal "[  ]"⟩

@[reducible] def plainServer : WebServer where
  dirExists _ := false
  opensForWriting _ := false
  errorMessage := []
  staticFile _ response := (response.setStatus 404 "not found").write (literal "404 not found")

def lockedWorld : @WebWorld TorrentManager.plainFolder :=
  letI := TorrentManager.plainFolder
  ⟨TorrentManager.plainWorld [], lockedSettings, [], [], []⟩

def listRequest : HttpRequest where
  method := literal "GET"
  path := literal "/torrent/api"
  headers := []
  parameters := [(literal "page", literal "1"), (literal "pageSize", literal "10")]
  uploadedFiles := []
  body := []

theorem list_needs_no_password :
    ¬ ∀ (_ : DataFolder) (_ : Md5) (_ : QtHash) (_ : QtJson) (_ : WebServer) (_ : Libtorrent)
      (p : Platform) (m : RequestMapper) (w : WebWorld) (request : HttpRequest),
      m.ObeysPassword p w request := by
  intro h
  have hobeys := h TorrentManager.plainFolder sampleMd5 plainHash plainJson plainServer
    TorrentManager.sampleLibtorrent .unix ⟨fun _ => ⟨true, ⟨[], []⟩⟩⟩ lockedWorld listRequest
  have hguarded := (@RequestMapper.obeysPassword_iff TorrentManager.plainFolder sampleMd5 plainHash
    plainJson plainServer TorrentManager.sampleLibtorrent _ _ _ _).mp hobeys
  exact (hguarded (by decide) rfl (fun hv => hv.1 rfl)).1 (by decide)

end CuteTorrent
