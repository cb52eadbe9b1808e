import CuteTorrent.Library.Paths
import CuteTorrent.MultipartRequest
import CuteTorrent.WebSettings

/-! A file sent to `UploadController`, and where it is written. -/
namespace CuteTorrent
open HttpRequestHandler TorrentManager

def Platform.isSeparator (p : Platform) (c : Char) : Bool :=
  decide (c = '/') || decide (c = p.separator)

/-- The steps of a path, without the parts that stay where they are. -/
def pathSteps (p : Platform) (path : QString) : List (Paths.Step QString) :=
  (path.splitOnP p.isSeparator).filterMap fun part =>
    if part = [] ∨ part = ".".toList then none
    else if part = "..".toList then some .up
    else some (.into part)

theorem pathSteps_append (p : Platform) (s t : QString) :
    pathSteps p (s ++ '/' :: t) = pathSteps p s ++ pathSteps p t := by
  have hsep : p.isSeparator '/' = true := by simp [Platform.isSeparator]
  rw [pathSteps, List.splitOnP_append_cons s t hsep, List.filterMap_append]
  rfl

def located (p : Platform) (path : QString) : List QString := Paths.walk [] (pathSteps p path)

theorem located_append (p : Platform) (s t : QString) :
    located p (s ++ '/' :: t) = Paths.walk (located p s) (pathSteps p t) := by
  rw [located, pathSteps_append, Paths.walk_append]
  rfl

namespace UploadController

def absolutePath (applicationDirPath path : QString) : QString :=
  applicationDirPath ++ '/' :: ("CT_DATA".toList ++ '/' :: path)

def uploadFolder (applicationDirPath : QString) : QString :=
  applicationDirPath ++ '/' :: "uploaded".toList

theorem located_uploadedPath (p : Platform) (applicationDirPath name : QString) :
    located p (absolutePath applicationDirPath (uploadedPath name)) =
      Paths.walk (located p (uploadFolder applicationDirPath)) (pathSteps p name) := by
  have hpath : uploadedPath name = "..".toList ++ '/' :: ("uploaded".toList ++ '/' :: name) := rfl
  have hdata : pathSteps p "CT_DATA".toList = [.into "CT_DATA".toList] := by
    cases p <;> rfl
  have hup : pathSteps p "..".toList = [.up] := by
    cases p <;> rfl
  rw [absolutePath, uploadFolder, located_append, located_append, hpath, pathSteps_append,
    pathSteps_append, pathSteps_append, hdata, hup, Paths.walk_append, Paths.walk_append,
    Paths.walk_append]
  simp [Paths.step]

/-- Once its names and steps up have cancelled, the name comes down again on the
way it went up, and goes one step further. -/
def NamesOneFile (p : Platform) (applicationDirPath name : QString) : Prop :=
  let folder := located p (uploadFolder applicationDirPath)
  let route := Paths.route (pathSteps p name)
  ∃ file, route.names = folder.drop (folder.length - route.ups) ++ [file]

theorem inside_iff (p : Platform) (applicationDirPath name : QString) :
    (∃ file, located p (absolutePath applicationDirPath (uploadedPath name)) =
      located p (uploadFolder applicationDirPath) ++ [file]) ↔
        NamesOneFile p applicationDirPath name := by
  simp only [located_uploadedPath, Paths.walk_eq_concat_iff, NamesOneFile]

section
variable [WebServer]

def savePath (p : Platform) (request : HttpRequest) : QString :=
  p.fromCString (request.getParameter "savePath")

def fileName (p : Platform) (request : HttpRequest) : QString :=
  p.fromCString (request.getParameter "files[]")

def written (p : Platform) (request : HttpRequest) : Option QString :=
  if savePath p request = [] ∨ WebServer.dirExists (savePath p request) = false then none
  else if WebServer.opensForWriting (uploadedPath (fileName p request)) then
    some (uploadedPath (fileName p request))
  else none

theorem written_eq_some_iff (p : Platform) (request : HttpRequest) (path : QString) :
    written p request = some path ↔ savePath p request ≠ [] ∧
      WebServer.dirExists (savePath p request) = true ∧
      WebServer.opensForWriting (uploadedPath (fileName p request)) = true ∧
      uploadedPath (fileName p request) = path := by
  rw [written]
  split_ifs with hsave hopen
  · refine iff_of_false (by simp) (fun h => ?_)
    cases hsave with
    | inl hempty => exact h.1 hempty
    | inr hdir => exact absurd (h.2.1.symm.trans hdir) (by decide)
  · rw [not_or, Bool.not_eq_false] at hsave
    simp [hsave, hopen]
  · simp [hopen]

variable [DataFolder] [Md5] [Libtorrent]

structure Uploads (p : Platform) (w : WebWorld) (request : HttpRequest) : Prop where
  method_eq : equalsLiteral request.method "POST" = true
  accepted : (CheckCreditinals p w.settings request .initial).1 = true

/-- What becomes of an upload: the file is opened or not, and then something has
come to be written to it or the pointer to that is null. -/
inductive UploadOutcome (p : Platform) (w : WebWorld) (request : HttpRequest) (served : Served) : Prop
  | unwritten (hw : written p request = none) (hfault : served.fault = none)
    (hworld : served.web.world = w.world)
  | nullFile {path} (hw : written p request = some path)
    (hfile : request.getUploadedFile "files[]" = none) (hfault : served.fault = some .nullPointer)
    (hworld : served.web.world = { w.world with disk := w.world.disk.write path [] })
  | stored {path content world added} (hw : written p request = some path)
    (hfile : request.getUploadedFile "files[]" = some content)
    (hadd : AddTorrent p { w.world with disk := (w.world.disk.write path []).write path content }
      ⟨path, savePath p request, [], [], [], false⟩ = (world, added))
    (hfault : ∀ f, served.fault = some f → added = .error f) (hworld : served.web.world = world)

theorem service_outcome {p : Platform} {w : WebWorld} {request : HttpRequest}
    (h : Uploads p w request) : UploadOutcome p w request (service p w request .initial) := by
  unfold service afterCheck
  rw [checkCreditinals_of_accepted h.accepted]
  dsimp only
  rw [if_neg (by decide), if_pos h.method_eq]
  by_cases hsave : savePath p request = [] ∨ WebServer.dirExists (savePath p request) = false
  · have hnone : written p request = none := if_pos hsave
    rw [savePath] at hsave
    rw [if_pos hsave]
    exact .unwritten hnone rfl rfl
  · by_cases hopen : WebServer.opensForWriting (uploadedPath (fileName p request)) = true
    · have hsome : written p request = some (uploadedPath (fileName p request)) := by
        rw [written, if_neg hsave, if_pos hopen]
      rw [savePath] at hsave
      rw [fileName] at hopen
      rw [if_neg hsave, if_pos hopen]
      cases hfile : request.getUploadedFile "files[]" with
      | none => exact .nullFile hsome hfile rfl rfl
      | some content =>
        cases hadd : AddTorrent p { w.world with
            disk := (w.world.disk.write (uploadedPath (fileName p request)) []).write
              (uploadedPath (fileName p request)) content }
            ⟨uploadedPath (fileName p request), savePath p request, [], [], [], false⟩ with
        | mk world added =>
          have hcall := hadd
          rw [fileName, savePath] at hcall
          dsimp only
          rw [hcall]
          cases added with
          | error f => exact .stored hsome hfile hadd (fun g hg => by rw [Option.some.inj hg]) rfl
          | ok done =>
            cases done with
            | false => exact .stored hsome hfile hadd (fun g hg => by cases hg) rfl
            | true => exact .stored hsome hfile hadd (fun g hg => by cases hg) rfl
    · have hnone : written p request = none := by
        rw [written, if_neg hsave, if_neg hopen]
      rw [savePath] at hsave
      rw [fileName] at hopen
      rw [if_neg hsave, if_neg hopen]
      exact .unwritten hnone rfl rfl

/-- No null pointer is followed, and what is written lies directly in the folder
of uploads. -/
structure StaysInFolder (p : Platform) (applicationDirPath : QString) (w : WebWorld)
    (request : HttpRequest) : Prop where
  no_null : (service p w request .initial).fault ≠ some .nullPointer
  inside : ∀ path, written p request = some path → ∃ name,
    located p (absolutePath applicationDirPath path) =
      located p (uploadFolder applicationDirPath) ++ [name]

def KeepsToFolder (p : Platform) (applicationDirPath : QString) (request : HttpRequest) : Prop :=
  savePath p request ≠ [] → WebServer.dirExists (savePath p request) = true →
    WebServer.opensForWriting (uploadedPath (fileName p request)) = true →
      (request.getUploadedFile "files[]").isSome ∧
        NamesOneFile p applicationDirPath (fileName p request)

theorem no_null_iff {p : Platform} {w : WebWorld} {request : HttpRequest} (h : Uploads p w request) :
    (service p w request .initial).fault ≠ some .nullPointer ↔
      ((written p request).isSome → (request.getUploadedFile "files[]").isSome) := by
  cases service_outcome h with
  | unwritten hw hfault hworld => simp [hw, hfault]
  | nullFile hw hfile hfault hworld => simp [hw, hfile, hfault]
  | stored hw hfile hadd hfault hworld =>
    refine iff_of_true (fun hnull => ?_) (fun _ => by simp [hfile])
    have herror := fault_addTorrent (congrArg Prod.snd hadd |>.trans (hfault _ hnull))
    exact absurd herror (by decide)

/-- An upload stays in its folder exactly when its file is there and its name
names one file of the folder, unless nothing is opened. -/
theorem staysInFolder_iff {p : Platform} {w : WebWorld} {request : HttpRequest}
    (h : Uploads p w request) (applicationDirPath : QString) :
    StaysInFolder p applicationDirPath w request ↔ KeepsToFolder p applicationDirPath request := by
  have hparts : StaysInFolder p applicationDirPath w request ↔ ∀ path, written p request = some path →
      (request.getUploadedFile "files[]").isSome ∧ ∃ name,
        located p (absolutePath applicationDirPath path) =
          located p (uploadFolder applicationDirPath) ++ [name] := by
    constructor
    · intro hs path hw
      exact ⟨(no_null_iff h).mp hs.no_null (by simp [hw]), hs.inside path hw⟩
    · intro hs
      refine ⟨(no_null_iff h).mpr fun hw => ?_, fun path hw => (hs path hw).2⟩
      obtain ⟨path, hpath⟩ := Option.isSome_iff_exists.mp hw
      exact (hs path hpath).1
  rw [hparts, KeepsToFolder]
  simp only [written_eq_some_iff]
  constructor
  · intro hs hsave hdir hopen
    obtain ⟨hfile, hinside⟩ := hs _ ⟨hsave, hdir, hopen, rfl⟩
    exact ⟨hfile, (inside_iff p applicationDirPath _).mp hinside⟩
  · rintro hs path ⟨hsave, hdir, hopen, rfl⟩
    obtain ⟨hfile, hname⟩ := hs hsave hdir hopen
    exact ⟨hfile, (inside_iff p applicationDirPath _).mpr hname⟩

end

/-! ### Two uploads -/

@[reducible] def openServer : WebServer where
  dirExists _ := true
  opensForWriting _ := true
  errorMessage := []
  staticFile _ response := response

def formHeaders : List (QByteArray × QByteArray) :=
  [(literal "Content-Type", literal "multipart/form-data; boundary=X")]

def uploadForm (name : String) : QByteArray :=
  ["--X", "Content-Disposition: form-data; name=\"savePath\"", "", "/tmp", "--X",
    "Content-Disposition: form-data; name=\"files[]\"; filename=\"" ++ name ++ "\"", "", "d",
    "--X--"].flatMap fun line => literal line ++ [13, 10]

def uploadRequest (name : String) : HttpRequest where
  method := literal "POST"
  path := literal "/torrent/upload"
  headers := formHeaders
  parameters := [(literal "savePath", literal "/tmp"), (literal "files[]", literal name)]
  uploadedFiles := [(literal "files[]", literal "d")]
  body := []

theorem uploads_uploadRequest (name : String) :
    @Uploads plainFolder sampleMd5 .unix SettingsAPiController.openWorld (uploadRequest name) := by
  let _ := plainFolder
  let _ := sampleMd5
  refine ⟨decide_eq_true (show cString (literal "POST") = literal "POST" by decide), ?_⟩
  exact (checkCreditinals_iff _ _ _ _).mpr fun h => absurd h (by decide)

theorem file_stays_in_folder :
    @StaysInFolder openServer plainFolder sampleMd5 sampleLibtorrent .unix "/opt".toList
      SettingsAPiController.openWorld (uploadRequest "a") := by
  have hiff := @staysInFolder_iff openServer plainFolder sampleMd5 sampleLibtorrent _ _ _
    (uploads_uploadRequest "a") "/opt".toList
  exact hiff.mpr fun _ _ _ => ⟨rfl, "a".toList, by decide⟩

/-- A file name with a step up leaves the folder. -/
theorem file_leaves_folder :
    ¬ ∀ (_ : WebServer) (_ : DataFolder) (_ : Md5) (_ : Libtorrent) (p : Platform)
      (applicationDirPath : QString) (w : WebWorld) (path : QByteArray)
      (headers : List (QByteArray × QByteArray)) (body : QByteArray) (request : HttpRequest),
      HttpRequest.received (literal "POST") path headers body = .ok request → Uploads p w request →
      StaysInFolder p applicationDirPath w request := by
  intro h
  have hreceived : HttpRequest.received (literal "POST") (literal "/torrent/upload") formHeaders
      (uploadForm "../x") = .ok (uploadRequest "../x") := by decide +kernel
  have hstays := h openServer plainFolder sampleMd5 sampleLibtorrent .unix "/opt".toList
    SettingsAPiController.openWorld _ _ _ _ hreceived (uploads_uploadRequest "../x")
  have hwritten : @written openServer .unix (uploadRequest "../x") =
      some (uploadedPath "../x".toList) := by decide +kernel
  obtain ⟨file, hinside⟩ := @StaysInFolder.inside openServer plainFolder sampleMd5 sampleLibtorrent _ _
    _ _ hstays _ hwritten
  have hlength := congrArg List.length hinside
  rw [List.length_append, List.length_singleton] at hlength
  revert hlength
  decide +kernel

end UploadController
end CuteTorrent
