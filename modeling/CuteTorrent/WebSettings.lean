import CuteTorrent.Json
import CuteTorrent.WebControl

/-! Settings sent to `SettingsAPiController`, with the parser of the source. -/
namespace CuteTorrent
open QApplicationSettings HttpRequestHandler

@[reducible] def sourceJson [QtDouble] (serialize : QVariant → QByteArray) : QtJson :=
  ⟨Json.parse, serialize⟩

namespace SettingsAPiController

section
variable [DataFolder]

structure SetsSettings [Md5] (p : Platform) (w : WebWorld) (request : HttpRequest) : Prop where
  method_eq : equalsLiteral request.method "PUT" = true ∨ equalsLiteral request.method "POST" = true
  accepted : (CheckCreditinals p w.settings request .initial).1 = true

structure ChangesNothing (w : WebWorld) (served : Served) : Prop where
  torrent_eq : Assoc.find torrentGroup served.web.settings = Assoc.find torrentGroup w.settings
  groups_eq : Assoc.find fileFiltering served.web.settings = Assoc.find fileFiltering w.settings
  status_error : 400 ≤ served.response.status

theorem service_of_setsSettings [Md5] [QtHash] [QtJson] {p : Platform} {w : WebWorld}
    {request : HttpRequest} (h : SetsSettings p w request) :
    service p w request .initial = if (QtJson.parse (p.fromCString request.body)).2 then
      let settingsVal := (QtJson.parse (p.fromCString request.body)).1
      ⟨(initSettings w.settings).1, { w with
        settings := saveFilterGropups (writeFields settingsVal (initSettings w.settings).2)
          ((settingsVal.member filteringGroupsKey).toList.map groupOfJson) }, .initial, none⟩
    else
      ⟨(initSettings w.settings).1, { w with settings := (initSettings w.settings).2 },
        (HttpResponse.initial.setStatus 400 "Bad Request").write
          (literal "<BODY><h3>400 Bad Request.</h3></BODY>"), none⟩ := by
  have hget : equalsLiteral request.method "GET" = false := by
    rcases h.method_eq with hm | hm <;> rw [equalsLiteral, decide_eq_true_eq] at hm <;>
      rw [equalsLiteral, hm] <;> decide
  have hput : (equalsLiteral request.method "PUT" || equalsLiteral request.method "POST") = true :=
    Bool.or_eq_true_iff.mpr h.method_eq
  unfold service afterCheck
  rw [checkCreditinals_of_accepted h.accepted]
  dsimp only
  rw [hget, hput, if_neg (by decide), if_neg (by decide), if_pos rfl]

theorem status_of_parsed [Md5] [QtHash] [QtJson] {p : Platform} {w : WebWorld} {request : HttpRequest}
    (h : SetsSettings p w request) (hok : (QtJson.parse (p.fromCString request.body)).2 = true) :
    (service p w request .initial).response.status = 200 := by
  rw [service_of_setsSettings h, if_pos hok, HttpResponse.status_initial]

variable [Md5] [QtHash] [QtDouble] (serialize : QVariant → QByteArray)

end

/-! ### Bodies that are no object -/

@[reducible] def plainDouble : QtDouble := ⟨QVariant.string⟩

def putRequest (body : String) : HttpRequest where
  method := literal "PUT"
  path := literal "/settings/api"
  headers := []
  parameters := []
  uploadedFiles := []
  body := literal body

def openWorld : @WebWorld TorrentManager.plainFolder :=
  letI := TorrentManager.plainFolder
  ⟨TorrentManager.plainWorld [], [], [], [], []⟩

theorem putRequest_setsSettings (body : String) :
    @SetsSettings TorrentManager.plainFolder sampleMd5 .unix openWorld (putRequest body) := by
  let _ := TorrentManager.plainFolder
  let _ := sampleMd5
  refine ⟨.inl ?_, ?_⟩
  · exact decide_eq_true (show cString (literal "PUT") = literal "PUT" by decide)
  · exact (checkCreditinals_iff _ _ _ _).mpr fun h => absurd h (by decide)

end SettingsAPiController
end CuteTorrent
