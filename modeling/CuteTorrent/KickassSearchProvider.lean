import CuteTorrent.FileViewSortProxyModel
import CuteTorrent.Json
import CuteTorrent.SearchItemsStorrage
import CuteTorrent.SearchPage

/-! `KickassSearchProvider`: the results in a reply that is a JSON text. -/
namespace CuteTorrent
namespace KickassSearchProvider

def Name : QString := "Kickass".toList

def Url : QString := "https://kickass.so".toList

/-- `QVariant::toLongLong`; a `long` of Unix has the same bits as a `long long`. -/
def toLongLong : QVariant → Int
  | .string s => (toLong .unix s).getD 0
  | v => v.toLongLong

/-- What is not told is an empty text or 0. -/
def resultOf (torrentInfo : QVariant) : SearchResult where
  Name := (torrentInfo.member "title".toList).toString
  TorrentFileUrl := (torrentInfo.member "torrentLink".toList).toString
  TorrentDescUrl := (torrentInfo.member "link".toList).toString
  Engine := Name
  leechers := (torrentInfo.member "leechs".toList).toInt
  seeders := (torrentInfo.member "seeds".toList).toInt
  size := toLongLong (torrentInfo.member "size".toList)

section replies
variable [QtDouble]

def replyReady (noError : Bool) (data : QString) : Option (List SearchResult) :=
  if noError then
    match Json.parse data with
    | (json, true) => some ((json.member "list".toList).toList.map resultOf)
    | (_, false) => none
  else none

structure Offers (torrentInfo : QVariant) (r : SearchResult) : Prop where
  title : torrentInfo.member "title".toList = .string r.Name
  torrentLink : torrentInfo.member "torrentLink".toList = .string r.TorrentFileUrl
  link : torrentInfo.member "link".toList = .string r.TorrentDescUrl
  leechs : torrentInfo.member "leechs".toList = .int r.leechers
  seeds : torrentInfo.member "seeds".toList = .int r.seeders
  size : torrentInfo.member "size".toList = .int r.size
  engine : r.Engine = Name
  leechs_range : -2 ^ 31 ≤ r.leechers ∧ r.leechers < 2 ^ 31
  seeds_range : -2 ^ 31 ≤ r.seeders ∧ r.seeders < 2 ^ 31
  size_range : -2 ^ 63 ≤ r.size ∧ r.size < 2 ^ 63

omit [QtDouble] in
theorem Offers.resultOf_eq {torrentInfo : QVariant} {r : SearchResult} (h : Offers torrentInfo r) :
    resultOf torrentInfo = r := by
  have hleechers : wrapInt r.leechers = r.leechers := by
    rw [wrapInt]
    exact Int.bmod_eq_of_le (by have := h.leechs_range; omega) (by have := h.leechs_range; omega)
  have hseeders : wrapInt r.seeders = r.seeders := by
    rw [wrapInt]
    exact Int.bmod_eq_of_le (by have := h.seeds_range; omega) (by have := h.seeds_range; omega)
  rw [resultOf, h.title, h.torrentLink, h.link, h.leechs, h.seeds, h.size, ← h.engine,
    QVariant.toInt, QVariant.toInt, hleechers, hseeders]
  rfl

omit [QtDouble] in
theorem map_resultOf {infos : List QVariant} {results : List SearchResult}
    (h : List.Forall₂ Offers infos results) : infos.map resultOf = results := by
  induction h with
  | nil => rfl
  | cons hinfo _ ih => rw [List.map_cons, hinfo.resultOf_eq, ih]

theorem replyReady_of_parse {data : QString} {json : QVariant} {infos : List QVariant}
    {results : List SearchResult} (hjson : Json.parse data = (json, true))
    (hlist : json.member "list".toList = .list infos) (hoffers : List.Forall₂ Offers infos results) :
    replyReady true data = some results := by
  rw [replyReady, if_pos rfl, hjson]
  dsimp only
  rw [hlist, QVariant.toList, map_resultOf hoffers]

end replies

end KickassSearchProvider
end CuteTorrent
