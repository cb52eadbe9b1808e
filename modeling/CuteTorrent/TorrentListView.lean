import CuteTorrent.RowAccess

/-! `TorrentListView` and `PaginationView`, the list of torrents in the browser:
which pages of `TorrentApiController` they offer. -/
namespace CuteTorrent

structure PaginationView where
  pageCount : Int
  pageActive : Int
deriving DecidableEq

namespace PaginationView

/-- `page_show`, the number of pages in the visible block. -/
def pageShow : Int := 10

def initial : PaginationView := ⟨1, 1⟩

/-- The first and the last page `render` draws; none where it draws nothing. -/
def render (v : PaginationView) : Option (Int × Int) :=
  if v.pageCount > 1 then
    let range := pageShow / 2
    let navBegin := v.pageActive - range
    let navBegin := if pageShow % 2 = 0 then navBegin + 1 else navBegin
    let navEnd := v.pageActive + range
    let (navBegin, navEnd) :=
      if navBegin ≤ 2 then (1, if navBegin = 2 then pageShow + 1 else pageShow)
      else (navBegin, navEnd)
    if navEnd ≥ v.pageCount - 1 then
      let navBegin := if v.pageCount > pageShow then v.pageCount - pageShow + 1 else navBegin
      some (if navEnd = v.pageCount - 1 then navBegin - 1 else navBegin, v.pageCount)
    else some (navBegin, navEnd)
  else none

theorem render_eq_none_iff (v : PaginationView) : v.render = none ↔ v.pageCount ≤ 1 := by
  rw [render]
  dsimp only
  split_ifs
  all_goals simp
  all_goals omega

end PaginationView

namespace TorrentListView

def torrentsCount (response : List QVariant) : Int :=
  match (response.headD .invalid).member "torrentsCount".toList with
  | .int n => n
  | _ => 0

/-- The pager once the first fetch, of page 1, has succeeded. -/
def fetched (response : List QVariant) : PaginationView :=
  { PaginationView.initial with pageCount := torrentsCount response / PaginationView.pageShow }

/-- The number of pages the client offers; it always loads the first. -/
def pagesOffered (v : PaginationView) : Nat := if v.render = none then 1 else v.pageCount.toNat

def pageRequest (page : Nat) : HttpRequest where
  method := literal "GET"
  path := literal "/torrent/api"
  headers := []
  parameters := [(literal "page", Bencode.decimal page), (literal "pageSize", literal "10")]
  uploadedFiles := []
  body := []

theorem asks_pageRequest (p : Platform) {page : Nat} (h : page < 2 ^ 31) :
    TorrentApiController.Asks p (pageRequest page) page 10 := by
  have hget : toUpper (literal "GET") = literal "GET" := by decide
  have hsize : toInt (p.fromCString (literal "10")) = some 10 := by
    cases p <;> decide +kernel
  refine ⟨hget, ?_, hsize⟩
  exact Bencode.toInt_decimal p h

end TorrentListView

namespace TorrentApiController
open TorrentStorrage

def rowJson (s : TorrentStorrage) (it : QString) : QVariant :=
  ((s.value it).map (torrentJson s.count)).getD .invalid

theorem window_eq {s : TorrentStorrage} (h : s.WF) {i left : Nat}
    (hhi : i + left ≤ s.filteredTorrents.length) :
    window s i left = .ok (((s.filteredTorrents.drop i).take left).map (rowJson s)) := by
  induction left generalizing i with
  | zero => simp [window]
  | succ left ih =>
    have hrow : i < s.filteredTorrents.length := by omega
    obtain ⟨t, ht⟩ := h.value_isSome (List.getElem_mem hrow)
    have hat : s.atIndex i = .ok (some s.filteredTorrents[i]) := by
      rw [h.atIndex_eq hrow, List.getElem?_eq_getElem hrow]
    have hrest := ih (i := i + 1) (by omega)
    have hjson : rowJson s s.filteredTorrents[i] = torrentJson s.count t := by
      rw [rowJson, ht]
      rfl
    rw [List.drop_eq_getElem_cons hrow, List.take_succ_cons, List.map_cons, hjson]
    simp only [window, hat, ht, Bind.bind, Except.bind, Pure.pure, Except.pure]
    push_cast at hrest
    rw [hrest]

/-- Page `k + 1` lists the rows from `10 * k` on. -/
theorem page_eq {s : TorrentStorrage} (h : s.WF) {k : Nat} (hk : 10 * k ≤ s.filteredTorrents.length)
    (hlt : 10 * (k + 1) < 2 ^ 31) :
    page s (k + 1 : Nat) 10 =
      .ok (((s.filteredTorrents.drop (10 * k)).take 10).map (rowJson s)) := by
  have hwrap : ∀ n : Int, 0 ≤ n → n < 2 ^ 31 → wrapInt n = n := by
    intro n hlo hhi
    rw [wrapInt, Int.bmod_eq_of_le] <;> omega
  have hfirst : firstIndex (k + 1 : Nat) 10 = (10 * k : Nat) := by
    have hpred : wrapInt ((k + 1 : Nat) - 1) = k := by
      rw [hwrap _ (by omega) (by omega)]
      omega
    rw [firstIndex, hpred, hwrap _ (by omega) (by omega)]
    omega
  have hbound : bound s (k + 1 : Nat) 10 = min s.count (10 * k + 10) := by
    rw [bound, hwrap _ (by omega) (by omega)]
    congr 1
    omega
  have hleft : (min s.count (10 * k + 10) - (10 * k : Nat)).toNat =
      min (s.filteredTorrents.length - 10 * k) 10 := by
    rw [count]
    omega
  have htake : (s.filteredTorrents.drop (10 * k)).take
      (min (s.filteredTorrents.length - 10 * k) 10) = (s.filteredTorrents.drop (10 * k)).take 10 := by
    rw [List.take_eq_take_iff, List.length_drop]
    omega
  rw [page, hfirst, hbound, hleft, window_eq h (by omega), htake]

theorem flatten_pages {α : Type} (l : List α) (pages : Nat) :
    ((List.range pages).map fun k => (l.drop (10 * k)).take 10).flatten = l.take (10 * pages) := by
  induction pages with
  | zero => simp
  | succ pages ih =>
    rw [List.range_succ, List.map_append, List.flatten_append, ih, Nat.mul_succ, List.take_add]
    simp

section
variable [DataFolder] [QtJson]

theorem service_of_asks {p : Platform} {handler : HttpRequestHandler} {w : WebWorld}
    {request : HttpRequest} {iPage iPageSize : Int} (hasks : Asks p request iPage iPageSize)
    {respJson : List QVariant} (hpage : page w.world.storrage iPage iPageSize = .ok respJson)
    (response : HttpResponse) :
    service p handler w request response =
      ⟨handler, w, (response.setHeader "Content-Type" "application/json").write
        (QtJson.serialize (.list respJson)), none⟩ := by
  obtain ⟨hget, hfirst, hsize⟩ := hasks
  have hpos : (p.fromCString (request.getParameter "page")).length > 0 := by
    rw [gt_iff_lt, List.length_pos_iff]
    intro hnil
    have hnone : toInt [] = none := by decide
    rw [hnil, hnone] at hfirst
    exact absurd hfirst (by simp)
  rw [service, if_pos hget]
  simp only [if_pos hpos, hfirst, hsize, hpage]

end

end TorrentApiController

namespace TorrentListView
open TorrentApiController TorrentStorrage
def firstReplies (s : TorrentStorrage) (pages : Nat) : List (List QVariant) :=
  (List.range pages).map fun k => ((s.filteredTorrents.drop (10 * k)).take 10).map (rowJson s)

theorem flatten_firstReplies (s : TorrentStorrage) (pages : Nat) :
    (firstReplies s pages).flatten = (s.filteredTorrents.take (10 * pages)).map (rowJson s) := by
  rw [← flatten_pages, List.map_flatten, List.map_map]
  rfl

theorem pagesOffered_fetched {response : List QVariant} {n : Nat}
    (h : torrentsCount response = n) : pagesOffered (fetched response) = max 1 (n / 10) := by
  have hcount : (fetched response).pageCount = (n / 10 : Nat) := by
    rw [fetched, h]
    rfl
  have hdrawn := PaginationView.render_eq_none_iff (fetched response)
  rw [hcount] at hdrawn
  rw [pagesOffered, hcount]
  split_ifs with hnone
  · have hle := hdrawn.mp hnone
    omega
  · have hgt := mt hdrawn.mpr hnone
    omega

/-- The count the client divides is the one in the first torrent of page 1. -/
theorem torrentsCount_first {s : TorrentStorrage} (h : s.WF) (hone : 1 ≤ s.count) :
    torrentsCount ((s.filteredTorrents.take 10).map (rowJson s)) = s.filteredTorrents.length := by
  have hrow : 0 < s.filteredTorrents.length := by
    rw [count] at hone
    omega
  obtain ⟨it, rest, hrows⟩ := List.exists_cons_of_length_pos hrow
  obtain ⟨t, ht⟩ : ∃ t, s.value it = some t := h.value_isSome (by simp [hrows])
  have hkey : (torrentJson s.count t).member "torrentsCount".toList = .int s.count := rfl
  rw [torrentsCount, hrows, List.take_succ_cons, List.map_cons, List.headD_cons, rowJson, ht,
    Option.map_some, Option.getD_some, hkey, ← hrows]
  rfl

variable [DataFolder] [QtJson]

def Gets (w : WebWorld) (pageNumber : Nat) (respJson : List QVariant) : Prop :=
  page w.world.storrage pageNumber 10 = .ok respJson ∧
    ∀ p handler response, service p handler w (pageRequest pageNumber) response =
      ⟨handler, w, (response.setHeader "Content-Type" "application/json").write
        (QtJson.serialize (.list respJson)), none⟩

def ListsEveryTorrent (w : WebWorld) (pages : Nat) : Prop :=
  ∃ replies : List (List QVariant), replies.length = pages ∧
    (∀ k (hk : k < replies.length), Gets w (k + 1) replies[k]) ∧
    replies.flatten.Perm (w.world.storrage.filteredTorrents.map (rowJson w.world.storrage))

theorem gets_page {w : WebWorld} (h : w.world.storrage.WF) {k : Nat}
    (hk : 10 * k ≤ w.world.storrage.filteredTorrents.length) (hlt : 10 * (k + 1) < 2 ^ 31) :
    Gets w (k + 1)
      (((w.world.storrage.filteredTorrents.drop (10 * k)).take 10).map
        (rowJson w.world.storrage)) := by
  have hpage := page_eq h hk hlt
  refine ⟨hpage, fun p handler response => ?_⟩
  exact service_of_asks (asks_pageRequest p (by omega)) hpage response

theorem lists_iff {w : WebWorld} (h : w.world.storrage.WF) {pages : Nat}
    (hpages : ∀ k < pages, 10 * k ≤ w.world.storrage.filteredTorrents.length)
    (hlt : 10 * pages < 2 ^ 31) :
    ListsEveryTorrent w pages ↔ w.world.storrage.filteredTorrents.length ≤ 10 * pages := by
  have hgets : ∀ k (hk : k < (firstReplies w.world.storrage pages).length),
      Gets w (k + 1) (firstReplies w.world.storrage pages)[k] := by
    intro k hk
    have hk' : k < pages := by simpa [firstReplies] using hk
    simpa [firstReplies] using gets_page h (hpages k hk') (by omega)
  constructor
  · rintro ⟨replies, hlen, hreplies, hperm⟩
    have heq : replies = firstReplies w.world.storrage pages := by
      apply List.ext_getElem
      · simp [firstReplies, hlen]
      · intro k hk hk'
        have hpage := (hreplies k hk).1
        rw [(hgets k hk').1] at hpage
        exact (Except.ok.inj hpage).symm
    have hcard := hperm.length_eq
    rw [heq, flatten_firstReplies, List.length_map, List.length_map, List.length_take] at hcard
    omega
  · intro hle
    refine ⟨firstReplies w.world.storrage pages, by simp [firstReplies], hgets, ?_⟩
    rw [flatten_firstReplies, List.take_of_length_le hle]

theorem gets_first {w : WebWorld} (h : w.world.storrage.WF) :
    Gets w 1 ((w.world.storrage.filteredTorrents.take 10).map (rowJson w.world.storrage)) :=
  gets_page h (k := 0) (Nat.zero_le _) (by decide)

theorem lists_iff_of_gets {w : WebWorld} (h : w.world.storrage.WF)
    (hone : 1 ≤ w.world.storrage.count) (hint : w.world.storrage.count < 2 ^ 31)
    {first : List QVariant} (hfirst : Gets w 1 first) :
    ListsEveryTorrent w (pagesOffered (fetched first)) ↔
      w.world.storrage.count ≤ 10 ∨ w.world.storrage.count % 10 = 0 := by
  have hpage := hfirst.1
  rw [(gets_first h).1] at hpage
  rw [← Except.ok.inj hpage, pagesOffered_fetched (torrentsCount_first h hone)]
  rw [count] at hone hint ⊢
  rw [lists_iff h]
  · omega
  · intro k hk
    omega
  · omega

variable [QtTables] [QtAlgorithms]

/-- In every state the store reaches with a torrent to show, the pages the client
offers list them all exactly when their number is at most ten or a multiple of
ten. -/
theorem lists_every_torrent_iff {w : WebWorld} (hreach : w.world.storrage.Reached)
    (hone : 1 ≤ w.world.storrage.count) (hint : w.world.storrage.count < 2 ^ 31) :
    ∃ first, Gets w 1 first ∧ (ListsEveryTorrent w (pagesOffered (fetched first)) ↔
      w.world.storrage.count ≤ 10 ∨ w.world.storrage.count % 10 = 0) :=
  ⟨_, gets_first hreach.wf, lists_iff_of_gets hreach.wf hone hint (gets_first hreach.wf)⟩

end TorrentListView

/-! ### Twenty torrents and eleven -/

def showingTorrents (n : Nat) : @WebWorld TorrentManager.plainFolder :=
  letI := TorrentManager.plainFolder
  { lockedWorld with
    world := { lockedWorld.world with
      storrage := (List.range n).foldl (fun s i => s.append (TorrentStorrage.torrentNumber i .initial)) (.initial .none) } }

namespace TorrentListView
open TorrentManager TorrentStorrage

theorem showingTorrents_reached (n : Nat) : @Reached asciiCase insertionSorting
    (@World.storrage plainFolder (@WebWorld.world plainFolder (showingTorrents n))) := by
  refine ⟨.none, (List.range n).map fun i => .refresh (.append (torrentNumber i .initial)), ?_⟩
  rw [Runs.final, List.foldl_map]
  rfl

theorem lists_twenty_torrents : ∃ first, @Gets plainFolder plainJson (showingTorrents 20) 1 first ∧
    @ListsEveryTorrent plainFolder plainJson (showingTorrents 20) (pagesOffered (fetched first)) := by
  have hcount : @count (@World.storrage plainFolder
      (@WebWorld.world plainFolder (showingTorrents 20))) = 20 := by decide +kernel
  obtain ⟨first, hfirst, hlists⟩ := @lists_every_torrent_iff plainFolder plainJson asciiCase
    insertionSorting (showingTorrents 20) (showingTorrents_reached 20) (by rw [hcount]; decide)
    (by rw [hcount]; decide)
  rw [hcount] at hlists
  exact ⟨first, hfirst, hlists.mpr (.inr (by decide))⟩

/-- Of eleven torrents the one page that is offered shows ten. -/
theorem eleventh_torrent_missing :
    ¬ ∀ (_ : DataFolder) (_ : QtJson) (_ : QtTables) (_ : QtAlgorithms) (w : WebWorld),
      w.world.storrage.Reached → 1 ≤ w.world.storrage.count → w.world.storrage.count < 2 ^ 31 →
      ∃ first, Gets w 1 first ∧ ListsEveryTorrent w (pagesOffered (fetched first)) := by
  intro h
  have hone : 1 ≤ @count (@World.storrage plainFolder
      (@WebWorld.world plainFolder (showingTorrents 11))) := by decide +kernel
  have hint : @count (@World.storrage plainFolder
      (@WebWorld.world plainFolder (showingTorrents 11))) < 2 ^ 31 := by decide +kernel
  have hreach := showingTorrents_reached 11
  obtain ⟨first, hfirst, hlists⟩ := h plainFolder plainJson asciiCase insertionSorting
    (showingTorrents 11) hreach hone hint
  have hcount := (@lists_iff_of_gets plainFolder plainJson _
    (@Reached.wf asciiCase insertionSorting _ hreach) hone hint _ hfirst).mp hlists
  revert hcount
  decide +kernel

end TorrentListView
end CuteTorrent
