import CuteTorrent.DisplayModel
import CuteTorrent.StorrageRuns
import CuteTorrent.WebControl

/-! Access to the rows of the view by index: `TorrentStorrage::at` and its two
callers, the list view and the web control. -/
namespace CuteTorrent
namespace TorrentStorrage
variable {s : TorrentStorrage}

def AtsRow (s : TorrentStorrage) (index : Int) : Prop :=
  s.atIndex index =
    .ok (if 0 ≤ index ∧ index < s.count then s.filteredTorrents[index.toNat]? else none)

instance (s : TorrentStorrage) (index : Int) : Decidable (s.AtsRow index) :=
  inferInstanceAs (Decidable (_ = _))

/-- The index is neither negative nor among those the map has more than the view. -/
def RowOrBeyond (s : TorrentStorrage) (index : Int) : Prop :=
  0 ≤ index ∧ (index < s.count ∨ (s.torrentsMap.length : Int) ≤ index)

instance (s : TorrentStorrage) (index : Int) : Decidable (s.RowOrBeyond index) :=
  inferInstanceAs (Decidable (_ ∧ _))

theorem atIndex_of_neg {index : Int} (h : index < 0) : s.atIndex index = .error .indexOutOfRange := by
  have hlt : index < s.torrentsMap.length := by omega
  rw [atIndex, if_pos hlt, if_neg (by omega)]

theorem atIndex_of_shown (h : s.WF) {index : Int} (hlo : 0 ≤ index) (hhi : index < s.count) :
    s.atIndex index = .ok s.filteredTorrents[index.toNat]? := by
  have hrow : index.toNat < s.filteredTorrents.length := by
    rw [count] at hhi
    omega
  have hat := h.atIndex_eq hrow
  rwa [Int.toNat_of_nonneg hlo] at hat

theorem atIndex_of_hidden {index : Int} (hlo : s.count ≤ index)
    (hhi : index < s.torrentsMap.length) : s.atIndex index = .error .indexOutOfRange := by
  have hnone : s.filteredTorrents[index.toNat]? = none := by
    rw [List.getElem?_eq_none_iff]
    rw [count] at hlo
    omega
  rw [atIndex, if_pos hhi, hnone]
  split_ifs <;> rfl

theorem atIndex_of_beyond {index : Int} (h : (s.torrentsMap.length : Int) ≤ index) :
    s.atIndex index = .ok none := by
  rw [atIndex, if_neg (by omega)]

theorem WF.count_le (h : s.WF) : s.count ≤ s.torrentsMap.length := by
  have hlen := h.length_filtered_le
  rw [count]
  omega

theorem atsRow_iff (h : s.WF) (index : Int) : s.AtsRow index ↔ s.RowOrBeyond index := by
  have hle := h.count_le
  rw [AtsRow, RowOrBeyond]
  by_cases hneg : index < 0
  · rw [atIndex_of_neg hneg]
    simp [hneg]
  · have hlo : 0 ≤ index := by omega
    by_cases hshown : index < s.count
    · rw [atIndex_of_shown h hlo hshown]
      simp [hlo, hshown]
    · by_cases hhidden : index < s.torrentsMap.length
      · rw [atIndex_of_hidden (by omega) hhidden]
        simp [hshown, hhidden]
      · rw [atIndex_of_beyond (by omega)]
        simp only [hshown, and_false, if_false, hlo, true_and, false_or, true_iff]
        omega

theorem exists_shown (h : s.WF) {index : Int} (hlo : 0 ≤ index) (hhi : index < s.count) :
    ∃ it t, s.atIndex index = .ok (some it) ∧ s.value it = some t := by
  have hrow : index.toNat < s.filteredTorrents.length := by
    rw [count] at hhi
    omega
  obtain ⟨t, ht⟩ := h.value_isSome (List.getElem_mem hrow)
  refine ⟨s.filteredTorrents[index.toNat], t, ?_, ht⟩
  rw [atIndex_of_shown h hlo hhi, List.getElem?_eq_getElem hrow]

end TorrentStorrage

namespace DisplayModel
open TorrentStorrage

/-- `removeRow` goes wrong on the row behind the last one, and only there. -/
theorem removeRow_ok_iff {m : DisplayModel} (h : m.torrents.WF) (row : Int) (delFiles : Bool) :
    (∃ r, m.removeRow row delFiles = .ok r) ↔ row ≠ m.torrents.count ∨ m.torrents.count = 0 := by
  by_cases hout : row > m.torrents.count ∨ row < 0
  · rw [removeRow, if_pos hout]
    refine iff_of_true ⟨_, rfl⟩ (.inl ?_)
    have hcount : 0 ≤ m.torrents.count := Int.natCast_nonneg _
    omega
  · by_cases hempty : m.torrents.count = 0
    · rw [removeRow, if_neg hout, rowCount, if_pos hempty]
      exact iff_of_true ⟨_, rfl⟩ (.inr hempty)
    · rw [removeRow, if_neg hout, rowCount, if_neg hempty]
      by_cases hlast : row = m.torrents.count
      · refine iff_of_false ?_ (by omega)
        rintro ⟨r, hr⟩
        by_cases hhidden : row < m.torrents.torrentsMap.length
        · rw [atIndex_of_hidden (by omega) hhidden] at hr
          exact absurd hr (by simp [Bind.bind, Except.bind])
        · rw [atIndex_of_beyond (by omega)] at hr
          exact absurd hr (by simp [Bind.bind, Except.bind])
      · refine iff_of_true ?_ (.inl hlast)
        obtain ⟨it, t, hat, ht⟩ := exists_shown h (show 0 ≤ row by omega) (by omega)
        rw [hat]
        simp only [Bind.bind, Except.bind]
        split_ifs <;> simp [ht, Pure.pure, Except.pure]

end DisplayModel

namespace TorrentApiController
open TorrentStorrage

theorem window_ok {s : TorrentStorrage} (h : s.WF) {i : Int} {left : Nat} (hlo : 0 ≤ i)
    (hhi : i + left ≤ s.count) : ∃ respJson, window s i left = .ok respJson := by
  induction left generalizing i with
  | zero => exact ⟨[], rfl⟩
  | succ left ih =>
    obtain ⟨it, t, hat, ht⟩ := exists_shown h hlo (by omega)
    obtain ⟨respJson, hrest⟩ := ih (i := i + 1) (by omega) (by omega)
    refine ⟨torrentJson s.count t :: respJson, ?_⟩
    simp only [window, hat, ht, hrest, Bind.bind, Except.bind, Pure.pure, Except.pure]

/-- The window is read to its end exactly when it does not begin below the first
row, or is empty. -/
theorem page_ok_iff {s : TorrentStorrage} (h : s.WF) (iPage iPageSize : Int) :
    (∃ respJson, page s iPage iPageSize = .ok respJson) ↔
      0 ≤ firstIndex iPage iPageSize ∨ bound s iPage iPageSize ≤ firstIndex iPage iPageSize := by
  have hbound : bound s iPage iPageSize ≤ s.count := min_le_left _ _
  rw [page]
  generalize firstIndex iPage iPageSize = i
  generalize bound s iPage iPageSize = stop at hbound ⊢
  by_cases hempty : stop ≤ i
  · have hnone : (stop - i).toNat = 0 := by omega
    rw [hnone]
    exact iff_of_true ⟨[], rfl⟩ (.inr hempty)
  · by_cases hlo : 0 ≤ i
    · refine iff_of_true (window_ok h hlo ?_) (.inl hlo)
      omega
    · refine iff_of_false ?_ (by omega)
      intro ⟨respJson, hr⟩
      obtain ⟨left, hleft⟩ : ∃ left, (stop - i).toNat = left + 1 :=
        ⟨(stop - i).toNat - 1, by omega⟩
      rw [hleft, window, atIndex_of_neg (by omega)] at hr
      exact absurd hr (by simp [Bind.bind, Except.bind])

def Asks (p : Platform) (request : HttpRequest) (iPage iPageSize : Int) : Prop :=
  toUpper request.method = literal "GET" ∧
    toInt (p.fromCString (request.getParameter "page")) = some iPage ∧
    toInt (p.fromCString (request.getParameter "pageSize")) = some iPageSize

instance (p : Platform) (request : HttpRequest) (iPage iPageSize : Int) :
    Decidable (Asks p request iPage iPageSize) :=
  inferInstanceAs (Decidable (_ ∧ _))

section
variable [DataFolder] [QtJson]

theorem service_fault_iff (p : Platform) (handler : HttpRequestHandler) (w : WebWorld)
    (request : HttpRequest) (response : HttpResponse) :
    (service p handler w request response).fault = none ↔
      ∀ iPage iPageSize, Asks p request iPage iPageSize →
        ∃ respJson, page w.world.storrage iPage iPageSize = .ok respJson := by
  have hnil : toInt [] = none := rfl
  rw [service]
  dsimp only
  split_ifs with hget hpage
  · cases hfirst : toInt (p.fromCString (request.getParameter "page")) with
    | none => simp [Asks, hfirst]
    | some iPage =>
      cases hsize : toInt (p.fromCString (request.getParameter "pageSize")) with
      | none => simp [Asks, hsize]
      | some iPageSize =>
        cases hjson : page w.world.storrage iPage iPageSize with
        | error f => simp [Asks, hget, hfirst, hsize, hjson]
        | ok respJson => simp [Asks, hget, hfirst, hsize, hjson]
  · have hempty : p.fromCString (request.getParameter "page") = [] :=
      List.length_eq_zero_iff.mp (by omega)
    simp [Asks, hempty, hnil]
  · simp [Asks, hget]

variable [QtTables] [QtAlgorithms]

/-- In every state the store reaches: which indexes `at` answers for, which rows
`removeRow` takes, and which pages of the list are served without a fault. -/
theorem rows_safe_iff {w : WebWorld} (hreach : w.world.storrage.Reached) {m : DisplayModel}
    (hview : m.torrents = w.world.storrage) (index row : Int) (delFiles : Bool) (p : Platform)
    (handler : HttpRequestHandler) (request : HttpRequest) (response : HttpResponse) :
    (w.world.storrage.AtsRow index ↔ w.world.storrage.RowOrBeyond index) ∧
    ((∃ r, m.removeRow row delFiles = .ok r) ↔
      row ≠ w.world.storrage.count ∨ w.world.storrage.count = 0) ∧
    ((service p handler w request response).fault = none ↔
      ∀ iPage iPageSize, Asks p request iPage iPageSize →
        0 ≤ firstIndex iPage iPageSize ∨
          bound w.world.storrage iPage iPageSize ≤ firstIndex iPage iPageSize) := by
  have hwf := hreach.wf
  refine ⟨atsRow_iff hwf index, ?_, ?_⟩
  · rw [← hview]
    exact DisplayModel.removeRow_ok_iff (hview ▸ hwf) row delFiles
  · rw [service_fault_iff]
    simp only [page_ok_iff hwf]

end

/-! ### Three torrents, of which one is shown -/

/-- Only the second torrent transfers something. -/
def activeOfThree : TorrentStorrage :=
  let _ := asciiCase
  (((TorrentStorrage.initial .none).append (torrentNumber 0 .initial)).append
    (torrentNumber 1 ⟨.downloading, 4096, 0, 0⟩)).append (torrentNumber 2 .initial)
      |>.setTorrentFilter .active

theorem activeOfThree_reached : @Reached asciiCase insertionSorting activeOfThree :=
  ⟨.none, [.refresh (.append (torrentNumber 0 .initial)),
    .refresh (.append (torrentNumber 1 ⟨.downloading, 4096, 0, 0⟩)),
    .refresh (.append (torrentNumber 2 .initial)), .refresh (.setTorrentFilter .active)], rfl⟩

def activeView : DisplayModel := ⟨activeOfThree, none, 0, [], List.nodup_nil⟩

def activeWorld : @WebWorld TorrentManager.plainFolder :=
  letI := TorrentManager.plainFolder
  { lockedWorld with world := { lockedWorld.world with storrage := activeOfThree } }

/-- Pages are counted from one; page 0 begins ten rows before the first. -/
def pageZeroRequest : HttpRequest :=
  { listRequest with parameters := [(literal "page", literal "0"), (literal "pageSize", literal "10")] }

theorem asks_listRequest : Asks .unix listRequest 1 10 := by decide +kernel

theorem asks_pageZeroRequest : Asks .unix pageZeroRequest 0 10 := by decide +kernel

theorem Asks.unique {p : Platform} {request : HttpRequest} {iPage iPage' iPageSize iPageSize' : Int}
    (h : Asks p request iPage iPageSize) (h' : Asks p request iPage' iPageSize') :
    iPage' = iPage ∧ iPageSize' = iPageSize :=
  ⟨Option.some.inj (h'.2.1.symm.trans h.2.1), Option.some.inj (h'.2.2.symm.trans h.2.2)⟩

/-- The shown row, the first page and an index beyond the map are safe; the row behind the
shown one, which only the map has, and page 0 are not. -/
theorem shown_row_safe :
    (activeOfThree.AtsRow 0 ∧ (∃ r, activeView.removeRow 0 true = .ok r) ∧
      @Served.fault TorrentManager.plainFolder (@service TorrentManager.plainFolder plainJson .unix
        ⟨true, ⟨[], []⟩⟩ activeWorld listRequest .initial) = none) ∧
    activeOfThree.AtsRow 3 ∧ (∃ r, activeView.removeRow 2 true = .ok r) ∧
    ¬ activeOfThree.AtsRow 1 ∧ (¬ ∃ r, activeView.removeRow 1 true = .ok r) ∧
      @Served.fault TorrentManager.plainFolder (@service TorrentManager.plainFolder plainJson .unix
        ⟨true, ⟨[], []⟩⟩ activeWorld pageZeroRequest .initial) ≠ none := by
  have hsafe := @rows_safe_iff TorrentManager.plainFolder plainJson asciiCase insertionSorting activeWorld
    activeOfThree_reached activeView rfl
  obtain ⟨hat, hremove, hserve⟩ := hsafe 0 0 true .unix ⟨true, ⟨[], []⟩⟩ listRequest .initial
  obtain ⟨hbeyond, hout, -⟩ := hsafe 3 2 true .unix ⟨true, ⟨[], []⟩⟩ listRequest .initial
  obtain ⟨hhidden, hlast, hzero⟩ := hsafe 1 1 true .unix ⟨true, ⟨[], []⟩⟩ pageZeroRequest .initial
  refine ⟨⟨hat.mpr (by decide +kernel), hremove.mpr (by decide +kernel), hserve.mpr ?_⟩,
    hbeyond.mpr (by decide +kernel), hout.mpr (by decide +kernel),
    mt hhidden.mp (by decide +kernel), mt hlast.mp (by decide +kernel), fun hfault => ?_⟩
  · intro iPage iPageSize hasks
    obtain ⟨rfl, rfl⟩ := asks_listRequest.unique hasks
    exact .inl (by decide)
  · have hfirst := hzero.mp hfault 0 10 asks_pageZeroRequest
    revert hfirst
    decide +kernel

theorem hidden_row_read :
    ¬ ∀ (_ : DataFolder) (_ : QtJson) (_ : QtTables) (_ : QtAlgorithms) (w : WebWorld)
      (m : DisplayModel), w.world.storrage.Reached → m.torrents = w.world.storrage →
      ∀ (index row : Int) (delFiles : Bool) (p : Platform) (handler : HttpRequestHandler)
        (request : HttpRequest) (response : HttpResponse), w.world.storrage.AtsRow index ∧
        (∃ r, m.removeRow row delFiles = .ok r) ∧
        (service p handler w request response).fault = none := by
  intro h
  have hat := (h TorrentManager.plainFolder plainJson asciiCase insertionSorting activeWorld
    activeView activeOfThree_reached rfl 1 1 true .unix ⟨true, ⟨[], []⟩⟩ pageZeroRequest .initial).1
  revert hat
  decide +kernel

end TorrentApiController
end CuteTorrent
