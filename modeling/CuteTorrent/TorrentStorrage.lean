import Mathlib.Data.List.Perm.Basic
import CuteTorrent.Library.Assoc
import CuteTorrent.Library.Runs
import CuteTorrent.Torrent

/-! `TorrentStorrage`: the map of torrents by info hash, the list in order of
addition and the filtered list the view shows. -/
namespace CuteTorrent

/-- Qt's Unicode tables, as far as `Qt::CaseInsensitive` reads them. -/
class QtTables where
  caseFold : Char → Char

inductive FilterType where
  | group
  | search
  | rssFeed
  | torrent
  | none
deriving DecidableEq, Repr

inductive TorrentFilterType where
  | active
  | notActive
  | seeding
  | downloading
  | completed
  | none
deriving DecidableEq, Repr

/-- `QString::compare(other, Qt::CaseInsensitive) == 0` -/
def equalsCaseInsensitive [QtTables] (s t : QString) : Bool :=
  decide (s.map QtTables.caseFold = t.map QtTables.caseFold)

/-- `torrents` and `filteredTorrents` hold iterators of the map; an iterator is
named by its key. -/
structure TorrentStorrage where
  torrentsMap : List (QString × Torrent)
  torrents : List QString
  filteredTorrents : List QString
  filterType : FilterType
  torrentFilter : TorrentFilterType
  groupFilter : QString
deriving DecidableEq

namespace TorrentStorrage

/-- `it.value()`, when the iterator still denotes an entry. -/
def value (s : TorrentStorrage) (it : QString) : Option Torrent := Assoc.find it s.torrentsMap

def hasTorrent (s : TorrentStorrage) (infoHash : QString) : Bool :=
  Assoc.contains infoHash s.torrentsMap

def count (s : TorrentStorrage) : Int := s.filteredTorrents.length

theorem row_in_range (s : TorrentStorrage) {row : Nat} (h : row < s.filteredTorrents.length) :
    ¬ ((row : Int) > s.count ∨ (row : Int) < 0) ∧ ¬ s.count = 0 := by
  rw [count]
  omega

/-- The bound is the size of the map, not of the list that is read. -/
def atIndex (s : TorrentStorrage) (index : Int) : Except Fault (Option QString) :=
  if index < s.torrentsMap.length then
    if 0 ≤ index then
      match s.filteredTorrents[index.toNat]? with
      | some it => .ok (some it)
      | none => .error .indexOutOfRange
    else .error .indexOutOfRange
  else .ok none

def showsAppended (filter : TorrentFilterType) (t : Torrent) : Bool :=
  match filter with
  | .active => t.isActive
  | .downloading => t.isDownloading
  | .seeding => t.isSeeding
  | .completed => decide (t.getProgress = 100)
  | .notActive | .none => true

def append (s : TorrentStorrage) (t : Torrent) : TorrentStorrage :=
  let infoHash := t.getInfoHash
  if s.hasTorrent infoHash then s
  else
    { s with
      torrentsMap := Assoc.insert infoHash t s.torrentsMap
      torrents := s.torrents ++ [infoHash]
      filteredTorrents :=
        if showsAppended s.torrentFilter t then s.filteredTorrents ++ [infoHash]
        else s.filteredTorrents }

/-- `v.remove(v.lastIndexOf(it))`, when there is one. -/
def removeLast (it : QString) (v : List QString) : List QString := (v.reverse.erase it).reverse

def remove (s : TorrentStorrage) (infoHash : QString) : TorrentStorrage :=
  if s.hasTorrent infoHash then
    let kept :=
      if infoHash ∈ s.torrents then
        { s with
          torrents := s.torrents.erase infoHash
          torrentsMap := Assoc.erase infoHash s.torrentsMap }
      else s
    { kept with filteredTorrents := removeLast infoHash s.filteredTorrents }
  else s

/-- The constructor leaves `filterType` as it finds it. -/
def initial (filterType : FilterType) : TorrentStorrage := ⟨[], [], [], filterType, .none, []⟩

/-- A change outside the store: new rates, a new group, or a handle that its
session has given up. -/
def changeTorrent (s : TorrentStorrage) (it : QString) (isValid : Bool) (status : TorrentStatus)
    (isSeed : Bool) (group : QString) : TorrentStorrage :=
  { s with
    torrentsMap := Assoc.modify it
      (fun t => ⟨⟨t.handle.isValid && isValid, t.handle.hash, status, isSeed⟩, group⟩)
      s.torrentsMap }

/-- The lists hold the iterators of the map, each once, and a torrent with a
valid handle is filed under its own hash. -/
structure WF (s : TorrentStorrage) : Prop where
  keys_nodup : (Assoc.keys s.torrentsMap).Nodup
  torrents_perm : s.torrents.Perm (Assoc.keys s.torrentsMap)
  filtered_nodup : s.filteredTorrents.Nodup
  filtered_subset : ∀ it ∈ s.filteredTorrents, it ∈ s.torrents
  keyed : ∀ it t, s.value it = some t → t.handle.isValid = true → t.getInfoHash = it

def Shows (s : TorrentStorrage) (row : Nat) (it : QString) : Prop :=
  s.filteredTorrents[row]? = some it ∧ ∃ t, s.value it = some t ∧ t.handle.isValid = true

namespace WF
variable {s : TorrentStorrage}

theorem torrents_nodup (h : s.WF) : s.torrents.Nodup := h.torrents_perm.nodup_iff.mpr h.keys_nodup

theorem hasTorrent_iff (h : s.WF) (it : QString) : s.hasTorrent it = true ↔ it ∈ s.torrents := by
  rw [hasTorrent, Assoc.contains_iff, h.torrents_perm.mem_iff]

theorem value_isSome (h : s.WF) {it : QString} (hit : it ∈ s.filteredTorrents) :
    ∃ t, s.value it = some t := by
  have hkey : it ∈ Assoc.keys s.torrentsMap := h.torrents_perm.mem_iff.mp (h.filtered_subset it hit)
  exact Option.isSome_iff_exists.mp ((Assoc.find_isSome it _).mpr hkey)

theorem length_filtered_le (h : s.WF) : s.filteredTorrents.length ≤ s.torrentsMap.length := by
  have hsub : s.filteredTorrents.length ≤ s.torrents.length :=
    (List.subperm_of_subset h.filtered_nodup h.filtered_subset).length_le
  have hlen := h.torrents_perm.length_eq
  rw [Assoc.length_keys] at hlen
  omega

theorem atIndex_eq (h : s.WF) {row : Nat} (hrow : row < s.filteredTorrents.length) :
    s.atIndex row = .ok s.filteredTorrents[row]? := by
  have hlen := h.length_filtered_le
  have hlt : (row : Int) < s.torrentsMap.length := by omega
  simp [atIndex, hlt, hrow]

theorem shows_hash (h : s.WF) {row : Nat} {it : QString} (hs : s.Shows row it) :
    ∃ t, s.value it = some t ∧ t.handle.infoHash.hex = it := by
  obtain ⟨-, t, ht, hv⟩ := hs
  have hkey := h.keyed it t ht hv
  rw [Torrent.getInfoHash, if_pos hv] at hkey
  exact ⟨t, ht, hkey⟩

end WF

theorem removeLast_eq_erase {v : List QString} (h : v.Nodup) (it : QString) :
    removeLast it v = v.erase it := by
  have hr : v.reverse.Nodup := List.nodup_reverse.mpr h
  rw [removeLast, hr.erase_eq_filter, h.erase_eq_filter, List.filter_reverse, List.reverse_reverse]

theorem remove_eq {s : TorrentStorrage} (h : s.WF) (it : QString) :
    s.remove it = { s with
      torrentsMap := Assoc.erase it s.torrentsMap
      torrents := s.torrents.erase it
      filteredTorrents := s.filteredTorrents.erase it } := by
  by_cases hit : it ∈ s.torrents
  · have hhas : s.hasTorrent it = true := (h.hasTorrent_iff it).mpr hit
    simp only [remove, hhas, if_true, if_pos hit, removeLast_eq_erase h.filtered_nodup]
  · have hhas : s.hasTorrent it ≠ true := fun hc => hit ((h.hasTorrent_iff it).mp hc)
    have hview : it ∉ s.filteredTorrents := fun hc => hit (h.filtered_subset it hc)
    have hkey : it ∉ Assoc.keys s.torrentsMap := fun hc => hit (h.torrents_perm.mem_iff.mpr hc)
    rw [remove, if_neg hhas, Assoc.erase_of_not_mem hkey, List.erase_of_not_mem hit,
      List.erase_of_not_mem hview]

/-- A removal moves only the rows below the removed one. -/
theorem remove_above {s : TorrentStorrage} (h : s.WF) {row j : Nat} {it : QString}
    (hrow : s.filteredTorrents[row]? = some it) (hj : j < row) :
    (s.remove it).filteredTorrents[j]? = s.filteredTorrents[j]? := by
  obtain ⟨hlt, hget⟩ := List.getElem?_eq_some_iff.mp hrow
  have hidx : s.filteredTorrents.idxOf it = row := by
    rw [← hget]
    exact h.filtered_nodup.idxOf_getElem row hlt
  have herase : s.filteredTorrents.erase it = s.filteredTorrents.eraseIdx row := by
    rw [List.erase_eq_eraseIdx_of_idxOf hidx]
  rw [remove_eq h, herase, List.getElem?_eraseIdx_of_lt hj]

theorem initial_wf (filterType : FilterType) : (initial filterType).WF := by
  refine ⟨?_, ?_, ?_, ?_, ?_⟩
  all_goals simp [initial, value]

theorem append_wf {s : TorrentStorrage} (h : s.WF) (t : Torrent) : (s.append t).WF := by
  by_cases hhas : s.hasTorrent t.getInfoHash = true
  · simpa only [append, if_pos hhas] using h
  · have hnew : t.getInfoHash ∉ s.torrents := fun hc => hhas ((h.hasTorrent_iff _).mpr hc)
    have hkey : t.getInfoHash ∉ Assoc.keys s.torrentsMap := fun hc =>
      hnew (h.torrents_perm.mem_iff.mpr hc)
    have hview : t.getInfoHash ∉ s.filteredTorrents := fun hc => hnew (h.filtered_subset _ hc)
    have hperm := Assoc.keys_insert_perm hkey t
    simp only [append, if_neg hhas]
    refine ⟨?_, ?_, ?_, ?_, ?_⟩
    · exact hperm.nodup_iff.mpr (List.nodup_cons.mpr ⟨hkey, h.keys_nodup⟩)
    · apply List.Perm.trans _ hperm.symm
      exact List.perm_append_comm.trans (h.torrents_perm.cons _)
    · split_ifs
      · apply List.Nodup.append h.filtered_nodup (List.nodup_singleton _)
        simpa using hview
      · exact h.filtered_nodup
    · intro it hit
      split_ifs at hit
      · cases List.mem_append.mp hit with
        | inl hit => exact List.mem_append_left _ (h.filtered_subset it hit)
        | inr hit => exact List.mem_append_right _ hit
      · exact List.mem_append_left _ (h.filtered_subset it hit)
    · intro it u hu hv
      simp only [value, Assoc.find_insert] at hu
      split_ifs at hu with hit
      · rw [hit, ← Option.some.inj hu]
      · exact h.keyed it u hu hv

theorem hasTorrent_append (s : TorrentStorrage) (t : Torrent) (it : QString) :
    (s.append t).hasTorrent it = true ↔ it = t.getInfoHash ∨ s.hasTorrent it = true := by
  by_cases hhas : s.hasTorrent t.getInfoHash = true
  · simp only [append, if_pos hhas]
    constructor
    · exact Or.inr
    · rintro (rfl | h)
      · exact hhas
      · exact h
  · simp only [append, if_neg hhas]
    simp only [hasTorrent, Assoc.contains_iff, Assoc.mem_keys_insert]

theorem value_append_self {s : TorrentStorrage} {t : Torrent} (h : s.hasTorrent t.getInfoHash ≠ true) :
    (s.append t).value t.getInfoHash = some t := by
  simp only [append, if_neg h]
  exact Assoc.find_insert_self _ _ _

theorem remove_wf {s : TorrentStorrage} (h : s.WF) (it : QString) : (s.remove it).WF := by
  rw [remove_eq h]
  refine ⟨?_, ?_, ?_, ?_, ?_⟩
  · rw [Assoc.keys_erase]
    exact h.keys_nodup.filter _
  · have hfilter := h.torrents_perm.filter fun j => decide (j ≠ it)
    have hne : (fun j => j != it) = fun j => decide (j ≠ it) := by
      funext j
      rw [bne, beq_eq_decide, ← decide_not]
    rw [Assoc.keys_erase, h.torrents_nodup.erase_eq_filter, hne]
    exact hfilter
  · exact h.filtered_nodup.erase it
  · intro j hj
    have hj' := (h.filtered_nodup.mem_erase_iff).mp hj
    exact (h.torrents_nodup.mem_erase_iff).mpr ⟨hj'.1, h.filtered_subset j hj'.2⟩
  · intro j u hu hv
    simp only [value, Assoc.find_erase] at hu
    split_ifs at hu
    exact h.keyed j u hu hv

theorem hasTorrent_remove {s : TorrentStorrage} (h : s.WF) (it j : QString) :
    (s.remove it).hasTorrent j = true ↔ s.hasTorrent j = true ∧ j ≠ it := by
  simp only [remove_eq h, hasTorrent, Assoc.contains_iff, Assoc.mem_keys_erase]

theorem changeTorrent_wf {s : TorrentStorrage} (h : s.WF) (it : QString) (isValid : Bool)
    (status : TorrentStatus) (isSeed : Bool) (group : QString) :
    (s.changeTorrent it isValid status isSeed group).WF := by
  refine ⟨?_, ?_, h.filtered_nodup, h.filtered_subset, ?_⟩
  · simpa [changeTorrent] using h.keys_nodup
  · simpa [changeTorrent] using h.torrents_perm
  · intro j u hu hv
    simp only [value, changeTorrent, Assoc.find_modify] at hu
    split_ifs at hu with hj
    · obtain ⟨t, ht, rfl⟩ := Option.map_eq_some_iff.mp hu
      have hvt : t.handle.isValid = true := (Bool.and_eq_true_iff.mp hv).1
      have hkey := h.keyed j t ht hvt
      simp only [Torrent.getInfoHash, TorrentHandle.infoHash, hvt, if_true] at hkey hv ⊢
      simpa [hv] using hkey
    · exact h.keyed j u hu hv

section filters
variable [QtTables]

def filterByGroup (s : TorrentStorrage) : List QString :=
  if s.groupFilter = [] then s.torrents
  else s.torrents.filter fun it =>
    (s.value it).any fun t => equalsCaseInsensitive t.group s.groupFilter

def showsFiltered (filter : TorrentFilterType) (t : Torrent) : Bool :=
  match filter with
  | .active => t.isActive
  | .notActive => t.uploadSpeedIsEmpty && t.dwonloadSpeedIsEmpty
  | .downloading => t.isDownloading
  | .seeding => t.isSeeding
  | .completed => decide (t.getProgress = 100)
  | .none => true

def filterData (s : TorrentStorrage) : TorrentStorrage :=
  { s with
    filteredTorrents :=
      match s.filterType with
      | .group => s.filterByGroup
      | .torrent =>
        if s.torrentFilter = .none then s.torrents
        else s.torrents.filter fun it => (s.value it).any (showsFiltered s.torrentFilter)
      | .search | .rssFeed | .none => s.torrents }

def setTorrentFilter (s : TorrentStorrage) (filter : TorrentFilterType) : TorrentStorrage :=
  { s with filterType := .torrent, torrentFilter := filter, groupFilter := [] }.filterData

def setGroupFilter (s : TorrentStorrage) (filter : QString) : TorrentStorrage :=
  { s with filterType := .group, groupFilter := filter }.filterData

/-- What may happen to the store between two steps of its users. -/
inductive Refresh where
  | filterData
  | append (t : Torrent)
  | remove (infoHash : QString)
  | setTorrentFilter (filter : TorrentFilterType)
  | setGroupFilter (filter : QString)
  | changeTorrent (it : QString) (isValid : Bool) (status : TorrentStatus) (isSeed : Bool)
      (group : QString)

def refresh (s : TorrentStorrage) : Refresh → TorrentStorrage
  | .filterData => s.filterData
  | .append t => s.append t
  | .remove infoHash => s.remove infoHash
  | .setTorrentFilter filter => s.setTorrentFilter filter
  | .setGroupFilter filter => s.setGroupFilter filter
  | .changeTorrent it isValid status isSeed group => s.changeTorrent it isValid status isSeed group

def Reachable (s : TorrentStorrage) : Prop :=
  ∃ filterType rs, s = Runs.final refresh (initial filterType) rs

theorem filterData_filtered_sublist (s : TorrentStorrage) :
    s.filterData.filteredTorrents.Sublist s.torrents := by
  simp only [filterData, filterByGroup]
  cases s.filterType with
  | group =>
    simp only
    split_ifs
    · exact List.Sublist.refl _
    · exact List.filter_sublist
  | torrent =>
    simp only
    split_ifs
    · exact List.Sublist.refl _
    · exact List.filter_sublist
  | search | rssFeed | none => exact List.Sublist.refl _

theorem filterData_wf {s : TorrentStorrage} (h : s.WF) : s.filterData.WF := by
  have hsub := filterData_filtered_sublist s
  exact ⟨h.keys_nodup, h.torrents_perm, h.torrents_nodup.sublist hsub, fun it hit => hsub.subset hit,
    h.keyed⟩

theorem refresh_wf (s : TorrentStorrage) (r : Refresh) (h : s.WF) : (s.refresh r).WF := by
  cases r with
  | filterData => exact filterData_wf h
  | append t => exact append_wf h t
  | remove infoHash => exact remove_wf h infoHash
  | setTorrentFilter filter =>
    exact filterData_wf ⟨h.keys_nodup, h.torrents_perm, h.filtered_nodup, h.filtered_subset, h.keyed⟩
  | setGroupFilter filter =>
    exact filterData_wf ⟨h.keys_nodup, h.torrents_perm, h.filtered_nodup, h.filtered_subset, h.keyed⟩
  | changeTorrent it isValid status isSeed group =>
    exact changeTorrent_wf h it isValid status isSeed group

/-- Whatever happens to the store, its lists and its map stay in step. -/
theorem Reachable.wf {s : TorrentStorrage} (h : s.Reachable) : s.WF := by
  obtain ⟨filterType, rs, rfl⟩ := h
  exact Runs.final_of_step refresh_wf (initial_wf filterType) rs


end filters
end TorrentStorrage
end CuteTorrent
