import CuteTorrent.TorrentStorrage

/-! Runs of the store with everything its users call: the view that is kept up
on the way against the view that is computed afresh, and what the three
containers have to do with each other. -/
namespace CuteTorrent
namespace TorrentStorrage

def clear (s : TorrentStorrage) : TorrentStorrage :=
  { s with torrentsMap := [], torrents := [], filteredTorrents := [] }

/-- `LessThan`: the torrents of two iterators by their names. -/
def lessThan (getName : Torrent → QString) (s : TorrentStorrage) (left right : QString) : Bool :=
  match s.value left, s.value right with
  | some l, some r => decide (getName l < getName r)
  | _, _ => false

def sort [QtAlgorithms] (getName : Torrent → QString) (s : TorrentStorrage) : TorrentStorrage :=
  { s with torrents := QtAlgorithms.qSort (s.lessThan getName) s.torrents }

theorem clear_wf (s : TorrentStorrage) : s.clear.WF := by
  refine ⟨?_, ?_, ?_, ?_, ?_⟩
  all_goals simp [clear, value]

theorem sort_wf [QtAlgorithms] (getName : Torrent → QString) {s : TorrentStorrage} (h : s.WF) :
    (s.sort getName).WF := by
  have hperm := QtAlgorithms.qSort_perm (s.lessThan getName) s.torrents
  refine ⟨h.keys_nodup, hperm.trans h.torrents_perm, h.filtered_nodup, ?_, h.keyed⟩
  intro it hit
  exact hperm.mem_iff.mpr (h.filtered_subset it hit)

inductive Op where
  | refresh (r : Refresh)
  | clear
  | sort (getName : Torrent → QString)

section runs
variable [QtTables] [QtAlgorithms]

def step (s : TorrentStorrage) : Op → TorrentStorrage
  | .refresh r => s.refresh r
  | .clear => s.clear
  | .sort getName => s.sort getName

def Reached (s : TorrentStorrage) : Prop :=
  ∃ filterType ops, s = Runs.final step (initial filterType) ops

theorem step_wf (s : TorrentStorrage) (op : Op) (h : s.WF) : (s.step op).WF := by
  cases op with
  | refresh r => exact refresh_wf s r h
  | clear => exact clear_wf s
  | sort getName => exact sort_wf getName h

theorem Reached.wf {s : TorrentStorrage} (h : s.Reached) : s.WF := by
  obtain ⟨filterType, ops, rfl⟩ := h
  exact Runs.final_of_step step_wf (initial_wf filterType) ops

end runs
/-! ### The view -/

section view
variable [QtTables]

def UpToDate (s : TorrentStorrage) : Prop := s.filteredTorrents = s.filterData.filteredTorrents

instance (s : TorrentStorrage) : Decidable s.UpToDate := inferInstanceAs (Decidable (_ = _))

def inView (s : TorrentStorrage) (t : Torrent) : Bool :=
  match s.filterType with
  | .group => decide (s.groupFilter = []) || equalsCaseInsensitive t.group s.groupFilter
  | .torrent => showsFiltered s.torrentFilter t
  | .search | .rssFeed | .none => true

theorem filterData_eq_filter {s : TorrentStorrage} (h : s.WF) :
    s.filterData.filteredTorrents = s.torrents.filter fun it => (s.value it).any s.inView := by
  have hall : ∀ p : Torrent → Bool, (∀ t, p t = true) →
      s.torrents = s.torrents.filter fun it => (s.value it).any p := by
    intro p hp
    refine (List.filter_eq_self.mpr fun it hit => ?_).symm
    have hkey : s.hasTorrent it = true := (h.hasTorrent_iff it).mpr hit
    obtain ⟨t, ht⟩ := Option.isSome_iff_exists.mp hkey
    rw [value, ht, Option.any_some, hp]
  simp only [filterData, filterByGroup]
  cases hf : s.filterType with
  | group =>
    by_cases hg : s.groupFilter = []
    · simp only [hg, if_true]
      apply hall
      intro t
      simp [inView, hf, hg]
    · have hpass : s.inView = fun t => equalsCaseInsensitive t.group s.groupFilter := by
        funext t
        simp [inView, hf, hg]
      simp [hpass, hg]
  | torrent =>
    by_cases ht : s.torrentFilter = .none
    · simp only [ht, if_true]
      apply hall
      intro t
      simp [inView, hf, ht, showsFiltered]
    · have hpass : s.inView = showsFiltered s.torrentFilter := by
        funext t
        simp [inView, hf]
      simp [hpass, ht]
  | search | rssFeed | none =>
    apply hall
    intro t
    simp [inView, hf]

theorem upToDate_clear (s : TorrentStorrage) : s.clear.UpToDate := by
  rw [UpToDate, filterData_eq_filter (clear_wf s)]
  rfl

theorem inView_congr {s s' : TorrentStorrage} (hf : s'.filterType = s.filterType)
    (ht : s'.torrentFilter = s.torrentFilter) (hg : s'.groupFilter = s.groupFilter) :
    s'.inView = s.inView := by
  funext t
  rw [inView, inView, hf, ht, hg]

theorem upToDate_remove {s : TorrentStorrage} (h : s.WF) (hview : s.UpToDate) (it : QString) :
    (s.remove it).UpToDate := by
  have hshown : (s.remove it).inView = s.inView := by
    rw [remove_eq h]
    exact inView_congr rfl rfl rfl
  rw [UpToDate, filterData_eq_filter h] at hview
  rw [UpToDate, filterData_eq_filter (remove_wf h it), hshown, remove_eq h]
  simp only [value]
  rw [h.filtered_nodup.erase_eq_filter, h.torrents_nodup.erase_eq_filter, hview,
    List.filter_filter, List.filter_filter]
  apply List.filter_congr
  intro j _
  by_cases hj : j = it
  · simp [hj]
  · simp [hj, Assoc.find_erase, value, Bool.and_comm]

/-- A new torrent is shown by `append` exactly when it passes the filter. -/
theorem upToDate_append_iff {s : TorrentStorrage} (h : s.WF) (hview : s.UpToDate) {t : Torrent}
    (hnew : s.hasTorrent t.getInfoHash ≠ true) :
    (s.append t).UpToDate ↔ showsAppended s.torrentFilter t = s.inView t := by
  have hkey : t.getInfoHash ∉ s.torrents := fun hc => hnew ((h.hasTorrent_iff _).mpr hc)
  have hshown : (s.append t).inView = s.inView := by
    rw [append, if_neg hnew]
    exact inView_congr rfl rfl rfl
  have hold : (s.torrents.filter fun it => ((s.append t).value it).any s.inView) =
      s.filteredTorrents := by
    rw [hview, filterData_eq_filter h]
    apply List.filter_congr
    intro it hit
    have hne : it ≠ t.getInfoHash := fun he => hkey (he ▸ hit)
    rw [append, if_neg hnew]
    simp [value, Assoc.find_insert, hne]
  have htorrents : (s.append t).torrents = s.torrents ++ [t.getInfoHash] := by
    rw [append, if_neg hnew]
  have hfiltered : (s.append t).filteredTorrents =
      s.filteredTorrents ++ if showsAppended s.torrentFilter t then [t.getInfoHash] else [] := by
    rw [append, if_neg hnew]
    cases showsAppended s.torrentFilter t <;> simp
  have hself : ((s.append t).value t.getInfoHash).any s.inView = s.inView t := by
    rw [value_append_self hnew, Option.any_some]
  rw [UpToDate, filterData_eq_filter (append_wf h t), hshown, htorrents, hfiltered,
    List.filter_append, hold, List.append_cancel_left_eq, List.filter_singleton, hself]
  cases showsAppended s.torrentFilter t <;> cases s.inView t <;> simp

/-- The group filter and the torrent filter left from before agree on the
torrent, or under the torrent filter NOT_ACTIVE it transfers nothing. -/
def ShownAlike (s : TorrentStorrage) (t : Torrent) : Prop :=
  match s.filterType with
  | .group => showsAppended s.torrentFilter t = true ↔
      s.groupFilter = [] ∨ equalsCaseInsensitive t.group s.groupFilter = true
  | .torrent => s.torrentFilter = .notActive →
      t.uploadSpeedIsEmpty = true ∧ t.dwonloadSpeedIsEmpty = true
  | .search | .rssFeed | .none => True

/-- A torrent filter is in force only under a filter type. -/
def FilterTyped (s : TorrentStorrage) : Prop :=
  s.filterType = .group ∨ s.filterType = .torrent ∨ s.torrentFilter = .none

theorem shownAlike_iff {s : TorrentStorrage} (h : s.FilterTyped) (t : Torrent) :
    showsAppended s.torrentFilter t = s.inView t ↔ s.ShownAlike t := by
  unfold ShownAlike inView
  cases hf : s.filterType with
  | group =>
    rw [Bool.eq_iff_iff]
    simp
  | torrent => cases s.torrentFilter <;> simp [showsAppended, showsFiltered]
  | search | rssFeed | none =>
    have hnone : s.torrentFilter = .none := by simpa [FilterTyped, hf] using h
    simp [hnone, showsAppended]

end view

/-- What changes the set of torrents without computing the view again. -/
inductive Edit where
  | append (t : Torrent)
  | remove (infoHash : QString)
  | clear

def edit (s : TorrentStorrage) : Edit → TorrentStorrage
  | .append t => s.append t
  | .remove infoHash => s.remove infoHash
  | .clear => s.clear

section edits
variable [QtTables] [QtAlgorithms]

theorem step_filterTyped (s : TorrentStorrage) (op : Op) (h : s.FilterTyped) :
    (s.step op).FilterTyped := by
  cases op with
  | clear => exact h
  | sort getName => exact h
  | refresh r =>
    cases r with
    | filterData => exact h
    | append t =>
      simp only [step, refresh, append]
      split_ifs <;> exact h
    | remove infoHash =>
      simp only [step, refresh, remove]
      split_ifs <;> exact h
    | setTorrentFilter filter => exact .inr (.inl rfl)
    | setGroupFilter filter => exact .inl rfl
    | changeTorrent it isValid status isSeed group => exact h

theorem Reached.filterTyped {s : TorrentStorrage} (h : s.Reached) : s.FilterTyped := by
  obtain ⟨filterType, ops, rfl⟩ := h
  exact Runs.final_of_step step_filterTyped (.inr (.inr rfl)) ops

/-- An edit leaves the view as `filterData` would compute it exactly when the
filters agree on the torrent it appends. -/
theorem edit_upToDate_iff {s : TorrentStorrage} (hreach : s.Reached) (hview : s.UpToDate)
    (e : Edit) :
    (s.edit e).UpToDate ↔
      ∀ t, e = .append t → s.hasTorrent t.getInfoHash ≠ true → s.ShownAlike t := by
  cases e with
  | append t =>
    by_cases hnew : s.hasTorrent t.getInfoHash = true
    · have hsame : s.append t = s := by rw [append, if_pos hnew]
      simp only [edit, hsame]
      refine ⟨fun _ u hu hne => absurd hnew ?_, fun _ => hview⟩
      rw [Edit.append.inj hu]
      exact hne
    · have happend := upToDate_append_iff hreach.wf hview hnew
      rw [shownAlike_iff hreach.filterTyped] at happend
      rw [edit, happend]
      constructor
      · intro hshown u hu _
        rwa [← Edit.append.inj hu]
      · intro hall
        exact hall t rfl hnew
  | remove infoHash =>
    refine ⟨fun _ t ht => absurd ht (by simp), fun _ => ?_⟩
    exact upToDate_remove hreach.wf hview infoHash
  | clear => exact ⟨fun _ t ht => absurd ht (by simp), fun _ => upToDate_clear s⟩

end edits

@[reducible] def asciiCase : QtTables := ⟨Char.toLower⟩

def downloadingTorrent (downloadRate : Int) : Torrent :=
  ⟨⟨true, ⟨List.replicate 20 0xAA, rfl⟩, ⟨.downloading, downloadRate, 0, 0⟩, false⟩, []⟩

def torrentNumber (n : Nat) (status : TorrentStatus) : Torrent :=
  ⟨⟨true, ⟨n.toUInt8 :: List.replicate 19 0, rfl⟩, status, false⟩, []⟩

def showingNotActive : TorrentStorrage := ⟨[], [], [], .torrent, .notActive, []⟩

theorem showingNotActive_reached : @Reached asciiCase insertionSorting showingNotActive :=
  letI := asciiCase
  letI := insertionSorting
  ⟨.none, [.refresh (.setTorrentFilter .notActive)], rfl⟩

theorem append_idle_upToDate :
    @UpToDate asciiCase (showingNotActive.edit (.append (downloadingTorrent 0))) := by
  refine (@edit_upToDate_iff asciiCase insertionSorting _ showingNotActive_reached rfl _).mpr ?_
  intro t ht _ _
  rw [← Edit.append.inj ht]
  decide

theorem append_shows_downloading :
    ¬ ∀ (_ : QtTables) (_ : QtAlgorithms) (s : TorrentStorrage) (e : Edit), s.Reached →
      s.UpToDate → (∀ t, e = .append t → s.hasTorrent t.getInfoHash ≠ true) →
      (s.edit e).UpToDate := by
  intro h
  have hview := h asciiCase insertionSorting showingNotActive (.append (downloadingTorrent 4096))
    showingNotActive_reached rfl fun t _ => by simp [showingNotActive, hasTorrent, Assoc.contains]
  revert hview
  decide

/-! ### The containers -/

structure Consistent (s : TorrentStorrage) : Prop where
  torrents_once : s.torrents.Nodup
  torrents_iff : ∀ it, it ∈ s.torrents ↔ s.hasTorrent it = true
  keys_nodup : (Assoc.keys s.torrentsMap).Nodup
  keyed : ∀ it t, s.value it = some t → t.getInfoHash = it
  filtered_nodup : s.filteredTorrents.Nodup
  filtered_subset : ∀ it ∈ s.filteredTorrents, it ∈ s.torrents

theorem WF.consistent {s : TorrentStorrage} (h : s.WF)
    (hkeyed : ∀ it t, s.value it = some t → t.getInfoHash = it) : s.Consistent where
  torrents_once := h.torrents_nodup
  torrents_iff it := (h.hasTorrent_iff it).symm
  keys_nodup := h.keys_nodup
  keyed := hkeyed
  filtered_nodup := h.filtered_nodup
  filtered_subset := h.filtered_subset

theorem Consistent.wf {s : TorrentStorrage} (h : s.Consistent) : s.WF where
  keys_nodup := h.keys_nodup
  torrents_perm := by
    refine (List.perm_ext_iff_of_nodup h.torrents_once h.keys_nodup).mpr fun it => ?_
    rw [h.torrents_iff, hasTorrent, Assoc.contains_iff]
  filtered_nodup := h.filtered_nodup
  filtered_subset := h.filtered_subset
  keyed it t ht _ := h.keyed it t ht

/-- No iterator of the two vectors outlives its entry. -/
theorem Consistent.live {s : TorrentStorrage} (h : s.Consistent) {it : QString}
    (hit : it ∈ s.torrents ∨ it ∈ s.filteredTorrents) : ∃ t, s.value it = some t := by
  have hmem : it ∈ s.torrents := hit.elim id (h.filtered_subset it)
  exact Option.isSome_iff_exists.mp ((h.torrents_iff it).mp hmem)

section containers
variable [QtTables] [QtAlgorithms]

def HashesConstant (s : TorrentStorrage) (op : Op) : Prop :=
  ∀ it t t', s.value it = some t → (s.step op).value it = some t' →
    t'.getInfoHash = t.getInfoHash

theorem hashesConstant_of_entries {s s' : TorrentStorrage} {op : Op} (hstep : s.step op = s')
    (h : ∀ e ∈ s.torrentsMap, ∀ t' ∈ s'.value e.1, t'.getInfoHash = e.2.getInfoHash) :
    s.HashesConstant op := by
  subst hstep
  exact fun it t t' ht ht' => h (it, t) (Assoc.mem_of_find ht) t' ht'

theorem value_step {s : TorrentStorrage} (h : s.WF) {op : Op} {it : QString} {t' : Torrent}
    (ht : (s.step op).value it = some t') :
    (∃ t, s.value it = some t) ∨ t'.getInfoHash = it := by
  cases op with
  | clear => exact absurd ht (by simp [step, clear, value])
  | sort getName => exact .inl ⟨t', ht⟩
  | refresh r =>
    cases r with
    | filterData => exact .inl ⟨t', ht⟩
    | append t =>
      by_cases hnew : s.hasTorrent t.getInfoHash = true
      · refine .inl ⟨t', ?_⟩
        rwa [step, refresh, append, if_pos hnew] at ht
      · by_cases hit : it = t.getInfoHash
        · right
          rw [hit, step, refresh, value_append_self hnew] at ht
          rw [hit, ← Option.some.inj ht]
        · refine .inl ⟨t', ?_⟩
          rw [step, refresh, append, if_neg hnew, value, Assoc.find_insert_of_ne hit] at ht
          exact ht
    | remove infoHash =>
      rw [step, refresh, remove_eq h, value, Assoc.find_erase] at ht
      split_ifs at ht
      exact .inl ⟨t', ht⟩
    | setTorrentFilter filter => exact .inl ⟨t', ht⟩
    | setGroupFilter filter => exact .inl ⟨t', ht⟩
    | changeTorrent j isValid status isSeed group =>
      left
      rw [step, refresh, changeTorrent, value, Assoc.find_modify] at ht
      split_ifs at ht
      · obtain ⟨t, hfind, -⟩ := Option.map_eq_some_iff.mp ht
        exact ⟨t, hfind⟩
      · exact ⟨t', ht⟩

theorem step_consistent {s : TorrentStorrage} (h : s.Consistent) {op : Op}
    (hconst : s.HashesConstant op) : (s.step op).Consistent := by
  refine (step_wf s op h.wf).consistent fun it t' ht' => ?_
  rcases value_step h.wf ht' with ⟨t, ht⟩ | hkey
  · rw [hconst it t t' ht ht', h.keyed it t ht]
  · exact hkey

/-- In every run in which stored torrents keep their hashes, the containers stay
consistent. -/
theorem containers_consistent (filterType : FilterType) {ops : List Op}
    (hconst : Runs.Along step HashesConstant (initial filterType) ops) :
    Runs.Throughout step Consistent (initial filterType) ops := by
  refine Runs.throughout_of_along (fun s op h hc => step_consistent h hc) ?_ hconst
  exact (initial_wf filterType).consistent fun it t ht => absurd ht (by simp [initial, value])

end containers

/-- Two torrents are added, the first of them transfers something and is shown alone, the
list is sorted, the second is removed, and the store is cleared. -/
theorem consistent_run :
    @Runs.Throughout _ _ (@step asciiCase insertionSorting) Consistent (initial .none)
      [.refresh (.append (torrentNumber 1 .initial)), .refresh (.append (torrentNumber 0 .initial)),
        .refresh (.changeTorrent (torrentNumber 1 .initial).getInfoHash true ⟨.downloading, 4096, 0, 0⟩
          false []),
        .refresh (.setTorrentFilter .active), .sort Torrent.getInfoHash,
        .refresh (.remove (torrentNumber 0 .initial).getInfoHash), .clear] := by
  let _ := asciiCase
  let _ := insertionSorting
  refine containers_consistent .none ⟨?_, ?_, ?_, ?_, ?_, ?_, ?_, trivial⟩
  all_goals exact hashesConstant_of_entries rfl (by decide +kernel)

end TorrentStorrage
end CuteTorrent
