import Mathlib.Data.List.Sort
import CuteTorrent.TorrentStorrage

/-! `QTorrentDisplayModel`: the list view over the store and the actions on its
selection. Rows are collected first; the store may be refreshed before each of
them is used. -/
namespace CuteTorrent
open TorrentStorrage

inductive Action where
  | stop
  | pause
  | remove
  | removeAll
  | resume
  | rehash
  | moveStorrage
  | setSequntial
  | setSuperseed
  | updateTrackers
  | generateMagmet
deriving DecidableEq, Repr

/-- What the action does to a torrent: `RemoveTorrent`, with the hash it
announces and gives to the session, or one of the other calls. -/
inductive Call where
  | removeTorrent (torrent infoHash : QString) (delFiles : Bool)
  | other (act : Action) (torrent : QString)
deriving DecidableEq, Repr

/-- The selection model of the list view holds each row once. -/
structure DisplayModel where
  torrents : TorrentStorrage
  currentTorrent : Option QString
  selectedRow : Int
  selectedIndexes : List Nat
  selected_nodup : selectedIndexes.Nodup
deriving DecidableEq

namespace DisplayModel

def rowCount (m : DisplayModel) : Int := m.torrents.count

/-- `data(index, TorrentRole)`; a null pointer for a row that is not shown. -/
def torrentData (m : DisplayModel) (row : Int) : Except Fault (Option QString) :=
  if row < 0 ∨ m.torrents.count ≤ row then .ok none else m.torrents.atIndex row

def onTorrentRemove (m : DisplayModel) (infoHash : QString) : DisplayModel :=
  { m with
    torrents := m.torrents.remove infoHash
    selectedIndexes := []
    selected_nodup := List.nodup_nil }

def removeRow (m : DisplayModel) (row : Int) (delFiles : Bool) :
    Except Fault (DisplayModel × List Call × Bool) :=
  if row > m.torrents.count ∨ row < 0 then .ok (m, [], false)
  else if m.rowCount = 0 then .ok (m, [], false)
  else do
    let it ← m.torrents.atIndex row
    let m := if it = m.currentTorrent then { m with currentTorrent := none } else m
    match it with
    | none => .error .nullPointer
    | some it =>
      match m.torrents.value it with
      | none => .error .nullPointer
      | some t =>
        let infoHash := t.handle.infoHash.hex
        return (m.onTorrentRemove infoHash, [.removeTorrent it infoHash delFiles], true)

def rowsDescending (rows : List Nat) : List Nat := (rows.insertionSort (· ≤ ·)).reverse

def callOthers (act : Action) : List (Option QString) → Except Fault (List Call)
  | [] => .ok []
  | none :: _ => .error .nullPointer
  | some it :: its => do
    let calls ← callOthers act its
    return .other act it :: calls

section actions
variable [QtTables]

def refreshAll (m : DisplayModel) (rs : List Refresh) : DisplayModel :=
  { m with torrents := Runs.final refresh m.torrents rs }

/-- `foreach(int row, rows) removeRow(row, delFiles)`, with what happens to the
store after each of them. -/
def removeRows (delFiles : Bool) : List Nat → (Nat → List Refresh) → DisplayModel →
    Except Fault (DisplayModel × List Call)
  | [], _, m => .ok (m, [])
  | row :: rows, env, m => do
    let (m, calls, _) ← m.removeRow row delFiles
    let (m, more) ← removeRows delFiles rows (fun k => env (k + 1)) (m.refreshAll (env 0))
    return (m, calls ++ more)

/-- `env 0` happens while the dialog of the action is open, `env k` after the
`k`-th removal; `confirmed` is the answer to the dialog. -/
def actionOnSelectedItem (env : Nat → List Refresh) (confirmed : Bool) (wtf : Action)
    (m : DisplayModel) : Except Fault (DisplayModel × List Call) := do
  let selectedTorrents ← m.selectedIndexes.mapM fun row : Nat => m.torrentData row
  let rows := rowsDescending m.selectedIndexes
  if m.rowCount = 0 then return (m, [])
  else if m.selectedRow < 0 then return (m, [])
  else if m.selectedRow ≥ m.rowCount then return (m, [])
  else
    match wtf with
    | .remove =>
      let m := m.refreshAll (env 0)
      if confirmed then removeRows false rows (fun k => env (k + 1)) m else return (m, [])
    | .removeAll =>
      let m := m.refreshAll (env 0)
      if confirmed then removeRows true rows (fun k => env (k + 1)) m else return (m, [])
    | .moveStorrage =>
      match selectedTorrents with
      | [] => .error .indexOutOfRange
      | none :: _ => .error .nullPointer
      | some _ :: _ =>
        let m := m.refreshAll (env 0)
        if confirmed then do
          let calls ← callOthers wtf selectedTorrents
          return (m, calls)
        else return (m, [])
    | _ => do
      let calls ← callOthers wtf selectedTorrents
      return (m, calls)

end actions

def selectedTorrents (m : DisplayModel) : List QString :=
  m.selectedIndexes.filterMap fun row => m.torrents.filteredTorrents[row]?

def RemovesExactly (m : DisplayModel) (delFiles : Bool) (calls : List Call) : Prop :=
  calls.Nodup ∧ calls.Perm (m.selectedTorrents.map fun it => .removeTorrent it it delFiles)

instance (m : DisplayModel) (delFiles : Bool) (calls : List Call) :
    Decidable (m.RemovesExactly delFiles calls) :=
  inferInstanceAs (Decidable (_ ∧ _))

theorem removeRow_of_shows {m : DisplayModel} (hwf : m.torrents.WF) {row : Nat} {it : QString}
    (hs : m.torrents.Shows row it) (delFiles : Bool) :
    ∃ m', m.removeRow row delFiles = .ok (m', [.removeTorrent it it delFiles], true) ∧
      m'.torrents = m.torrents.remove it := by
  obtain ⟨t, ht, hhash⟩ := hwf.shows_hash hs
  obtain ⟨hlt, hget⟩ := List.getElem?_eq_some_iff.mp hs.1
  obtain ⟨hin, hcount⟩ := m.torrents.row_in_range hlt
  have hne : ¬ m.rowCount = 0 := hcount
  have hat : m.torrents.atIndex row = .ok (some it) := by rw [hwf.atIndex_eq hlt, hs.1]
  by_cases hcur : some it = m.currentTorrent
  · refine ⟨{ m with currentTorrent := none }.onTorrentRemove it, ?_, rfl⟩
    simp [removeRow, hin, hne, hat, hcur.symm, Bind.bind, Except.bind, Pure.pure, Except.pure, ht,
      hhash]
  · refine ⟨m.onTorrentRemove it, ?_, rfl⟩
    simp [removeRow, hin, hne, hat, hcur, Bind.bind, Except.bind, Pure.pure, Except.pure, ht, hhash]

theorem rowsDescending_perm (rows : List Nat) : (rowsDescending rows).Perm rows :=
  (List.reverse_perm _).trans (List.perm_insertionSort _ rows)

theorem rowsDescending_pairwise {rows : List Nat} (h : rows.Nodup) :
    (rowsDescending rows).Pairwise (· > ·) := by
  have hsorted : (rows.insertionSort (· ≤ ·)).Pairwise (· ≤ ·) := List.pairwise_insertionSort _ rows
  have hnodup : (rows.insertionSort (· ≤ ·)).Nodup :=
    (List.perm_insertionSort _ rows).nodup_iff.mpr h
  rw [rowsDescending, List.pairwise_reverse]
  refine (hsorted.and hnodup).imp ?_
  intro a b hab
  have hne : a ≠ b := hab.2
  have hle : a ≤ b := hab.1
  omega

theorem selectedTorrents_nodup {m : DisplayModel} (hwf : m.torrents.WF) :
    m.selectedTorrents.Nodup := by
  apply m.selected_nodup.filterMap
  intro i j it hi hj
  obtain ⟨hlt, -⟩ := List.getElem?_eq_some_iff.mp (Option.mem_def.mp hi)
  apply (List.getElem?_inj hlt hwf.filtered_nodup).mp
  rw [Option.mem_def.mp hi, Option.mem_def.mp hj]

theorem mapM_torrentData {m : DisplayModel} (hwf : m.torrents.WF) (rows : List Nat) :
    ∃ its, (rows.mapM fun row : Nat => m.torrentData row) = .ok its := by
  induction rows with
  | nil => exact ⟨[], rfl⟩
  | cons row rows ih =>
    obtain ⟨its, hits⟩ := ih
    have hdata : ∃ it, m.torrentData row = .ok it := by
      by_cases hrow : row < m.torrents.filteredTorrents.length
      · have hcount : ¬ ((row : Int) < 0 ∨ m.torrents.count ≤ row) := by
          rw [count]
          omega
        exact ⟨_, by rw [torrentData, if_neg hcount, hwf.atIndex_eq hrow]⟩
      · have hcount : (row : Int) < 0 ∨ m.torrents.count ≤ row := by
          rw [count]
          omega
        exact ⟨none, by rw [torrentData, if_pos hcount]⟩
    obtain ⟨it, hit⟩ := hdata
    exact ⟨it :: its, by simp [List.mapM_cons, hit, hits, Bind.bind, Except.bind, Pure.pure, Except.pure]⟩

section actions
variable [QtTables]

/-- Whenever a row is removed, it shows, with a valid handle, the torrent that
was collected for it. -/
def Undisturbed (start : TorrentStorrage) :
    List Nat → (Nat → List Refresh) → TorrentStorrage → Prop
  | [], _, _ => True
  | row :: rows, env, s =>
    ∃ it, start.filteredTorrents[row]? = some it ∧ s.Shows row it ∧
      Undisturbed start rows (fun k => env (k + 1)) (Runs.final refresh (s.remove it) (env 0))

/-- The loop does not disturb itself: its own removals move no row whose turn
has not come. Only the refreshes have to keep what is shown. -/
theorem undisturbed_of_keeps (start : TorrentStorrage) {rows : List Nat}
    (hrows : rows.Pairwise (· > ·)) {env : Nat → List Refresh} {s : TorrentStorrage} (hwf : s.WF)
    (hkeep : ∀ k s row it, s.WF → s.Shows row it → (Runs.final refresh s (env k)).Shows row it)
    (hshown : ∀ row ∈ rows, ∃ it, start.filteredTorrents[row]? = some it ∧ s.Shows row it) :
    Undisturbed start rows env s := by
  induction rows generalizing env s with
  | nil => trivial
  | cons row rows ih =>
    obtain ⟨it, hstart, hit⟩ := hshown row (by simp)
    obtain ⟨habove, hrows⟩ := List.pairwise_cons.mp hrows
    have hwf₁ := remove_wf hwf it
    refine ⟨it, hstart, hit, ?_⟩
    apply ih hrows (Runs.final_of_step refresh_wf hwf₁ (env 0)) fun k => hkeep (k + 1)
    intro j hj
    obtain ⟨jt, hjstart, hj₁, t, ht, hv⟩ := hshown j (by simp [hj])
    have hlt : j < row := habove j hj
    have hne : jt ≠ it := by
      rintro rfl
      obtain ⟨hjlt, -⟩ := List.getElem?_eq_some_iff.mp hj₁
      have := (List.getElem?_inj hjlt hwf.filtered_nodup).mp (hj₁.trans hit.1.symm)
      omega
    have hshows : (s.remove it).Shows j jt := by
      refine ⟨by rw [remove_above hwf hit.1 hlt, hj₁], t, ?_, hv⟩
      simpa [remove_eq hwf, value, Assoc.find_erase, hne] using ht
    exact ⟨jt, hjstart, hkeep 0 _ j jt hwf₁ hshows⟩

theorem removeRows_of_undisturbed (start : TorrentStorrage) (delFiles : Bool) {rows : List Nat}
    {env : Nat → List Refresh} {m : DisplayModel} (hwf : m.torrents.WF)
    (h : Undisturbed start rows env m.torrents) :
    ∃ m', removeRows delFiles rows env m = .ok (m',
      (rows.filterMap fun row => start.filteredTorrents[row]?).map
        fun it => .removeTorrent it it delFiles) := by
  induction rows generalizing env m with
  | nil => exact ⟨m, rfl⟩
  | cons row rows ih =>
    obtain ⟨it, hstart, hshows, hrest⟩ := h
    obtain ⟨m₁, hm₁, htorrents⟩ := removeRow_of_shows hwf hshows delFiles
    have hwf₁ : m₁.torrents.WF := htorrents ▸ remove_wf hwf it
    have hwf₂ : (m₁.refreshAll (env 0)).torrents.WF :=
      Runs.final_of_step refresh_wf hwf₁ (env 0)
    have hrest₂ : Undisturbed start rows (fun k => env (k + 1))
        (m₁.refreshAll (env 0)).torrents := by
      rw [refreshAll, htorrents]
      exact hrest
    obtain ⟨m₂, hm₂⟩ := ih hwf₂ hrest₂
    refine ⟨m₂, ?_⟩
    simp [removeRows, hm₁, hm₂, hstart, Bind.bind, Except.bind, Pure.pure, Except.pure]

theorem remove_of_empty_selection {m : DisplayModel} (hsel : m.selectedIndexes = [])
    (env : Nat → List Refresh) {wtf : Action} (hwtf : wtf = .remove ∨ wtf = .removeAll) :
    ∃ m' calls, actionOnSelectedItem env true wtf m = .ok (m', calls) ∧
      m.RemovesExactly (decide (wtf = .removeAll)) calls := by
  have hexact : ∀ delFiles, m.RemovesExactly delFiles [] := by
    simp [RemovesExactly, selectedTorrents, hsel]
  have hrows : rowsDescending [] = [] := rfl
  unfold actionOnSelectedItem
  rw [hsel]
  rcases hwtf with rfl | rfl
  all_goals
    simp only [List.mapM_nil, hrows, Bind.bind, Except.bind, Pure.pure, Except.pure, removeRows,
      if_true]
    split_ifs
    all_goals exact ⟨_, _, rfl, hexact _⟩

theorem remove_of_selected_row {m : DisplayModel} (hreach : m.torrents.Reachable)
    (hrow : 0 ≤ m.selectedRow ∧ m.selectedRow < m.rowCount) {env : Nat → List Refresh}
    (hun : Undisturbed m.torrents (rowsDescending m.selectedIndexes) (fun k => env (k + 1))
      (Runs.final refresh m.torrents (env 0))) {wtf : Action} (hwtf : wtf = .remove ∨ wtf = .removeAll) :
    ∃ m' calls, actionOnSelectedItem env true wtf m = .ok (m', calls) ∧
      m.RemovesExactly (decide (wtf = .removeAll)) calls := by
  have hwf := hreach.wf
  have hwf₀ : (m.refreshAll (env 0)).torrents.WF := Runs.final_of_step refresh_wf hwf (env 0)
  obtain ⟨its, hits⟩ := mapM_torrentData hwf m.selectedIndexes
  have hne : ¬ m.rowCount = 0 := by omega
  have hlo : ¬ m.selectedRow < 0 := by omega
  have hhi : ¬ m.selectedRow ≥ m.rowCount := by omega
  have hexact : ∀ delFiles, m.RemovesExactly delFiles
      (((rowsDescending m.selectedIndexes).filterMap
        fun row => m.torrents.filteredTorrents[row]?).map
        fun it => .removeTorrent it it delFiles) := by
    intro delFiles
    have hperm := (rowsDescending_perm m.selectedIndexes).filterMap
      fun row => m.torrents.filteredTorrents[row]?
    have hcalls := hperm.map fun it => Call.removeTorrent it it delFiles
    refine ⟨hcalls.nodup_iff.mpr ?_, hcalls⟩
    apply (selectedTorrents_nodup hwf).map
    intro a b hab
    simpa using hab
  cases hwtf with
  | inl heq =>
    subst heq
    obtain ⟨m', hm'⟩ := removeRows_of_undisturbed m.torrents false hwf₀ hun
    refine ⟨m', _, ?_, hexact false⟩
    unfold actionOnSelectedItem
    rw [hits]
    simp [hne, hlo, hhi, hm', Bind.bind, Except.bind]
  | inr heq =>
    subst heq
    obtain ⟨m', hm'⟩ := removeRows_of_undisturbed m.torrents true hwf₀ hun
    refine ⟨m', _, ?_, hexact true⟩
    unfold actionOnSelectedItem
    rw [hits]
    simp [hne, hlo, hhi, hm', Bind.bind, Except.bind]

/-- As long as no refresh moves a row whose turn has not come, removing the
selection removes the selected torrents, each once, and no other. -/
theorem remove_acts_on_selection {m : DisplayModel} (hreach : m.torrents.Reachable)
    (hrow : m.selectedIndexes = [] ∨ 0 ≤ m.selectedRow ∧ m.selectedRow < m.rowCount)
    {env : Nat → List Refresh}
    (hun : Undisturbed m.torrents (rowsDescending m.selectedIndexes) (fun k => env (k + 1))
      (Runs.final refresh m.torrents (env 0))) {wtf : Action}
    (hwtf : wtf = .remove ∨ wtf = .removeAll) :
    ∃ m' calls, actionOnSelectedItem env true wtf m = .ok (m', calls) ∧
      m.RemovesExactly (decide (wtf = .removeAll)) calls := by
  cases hrow with
  | inl hsel => exact remove_of_empty_selection hsel env hwtf
  | inr hrow => exact remove_of_selected_row hreach hrow hun hwtf

/-- The other actions keep to the torrents they collected: what happens to the
store meanwhile makes no difference to their calls. -/
theorem other_actions_ignore_refreshes {wtf : Action} (hremove : wtf ≠ .remove)
    (hremoveAll : wtf ≠ .removeAll) (env env' : Nat → List Refresh) (confirmed : Bool)
    (m : DisplayModel) :
    (actionOnSelectedItem env confirmed wtf m).map Prod.snd =
      (actionOnSelectedItem env' confirmed wtf m).map Prod.snd := by
  unfold actionOnSelectedItem
  cases hits : m.selectedIndexes.mapM fun row : Nat => m.torrentData row with
  | error e => rfl
  | ok its =>
    cases wtf with
    | remove => exact absurd rfl hremove
    | removeAll => exact absurd rfl hremoveAll
    | moveStorrage =>
      cases its with
      | nil => rfl
      | cons it its =>
        cases it with
        | none => rfl
        | some it =>
          cases hcalls : callOthers .moveStorrage (some it :: its) with
          | error e =>
            simp only [Bind.bind, Except.bind, Pure.pure, Except.pure, hcalls]
            split_ifs <;> rfl
          | ok calls =>
            simp only [Bind.bind, Except.bind, Pure.pure, Except.pure, hcalls]
            split_ifs <;> rfl
    | stop | pause | resume | rehash | setSequntial | setSuperseed | updateTrackers
      | generateMagmet => rfl

end actions

section runs
local instance asciiTables : QtTables := ⟨Char.toLower⟩

def torrentOf (b : UInt8) (downloadRate : Int) : Torrent :=
  ⟨⟨true, ⟨List.replicate 20 b, by simp⟩, ⟨.downloading, downloadRate, 0, 0⟩, false⟩, []⟩

def oneActive : DisplayModel where
  torrents := Runs.final refresh (initial .none)
    [.setTorrentFilter .active, .append (torrentOf 0xAA 0), .append (torrentOf 0xBB 4096)]
  currentTorrent := none
  selectedRow := 0
  selectedIndexes := [0]
  selected_nodup := by decide

/-- While the question is open, the first torrent starts to download and the
store filters again. -/
def firstBecomesActive : Nat → List Refresh
  | 0 => [.changeTorrent (torrentOf 0xAA 0).getInfoHash true ⟨.downloading, 4096, 0, 0⟩ false [],
      .filterData]
  | _ => []

theorem oneActive_reachable : oneActive.torrents.Reachable := ⟨_, _, rfl⟩

/-- The torrent at the selected row is asked about, another one is removed with
its files. -/
theorem remove_takes_another_torrent :
    ¬ ∀ (m : DisplayModel) (env : Nat → List Refresh), m.torrents.Reachable →
      (∀ row ∈ m.selectedIndexes, row < m.torrents.filteredTorrents.length) →
      0 ≤ m.selectedRow ∧ m.selectedRow < m.rowCount →
      ∃ m' calls, actionOnSelectedItem env true .removeAll m = .ok (m', calls) ∧
        m.RemovesExactly true calls := by
  intro h
  obtain ⟨m', calls, hrun, hexact⟩ :=
    h oneActive firstBecomesActive oneActive_reachable (by decide +kernel) (by decide +kernel)
  have hcalls : (actionOnSelectedItem firstBecomesActive true .removeAll oneActive).map Prod.snd =
      .ok [.removeTorrent (torrentOf 0xAA 0).getInfoHash (torrentOf 0xAA 0).getInfoHash true] := by
    decide +kernel
  rw [hrun] at hcalls
  obtain rfl := Except.ok.inj hcalls
  revert hexact
  decide +kernel

theorem remove_acts_on_selection_oneActive :
    ∃ m' calls, actionOnSelectedItem (fun _ => []) true .removeAll oneActive = .ok (m', calls) ∧
      oneActive.RemovesExactly true calls := by
  have hshown : ∀ row ∈ rowsDescending oneActive.selectedIndexes, ∃ it,
      oneActive.torrents.filteredTorrents[row]? = some it ∧ oneActive.torrents.Shows row it := by
    intro row hrow
    obtain rfl : row = 0 := by simpa [rowsDescending, oneActive] using hrow
    exact ⟨_, rfl, rfl, _, rfl, rfl⟩
  have hun : Undisturbed oneActive.torrents (rowsDescending oneActive.selectedIndexes)
      (fun _ => []) oneActive.torrents :=
    undisturbed_of_keeps _ (rowsDescending_pairwise oneActive.selected_nodup)
      oneActive_reachable.wf (fun _ _ _ _ _ hs => hs) hshown
  exact remove_acts_on_selection oneActive_reachable (.inr (by decide +kernel)) hun (.inr rfl)

end runs

end DisplayModel
end CuteTorrent
