import CuteTorrent.DisplayModel
import CuteTorrent.StorrageRuns

/-! `QTorrentDisplayModel::GetSelectedTorrent`: the selected row and the pointer that
is kept beside it, while the list changes under both. -/
namespace CuteTorrent

/-- `Torrent*` is the number of the allocation; no torrent is ever freed. `pointers` are
the values of the map by their keys. -/
structure QTorrentDisplayModel where
  torrents : TorrentStorrage
  pointers : QString → Nat
  allocated : Nat
  currentTorrent : Option Nat
  selectedRow : Int
  fault : Option Fault

namespace QTorrentDisplayModel

/-- The constructor leaves the pointer as it finds it. -/
def initial (filterType : FilterType) (currentTorrent : Option Nat) : QTorrentDisplayModel :=
  ⟨.initial filterType, fun _ => 0, 0, currentTorrent, -1, none⟩

def rowCount (m : QTorrentDisplayModel) : Int := m.torrents.count

def GetSelectedTorrent (m : QTorrentDisplayModel) : Option Nat :=
  if m.rowCount = 0 then none
  else if m.selectedRow ≥ m.rowCount then none
  else if m.selectedRow < 0 then none
  else m.currentTorrent

def pointerAt (m : QTorrentDisplayModel) (row : Int) : Except Fault (Option Nat) :=
  (m.torrents.atIndex row).map fun it => it.map m.pointers

/-- `indexes` are the rows of the selection. -/
def UpdateSelectedIndex (m : QTorrentDisplayModel) (indexes : List Nat) : QTorrentDisplayModel :=
  match indexes with
  | [row] =>
    let m := { m with selectedRow := row }
    match m.pointerAt row with
    | .ok torrent => { m with currentTorrent := torrent }
    | .error f => { m with fault := some f }
  | _ => { m with selectedRow := -1, currentTorrent := none }

/-- The view is reset, and emits no change of the selection. -/
def onTorrentRemove (m : QTorrentDisplayModel) (infoHash : QString) : QTorrentDisplayModel :=
  { m with torrents := m.torrents.remove infoHash }

def addTorrent (m : QTorrentDisplayModel) (t : Torrent) : QTorrentDisplayModel :=
  { m with
    torrents := m.torrents.append t
    pointers :=
      if m.torrents.hasTorrent t.getInfoHash then m.pointers
      else Function.update m.pointers t.getInfoHash m.allocated
    allocated := m.allocated + 1 }

/-- The torrent announces its removal, and the model hears of it before the call ends. -/
def removeRow (m : QTorrentDisplayModel) (row : Int) : QTorrentDisplayModel :=
  if row > m.torrents.count ∨ row < 0 then m
  else if m.rowCount = 0 then m
  else
    match m.torrents.atIndex row with
    | .error f => { m with fault := some f }
    | .ok it =>
      let m :=
        if it.map m.pointers = m.currentTorrent then { m with currentTorrent := none } else m
      match it.bind m.torrents.value with
      | none => { m with fault := some .nullPointer }
      | some t => m.onTorrentRemove t.handle.infoHash.hex

theorem removeRow_agrees (m : QTorrentDisplayModel) (d : DisplayModel) (h : d.torrents = m.torrents)
    (row : Int) (delFiles : Bool) :
    match d.removeRow row delFiles with
    | .ok (d, _) => (m.removeRow row).fault = m.fault ∧ (m.removeRow row).torrents = d.torrents
    | .error f => (m.removeRow row).fault = some f := by
  have hcount : d.rowCount = m.rowCount := by rw [DisplayModel.rowCount, rowCount, h]
  unfold DisplayModel.removeRow removeRow
  rw [hcount, h]
  split_ifs with hin hzero
  · exact ⟨rfl, h.symm⟩
  · exact ⟨rfl, h.symm⟩
  · cases m.torrents.atIndex row with
    | error f => rfl
    | ok it =>
      cases it with
      | none =>
        simp only [Bind.bind, Except.bind, Option.map_none, Option.bind_none]
      | some it =>
        simp only [Bind.bind, Except.bind, Option.map_some, Option.bind_some]
        split_ifs
        all_goals
          simp only [h]
          cases m.torrents.value it with
          | none => rfl
          | some t => simp [Pure.pure, Except.pure, onTorrentRemove, DisplayModel.onTorrentRemove, h]

inductive Op where
  | updateSelectedIndex (indexes : List Nat)
  | addTorrent (t : Torrent)
  | removeRow (row : Int)
  | onTorrentRemove (infoHash : QString)
  /-- The timer and the other users of the store. -/
  | filterData
  | setTorrentFilter (filter : TorrentFilterType)
  | setGroupFilter (filter : QString)
  | changeTorrent (it : QString) (isValid : Bool) (status : TorrentStatus) (isSeed : Bool)
      (group : QString)
  | sort (getName : Torrent → QString)

section
variable [QtTables] [QtAlgorithms]

def step (m : QTorrentDisplayModel) (op : Op) : QTorrentDisplayModel :=
  if m.fault.isSome then m
  else
    match op with
    | .updateSelectedIndex indexes => m.UpdateSelectedIndex indexes
    | .addTorrent t => m.addTorrent t
    | .removeRow row => m.removeRow row
    | .onTorrentRemove infoHash => m.onTorrentRemove infoHash
    | .filterData => { m with torrents := m.torrents.filterData }
    | .setTorrentFilter filter => { m with torrents := m.torrents.setTorrentFilter filter }
    | .setGroupFilter filter => { m with torrents := m.torrents.setGroupFilter filter }
    | .changeTorrent it isValid status isSeed group =>
      { m with torrents := m.torrents.changeTorrent it isValid status isSeed group }
    | .sort getName => { m with torrents := m.torrents.sort getName }

end

def NeverStale (m : QTorrentDisplayModel) : Prop :=
  m.fault = none → ∀ torrent ∈ m.GetSelectedTorrent,
    ∃ it ∈ m.torrents.filteredTorrents[m.selectedRow.toNat]?,
      m.torrents.hasTorrent it = true ∧ m.pointers it = torrent

def Selects (m : QTorrentDisplayModel) (row : Nat) (torrent : Nat) : Prop :=
  m.selectedRow = row ∧ m.currentTorrent = some torrent

def KeptBy (m : QTorrentDisplayModel) (rows : List QString) : Prop :=
  ∀ row torrent, m.Selects row torrent → ∀ it ∈ rows[row]?, m.pointers it = torrent

/-- Where something is selected, it passes, and as many torrents of the store pass in front
of it as its row says; or too few pass for that row. -/
def PassesAtRow (m : QTorrentDisplayModel) (pass : Torrent → Bool) : Prop :=
  let passes := fun it => (m.torrents.value it).any pass
  ∀ row torrent, m.Selects row torrent →
    m.torrents.torrents.countP passes ≤ row ∨
      ∃ i, ∃ it ∈ m.torrents.torrents[i]?, m.pointers it = torrent ∧ passes it = true ∧
        (m.torrents.torrents.take i).countP passes = row

def Below (m : QTorrentDisplayModel) (infoHash : QString) : Prop :=
  ∀ row torrent, m.Selects row torrent → ∀ k, m.torrents.filteredTorrents[k]? = some infoHash →
    row < k ∨ m.torrents.filteredTorrents.length ≤ row + 1

structure Allocated (m : QTorrentDisplayModel) : Prop where
  wf : m.torrents.WF
  injective : ∀ a b, m.torrents.hasTorrent a = true → m.torrents.hasTorrent b = true →
    m.pointers a = m.pointers b → a = b
  lt : ∀ a, m.torrents.hasTorrent a = true → m.pointers a < m.allocated
  selected_lt : m.fault = none → ∀ row torrent, m.Selects row torrent → torrent < m.allocated

section
variable {m : QTorrentDisplayModel}

theorem Allocated.hasTorrent (h : m.Allocated) {it : QString} {row : Nat}
    (hit : m.torrents.filteredTorrents[row]? = some it) : m.torrents.hasTorrent it = true := by
  obtain ⟨hlt, rfl⟩ := List.getElem?_eq_some_iff.mp hit
  exact (h.wf.hasTorrent_iff _).mpr (h.wf.filtered_subset _ (List.getElem_mem hlt))

theorem getSelectedTorrent_eq_some (torrent : Nat) :
    m.GetSelectedTorrent = some torrent ↔
      ∃ row : Nat, m.Selects row torrent ∧ row < m.torrents.filteredTorrents.length := by
  have hcount : m.rowCount = m.torrents.filteredTorrents.length := rfl
  rw [GetSelectedTorrent, hcount]
  constructor
  · intro h
    split_ifs at h with hzero hhi hlo
    refine ⟨m.selectedRow.toNat, ⟨?_, h⟩, ?_⟩ <;> omega
  · rintro ⟨row, ⟨hrow, htorrent⟩, hlt⟩
    rw [hrow, if_neg (by omega), if_neg (by omega), if_neg (by omega), htorrent]

theorem neverStale_iff (h : m.Allocated) :
    m.NeverStale ↔ (m.fault = none → m.KeptBy m.torrents.filteredTorrents) := by
  refine imp_congr_right fun _ => ?_
  constructor
  · intro hnever row torrent hselects it hit
    obtain ⟨hlt, -⟩ := List.getElem?_eq_some_iff.mp hit
    obtain ⟨it', hit', -, hpointer⟩ :=
      hnever torrent ((getSelectedTorrent_eq_some torrent).mpr ⟨row, hselects, hlt⟩)
    rw [hselects.1, Int.toNat_natCast] at hit'
    rw [hit] at hit'
    exact Option.some.inj hit' ▸ hpointer
  · intro hkept torrent htorrent
    obtain ⟨row, hselects, hlt⟩ := (getSelectedTorrent_eq_some torrent).mp htorrent
    have hit := List.getElem?_eq_getElem hlt
    refine ⟨m.torrents.filteredTorrents[row], ?_, h.hasTorrent hit, hkept row torrent hselects _ hit⟩
    rw [hselects.1, Int.toNat_natCast]
    exact hit

theorem getElem?_filter_iff {α : Type*} {p : α → Bool} {l : List α} {n : Nat} {a : α} :
    (l.filter p)[n]? = some a ↔
      ∃ i, l[i]? = some a ∧ p a = true ∧ (l.take i).countP p = n := by
  induction l generalizing n with
  | nil => simp
  | cons b l ih =>
    cases hb : p b with
    | true =>
      rw [List.filter_cons_of_pos hb]
      cases n with
      | zero =>
        constructor
        · intro h
          obtain rfl : b = a := by simpa using h
          exact ⟨0, rfl, hb, rfl⟩
        · rintro ⟨i, hi, -, hcount⟩
          cases i with
          | zero => exact hi
          | succ i => simp [hb] at hcount
      | succ n =>
        rw [List.getElem?_cons_succ, ih]
        constructor
        · rintro ⟨i, hi, ha, hcount⟩
          exact ⟨i + 1, hi, ha, by simp [hb, hcount]⟩
        · rintro ⟨i, hi, ha, hcount⟩
          cases i with
          | zero => simp at hcount
          | succ i => exact ⟨i, hi, ha, by simpa [hb] using hcount⟩
    | false =>
      rw [List.filter_cons_of_neg (by simp [hb]), ih]
      constructor
      · rintro ⟨i, hi, ha, hcount⟩
        exact ⟨i + 1, hi, ha, by simp [hb, hcount]⟩
      · rintro ⟨i, hi, ha, hcount⟩
        cases i with
        | zero =>
          obtain rfl : b = a := by simpa using hi
          exact absurd (ha.symm.trans hb) (by decide)
        | succ i => exact ⟨i, hi, ha, by simpa [hb] using hcount⟩

/-- A new filter leaves the selection in place exactly when the selected torrent passes at
its row. -/
theorem keptBy_filter_iff (pass : Torrent → Bool) :
    m.KeptBy (m.torrents.torrents.filter fun it => (m.torrents.value it).any pass) ↔
      m.PassesAtRow pass := by
  refine forall_congr' fun row => forall_congr' fun torrent => imp_congr_right fun _ => ?_
  generalize hpasses : (fun it => (m.torrents.value it).any pass) = passes
  constructor
  · intro hkept
    cases hrow : (m.torrents.torrents.filter passes)[row]? with
    | none =>
      rw [List.getElem?_eq_none_iff, ← List.countP_eq_length_filter] at hrow
      exact .inl hrow
    | some it =>
      obtain ⟨i, hit, hpass, hcount⟩ := getElem?_filter_iff.mp hrow
      exact .inr ⟨i, it, hit, hkept it hrow, hpass, hcount⟩
  · rintro (hfew | ⟨i, it, hit, hpointer, hpass, hcount⟩) it' hit'
    · obtain ⟨hlt, -⟩ := List.getElem?_eq_some_iff.mp hit'
      rw [← List.countP_eq_length_filter] at hlt
      omega
    · have hrow := getElem?_filter_iff.mpr ⟨i, hit, hpass, hcount⟩
      cases hrow.symm.trans hit'
      exact hpointer

theorem keptBy_filterData_iff [QtTables] {m : QTorrentDisplayModel} (h : m.torrents.WF) :
    m.KeptBy m.torrents.filterData.filteredTorrents ↔ m.PassesAtRow m.torrents.inView := by
  rw [TorrentStorrage.filterData_eq_filter h]
  exact keptBy_filter_iff m.torrents.inView

/-- A removal puts another torrent under the selection exactly when it takes a row at or
above it and a row follows. -/
theorem keptBy_erase_iff (h : m.Allocated) (hkept : m.KeptBy m.torrents.filteredTorrents)
    (infoHash : QString) :
    m.KeptBy (m.torrents.filteredTorrents.erase infoHash) ↔ m.Below infoHash := by
  by_cases hmem : infoHash ∈ m.torrents.filteredTorrents
  · obtain ⟨k, hk, rfl⟩ := List.getElem_of_mem hmem
    have hidx := h.wf.filtered_nodup.idxOf_getElem k hk
    rw [List.erase_eq_eraseIdx_of_idxOf hidx]
    constructor
    · intro hafter row torrent hselects k' hk'
      obtain ⟨hlt', hk'⟩ := List.getElem?_eq_some_iff.mp hk'
      have hkk : k' = k := h.wf.filtered_nodup.getElem_inj_iff.mp hk'
      by_contra hnot
      have hrow : k ≤ row ∧ row + 1 < m.torrents.filteredTorrents.length := by omega
      have hat := List.getElem?_eq_getElem (show row < m.torrents.filteredTorrents.length by omega)
      have hnext := List.getElem?_eq_getElem hrow.2
      have hpointer := hkept row torrent hselects _ hat
      have hmoved := hafter row torrent hselects _
        (by rw [List.getElem?_eraseIdx_of_ge hrow.1]; exact hnext)
      have hsame := h.injective _ _ (h.hasTorrent hat) (h.hasTorrent hnext)
        (hpointer.trans hmoved.symm)
      have hrows := h.wf.filtered_nodup.getElem_inj_iff.mp hsame
      omega
    · intro hbelow row torrent hselects it hit
      rw [Option.mem_def, List.getElem?_eraseIdx] at hit
      split_ifs at hit with hrow
      · exact hkept row torrent hselects it hit
      · obtain ⟨hlt, -⟩ := List.getElem?_eq_some_iff.mp hit
        have hplace := hbelow row torrent hselects k (List.getElem?_eq_getElem hk)
        omega
  · rw [List.erase_of_not_mem hmem]
    refine iff_of_true hkept fun row torrent _ k hk => ?_
    exact absurd (List.mem_of_getElem? hk) hmem

theorem keptBy_onTorrentRemove_iff (h : m.Allocated)
    (hkept : m.KeptBy m.torrents.filteredTorrents) (infoHash : QString) :
    (m.onTorrentRemove infoHash).KeptBy (m.onTorrentRemove infoHash).torrents.filteredTorrents ↔
      m.Below infoHash := by
  rw [← keptBy_erase_iff h hkept infoHash, onTorrentRemove, TorrentStorrage.remove_eq h.wf]
  exact Iff.rfl

theorem keptBy_addTorrent_iff (h : m.Allocated) (hfault : m.fault = none)
    (hkept : m.KeptBy m.torrents.filteredTorrents) (t : Torrent) :
    (m.addTorrent t).KeptBy (m.addTorrent t).torrents.filteredTorrents ↔
      (m.torrents.hasTorrent t.getInfoHash = false →
        TorrentStorrage.showsAppended m.torrents.torrentFilter t = true →
          ∀ torrent, ¬ m.Selects m.torrents.filteredTorrents.length torrent) := by
  by_cases hhas : m.torrents.hasTorrent t.getInfoHash = true
  · have hsame : (m.addTorrent t).KeptBy (m.addTorrent t).torrents.filteredTorrents ↔
        m.KeptBy m.torrents.filteredTorrents := by
      simp only [addTorrent, TorrentStorrage.append, hhas, if_true]
      exact Iff.rfl
    rw [hsame]
    exact iff_of_true hkept fun hnot => absurd hhas (by simp [hnot])
  · have hnot : m.torrents.hasTorrent t.getInfoHash = false := by simpa using hhas
    have hold : ∀ (row : Nat) it, m.torrents.filteredTorrents[row]? = some it →
        (m.addTorrent t).pointers it = m.pointers it := by
      intro row it hit
      have hne : it ≠ t.getInfoHash := by
        rintro rfl
        exact hhas (h.hasTorrent hit)
      simp only [addTorrent, hnot, Bool.false_eq_true, if_false]
      exact Function.update_of_ne hne _ _
    have hnew : (m.addTorrent t).pointers t.getInfoHash = m.allocated := by
      simp only [addTorrent, hnot, Bool.false_eq_true, if_false]
      exact Function.update_self _ _ _
    by_cases hshown : TorrentStorrage.showsAppended m.torrents.torrentFilter t = true
    · have hrows : (m.addTorrent t).torrents.filteredTorrents =
          m.torrents.filteredTorrents ++ [t.getInfoHash] := by
        simp [addTorrent, TorrentStorrage.append, hnot, hshown]
      rw [hrows]
      constructor
      · intro hafter _ _ torrent hselects
        have hpointer := hafter _ torrent hselects t.getInfoHash
          (by rw [Option.mem_def, List.getElem?_concat_length])
        have hlt := h.selected_lt hfault _ torrent hselects
        rw [hnew] at hpointer
        omega
      · intro hnone row torrent hselects it hit
        rw [Option.mem_def, List.getElem?_append] at hit
        split_ifs at hit with hrow
        · rw [hold row it hit]
          exact hkept row torrent hselects it hit
        · obtain ⟨hzero, rfl⟩ : row - m.torrents.filteredTorrents.length = 0 ∧ it = t.getInfoHash := by
            simpa [eq_comm] using List.getElem?_eq_some_iff.mp hit
          have hlast : row = m.torrents.filteredTorrents.length := by omega
          exact absurd (hlast ▸ hselects) (hnone hnot hshown torrent)
    · have hrows : (m.addTorrent t).torrents.filteredTorrents = m.torrents.filteredTorrents := by
        simp [addTorrent, TorrentStorrage.append, hnot, hshown]
      rw [hrows]
      refine iff_of_true (fun row torrent hselects it hit => ?_) fun _ hyes => absurd hyes hshown
      rw [hold row it hit]
      exact hkept row torrent hselects it hit

theorem removeRow_of_shown (h : m.Allocated) {row : Nat} {it : QString}
    (hit : m.torrents.filteredTorrents[row]? = some it) :
    ∃ t, m.torrents.value it = some t ∧
      m.removeRow row =
        (if some (m.pointers it) = m.currentTorrent then { m with currentTorrent := none }
          else m).onTorrentRemove t.handle.infoHash.hex := by
  obtain ⟨hlt, hget⟩ := List.getElem?_eq_some_iff.mp hit
  obtain ⟨t, ht⟩ := h.wf.value_isSome (hget ▸ List.getElem_mem hlt)
  obtain ⟨hin, hne⟩ := m.torrents.row_in_range hlt
  refine ⟨t, ht, ?_⟩
  rw [removeRow, if_neg hin, rowCount, if_neg hne, h.wf.atIndex_eq hlt, hit]
  simp only [Option.map_some, Option.bind_some]
  split_ifs
  · simp only [ht]
  · simp only [ht]

theorem removeRow_of_not_shown {row : Int}
    (hrow : ∀ n : Nat, row = n → m.torrents.filteredTorrents[n]? = none) :
    m.removeRow row = m ∨ ∃ f c, m.removeRow row = { m with fault := some f, currentTorrent := c } := by
  rw [removeRow]
  split_ifs with hin hzero
  · exact .inl rfl
  · exact .inl rfl
  · refine .inr ?_
    obtain ⟨n, rfl⟩ : ∃ n : Nat, row = n := ⟨row.toNat, by omega⟩
    have hnone := hrow n rfl
    rw [TorrentStorrage.atIndex, Int.toNat_natCast, hnone]
    by_cases hmap : (n : Int) < m.torrents.torrentsMap.length
    · rw [if_pos hmap, if_pos (Int.natCast_nonneg n)]
      exact ⟨.indexOutOfRange, m.currentTorrent, rfl⟩
    · rw [if_neg hmap]
      dsimp only [Option.map_none, Option.bind_none]
      split_ifs with hcurrent
      · exact ⟨.nullPointer, none, rfl⟩
      · exact ⟨.nullPointer, m.currentTorrent, rfl⟩

theorem removeRow_cases (h : m.Allocated) (row : Int) :
    (∃ (n : Nat) (it : QString) (t : Torrent), row = n ∧ m.torrents.filteredTorrents[n]? = some it ∧
      m.torrents.value it = some t ∧ m.removeRow row =
        (if some (m.pointers it) = m.currentTorrent then { m with currentTorrent := none }
          else m).onTorrentRemove t.handle.infoHash.hex) ∨
    (∀ n : Nat, row = n → m.torrents.filteredTorrents[n]? = none) ∧
      (m.removeRow row = m ∨
        ∃ f c, m.removeRow row = { m with fault := some f, currentTorrent := c }) := by
  by_cases hshown : ∃ n : Nat, row = n ∧ ∃ it, m.torrents.filteredTorrents[n]? = some it
  · obtain ⟨n, rfl, it, hit⟩ := hshown
    obtain ⟨t, ht, hremove⟩ := removeRow_of_shown h hit
    exact .inl ⟨n, it, t, rfl, hit, ht, hremove⟩
  · have hnone : ∀ n : Nat, row = n → m.torrents.filteredTorrents[n]? = none := by
      intro n hn
      by_contra hsome
      exact hshown ⟨n, hn, Option.ne_none_iff_exists'.mp hsome⟩
    exact .inr ⟨hnone, removeRow_of_not_shown hnone⟩

def RemovesBelow (m : QTorrentDisplayModel) (row : Int) : Prop :=
  ∀ n : Nat, row = n → ∀ it ∈ m.torrents.filteredTorrents[n]?, ∀ t ∈ m.torrents.value it,
    m.currentTorrent ≠ some (m.pointers it) → m.Below t.handle.infoHash.hex

theorem keptBy_removeRow_iff (h : m.Allocated) (hfault : m.fault = none)
    (hkept : m.KeptBy m.torrents.filteredTorrents) (row : Int) :
    ((m.removeRow row).fault = none →
        (m.removeRow row).KeptBy (m.removeRow row).torrents.filteredTorrents) ↔
      m.RemovesBelow row := by
  obtain ⟨n, it, t, rfl, hit, ht, hremove⟩ | ⟨hnone, hended⟩ := removeRow_cases h row
  · have hbelow : m.RemovesBelow n ↔
        (m.currentTorrent ≠ some (m.pointers it) → m.Below t.handle.infoHash.hex) := by
      constructor
      · exact fun hall => hall n rfl it hit t ht
      · intro hone n' hn it' hit' t' ht'
        obtain rfl : n = n' := by omega
        cases hit.symm.trans hit'
        cases ht.symm.trans ht'
        exact hone
    rw [hbelow, hremove]
    split_ifs with hcurrent
    · refine iff_of_true (fun _ row' torrent hselects => ?_) fun hne => absurd hcurrent.symm hne
      exact absurd hselects.2 (by simp [onTorrentRemove])
    · have hne : m.currentTorrent ≠ some (m.pointers it) := fun heq => hcurrent heq.symm
      rw [imp_iff_right hne, ← keptBy_onTorrentRemove_iff h hkept]
      exact imp_iff_right hfault
  · have hvacuous : m.RemovesBelow row := by
      intro n hn it hit
      rw [hnone n hn] at hit
      exact absurd hit (Option.not_mem_none it)
    refine iff_of_true ?_ hvacuous
    obtain hsame | ⟨f, c, hfaulty⟩ := hended
    · rw [hsame]
      exact fun _ => hkept
    · rw [hfaulty]
      exact fun hno => absurd hno (Option.some_ne_none f)

theorem UpdateSelectedIndex_cases (m : QTorrentDisplayModel) (indexes : List Nat) :
    (∃ row it, m.torrents.filteredTorrents[row]? = some it ∧ m.UpdateSelectedIndex indexes =
        { m with selectedRow := (row : Nat), currentTorrent := some (m.pointers it) }) ∨
      (∃ row, m.UpdateSelectedIndex indexes =
        { m with selectedRow := row, currentTorrent := none }) ∨
      ∃ row f, m.UpdateSelectedIndex indexes =
        { m with selectedRow := row, fault := some f } := by
  match indexes with
  | [] => exact .inr (.inl ⟨-1, rfl⟩)
  | [row] =>
    by_cases hmap : (row : Int) < m.torrents.torrentsMap.length
    · cases hrow : m.torrents.filteredTorrents[row]? with
      | none =>
        refine .inr (.inr ⟨row, .indexOutOfRange, ?_⟩)
        simp [UpdateSelectedIndex, pointerAt, TorrentStorrage.atIndex, hmap, hrow, Except.map]
      | some it =>
        refine .inl ⟨row, it, hrow, ?_⟩
        simp [UpdateSelectedIndex, pointerAt, TorrentStorrage.atIndex, hmap, hrow, Except.map]
    · refine .inr (.inl ⟨row, ?_⟩)
      simp [UpdateSelectedIndex, pointerAt, TorrentStorrage.atIndex, hmap, Except.map]
  | _ :: _ :: _ => exact .inr (.inl ⟨-1, rfl⟩)

theorem keptBy_UpdateSelectedIndex (m : QTorrentDisplayModel) (indexes : List Nat) :
    (m.UpdateSelectedIndex indexes).fault = none →
      (m.UpdateSelectedIndex indexes).KeptBy
        (m.UpdateSelectedIndex indexes).torrents.filteredTorrents := by
  obtain ⟨row, it, hit, hselect⟩ | ⟨row, hselect⟩ | ⟨row, f, hselect⟩ :=
    m.UpdateSelectedIndex_cases indexes
  · rw [hselect]
    rintro - row' torrent ⟨hrow, htorrent⟩ it' hit'
    have hrows : row' = row := by
      have hcast : (row : Int) = row' := hrow
      omega
    subst hrows
    cases hit.symm.trans hit'
    exact Option.some.inj htorrent
  · rw [hselect]
    rintro - row' torrent ⟨-, htorrent⟩
    exact absurd htorrent.symm (Option.some_ne_none torrent)
  · rw [hselect]
    exact fun hno => absurd hno (Option.some_ne_none f)

/-! ### What stays allocated -/

theorem Allocated.of_store (h : m.Allocated) {s : TorrentStorrage} (hwf : s.WF)
    (hsub : ∀ a, s.hasTorrent a = true → m.torrents.hasTorrent a = true) :
    Allocated { m with torrents := s } :=
  ⟨hwf, fun a b ha hb => h.injective a b (hsub a ha) (hsub b hb), fun a ha => h.lt a (hsub a ha),
    h.selected_lt⟩

theorem Allocated.of_selection (h : m.Allocated) (row : Int) (torrent : Option Nat)
    (fault : Option Fault) (hlt : fault = none → ∀ t ∈ torrent, t < m.allocated) :
    Allocated { m with selectedRow := row, currentTorrent := torrent, fault := fault } :=
  ⟨h.wf, h.injective, h.lt, fun hno _ t hselects => hlt hno t hselects.2⟩

theorem Allocated.onTorrentRemove (h : m.Allocated) (infoHash : QString) :
    (m.onTorrentRemove infoHash).Allocated :=
  h.of_store (TorrentStorrage.remove_wf h.wf infoHash) fun a ha =>
    ((TorrentStorrage.hasTorrent_remove h.wf infoHash a).mp ha).1

theorem Allocated.addTorrent (h : m.Allocated) (t : Torrent) : (m.addTorrent t).Allocated := by
  by_cases hhas : m.torrents.hasTorrent t.getInfoHash = true
  · have hsame : m.addTorrent t = { m with allocated := m.allocated + 1 } := by
      simp [QTorrentDisplayModel.addTorrent, TorrentStorrage.append, hhas]
    rw [hsame]
    exact ⟨h.wf, h.injective, fun a ha => Nat.lt_succ_of_lt (h.lt a ha),
      fun hno row torrent hselects => Nat.lt_succ_of_lt (h.selected_lt hno row torrent hselects)⟩
  · have hpointers : (m.addTorrent t).pointers =
        Function.update m.pointers t.getInfoHash m.allocated := if_neg hhas
    have hold : ∀ a, (m.addTorrent t).torrents.hasTorrent a = true →
        a = t.getInfoHash ∧ (m.addTorrent t).pointers a = m.allocated ∨
          m.torrents.hasTorrent a = true ∧ (m.addTorrent t).pointers a = m.pointers a := by
      intro a ha
      rw [hpointers]
      by_cases heq : a = t.getInfoHash
      · exact .inl ⟨heq, by rw [heq, Function.update_self]⟩
      · exact .inr ⟨((TorrentStorrage.hasTorrent_append _ t a).mp ha).resolve_left heq,
          Function.update_of_ne heq _ _⟩
    refine ⟨TorrentStorrage.append_wf h.wf t, fun a b ha hb hab => ?_, fun a ha => ?_,
      fun hno row torrent hselects => Nat.lt_succ_of_lt (h.selected_lt hno row torrent hselects)⟩
    · obtain ⟨rfl, hpa⟩ | ⟨ha, hpa⟩ := hold a ha
      · obtain ⟨rfl, -⟩ | ⟨hb, hpb⟩ := hold b hb
        · rfl
        · have hlt := h.lt b hb
          omega
      · obtain ⟨rfl, hpb⟩ | ⟨hb, hpb⟩ := hold b hb
        · have hlt := h.lt a ha
          omega
        · exact h.injective a b ha hb (by rw [← hpa, ← hpb, hab])
    · have hallocated : (m.addTorrent t).allocated = m.allocated + 1 := rfl
      obtain ⟨-, hpa⟩ | ⟨ha, hpa⟩ := hold a ha
      · omega
      · have hlt := h.lt a ha
        omega

theorem Allocated.removeRow (h : m.Allocated) (row : Int) : (m.removeRow row).Allocated := by
  obtain ⟨n, it, t, rfl, -, -, hremove⟩ | ⟨-, hsame | ⟨f, c, hfaulty⟩⟩ := removeRow_cases h row
  · rw [hremove]
    split_ifs
    · exact (h.of_selection m.selectedRow none m.fault
        fun _ t ht => absurd ht (Option.not_mem_none t)).onTorrentRemove _
    · exact h.onTorrentRemove _
  · rwa [hsame]
  · rw [hfaulty]
    exact h.of_selection m.selectedRow c (some f) fun hno => absurd hno (Option.some_ne_none f)

theorem Allocated.UpdateSelectedIndex (h : m.Allocated) (indexes : List Nat) :
    (m.UpdateSelectedIndex indexes).Allocated := by
  obtain ⟨row, it, hit, hselect⟩ | ⟨row, hselect⟩ | ⟨row, f, hselect⟩ :=
    m.UpdateSelectedIndex_cases indexes
  · rw [hselect]
    refine h.of_selection row _ m.fault fun _ t ht => ?_
    cases ht
    exact h.lt it (h.hasTorrent hit)
  · rw [hselect]
    exact h.of_selection row none m.fault fun _ t ht => absurd ht (Option.not_mem_none t)
  · rw [hselect]
    exact h.of_selection row _ (some f) fun hno => absurd hno (Option.some_ne_none f)

end

theorem allocated_initial (filterType : FilterType) (currentTorrent : Option Nat) :
    (initial filterType currentTorrent).Allocated := by
  refine ⟨TorrentStorrage.initial_wf filterType, ?_, ?_, ?_⟩
  · intro a b ha
    exact absurd ha Bool.false_ne_true
  · intro a ha
    exact absurd ha Bool.false_ne_true
  · rintro - row torrent ⟨hrow, -⟩
    have hneg : (-1 : Int) = row := hrow
    omega

theorem neverStale_initial (filterType : FilterType) (currentTorrent : Option Nat) :
    (initial filterType currentTorrent).NeverStale := by
  intro _ torrent htorrent
  exact absurd htorrent (Option.not_mem_none torrent)

section
variable [QtTables] [QtAlgorithms]

theorem allocated_step (m : QTorrentDisplayModel) (op : Op) (h : m.Allocated) :
    (m.step op).Allocated := by
  unfold step
  split_ifs
  · exact h
  · cases op with
    | updateSelectedIndex indexes => exact h.UpdateSelectedIndex indexes
    | addTorrent t => exact h.addTorrent t
    | removeRow row => exact h.removeRow row
    | onTorrentRemove infoHash => exact h.onTorrentRemove infoHash
    | filterData => exact h.of_store (TorrentStorrage.filterData_wf h.wf) fun _ ha => ha
    | setTorrentFilter filter =>
      exact h.of_store (TorrentStorrage.refresh_wf _ (.setTorrentFilter filter) h.wf) fun _ ha => ha
    | setGroupFilter filter =>
      exact h.of_store (TorrentStorrage.refresh_wf _ (.setGroupFilter filter) h.wf) fun _ ha => ha
    | changeTorrent it isValid status isSeed group =>
      refine h.of_store (TorrentStorrage.changeTorrent_wf h.wf it isValid status isSeed group)
        fun a ha => ?_
      simpa [TorrentStorrage.hasTorrent, TorrentStorrage.changeTorrent, Assoc.contains_iff] using ha
    | sort getName => exact h.of_store (TorrentStorrage.sort_wf getName h.wf) fun _ ha => ha

/-- When a step leaves the selected torrent at its row: as many torrents pass a new filter
in front of it, or too few for its row; a new torrent does not come under the selection;
and a removal takes the selected torrent by its row, or one below it, or leaves no row at
its place. -/
def LeavesSelected (m : QTorrentDisplayModel) (op : Op) : Prop :=
  m.fault = none →
    match op with
    | .addTorrent t =>
      m.torrents.hasTorrent t.getInfoHash = false →
        TorrentStorrage.showsAppended m.torrents.torrentFilter t = true →
          ∀ torrent, ¬ m.Selects m.torrents.filteredTorrents.length torrent
    | .removeRow row => m.RemovesBelow row
    | .onTorrentRemove infoHash => m.Below infoHash
    | .filterData => m.PassesAtRow m.torrents.inView
    | .setTorrentFilter filter => m.PassesAtRow (TorrentStorrage.showsFiltered filter)
    | .setGroupFilter filter =>
      m.PassesAtRow fun t => decide (filter = []) || equalsCaseInsensitive t.group filter
    | .updateSelectedIndex _ | .changeTorrent .. | .sort _ => True

theorem neverStale_step_iff {m : QTorrentDisplayModel} (h : m.Allocated) (hnever : m.NeverStale)
    (op : Op) : (m.step op).NeverStale ↔ m.LeavesSelected op := by
  rw [neverStale_iff (allocated_step m op h)]
  rw [neverStale_iff h] at hnever
  unfold step LeavesSelected
  split_ifs with hfault
  · have hnot : m.fault ≠ none := Option.isSome_iff_ne_none.mp hfault
    exact iff_of_true (fun hno => absurd hno hnot) fun hno => absurd hno hnot
  · have hno : m.fault = none := Option.not_isSome_iff_eq_none.mp hfault
    have hkept := hnever hno
    rw [imp_iff_right hno]
    cases op with
    | updateSelectedIndex indexes => exact iff_of_true (keptBy_UpdateSelectedIndex m indexes) trivial
    | addTorrent t => exact (imp_iff_right hno).trans (keptBy_addTorrent_iff h hno hkept t)
    | removeRow row => exact keptBy_removeRow_iff h hno hkept row
    | onTorrentRemove infoHash =>
      exact (imp_iff_right hno).trans (keptBy_onTorrentRemove_iff h hkept infoHash)
    | filterData => exact (imp_iff_right hno).trans (keptBy_filterData_iff (m := m) h.wf)
    | setTorrentFilter filter =>
      let s : TorrentStorrage :=
        { m.torrents with filterType := .torrent, torrentFilter := filter, groupFilter := [] }
      have hwf : s.WF := ⟨h.wf.keys_nodup, h.wf.torrents_perm, h.wf.filtered_nodup,
        h.wf.filtered_subset, h.wf.keyed⟩
      exact (imp_iff_right hno).trans (keptBy_filterData_iff (m := { m with torrents := s }) hwf)
    | setGroupFilter filter =>
      let s : TorrentStorrage := { m.torrents with filterType := .group, groupFilter := filter }
      have hwf : s.WF := ⟨h.wf.keys_nodup, h.wf.torrents_perm, h.wf.filtered_nodup,
        h.wf.filtered_subset, h.wf.keyed⟩
      exact (imp_iff_right hno).trans (keptBy_filterData_iff (m := { m with torrents := s }) hwf)
    | changeTorrent it isValid status isSeed group => exact iff_of_true (fun _ => hkept) trivial
    | sort getName => exact iff_of_true (fun _ => hkept) trivial

/-- In every run from the constructor the selected torrent is never stale exactly when
every step leaves it at its row. -/
theorem never_stale_iff (filterType : FilterType) (currentTorrent : Option Nat) (ops : List Op) :
    Runs.Throughout step NeverStale (initial filterType currentTorrent) ops ↔
      Runs.Along step LeavesSelected (initial filterType currentTorrent) ops := by
  have hallocated := Runs.throughout_of_step allocated_step
    (allocated_initial filterType currentTorrent) ops
  have hboth := Runs.throughout_iff_along (P := fun m => Allocated m ∧ NeverStale m)
    (C := LeavesSelected)
    (fun m op hm => (and_iff_right (allocated_step m op hm.1)).trans
      (neverStale_step_iff hm.1 hm.2 op))
    ⟨allocated_initial filterType currentTorrent, neverStale_initial filterType currentTorrent⟩ ops
  rw [← hboth, Runs.throughout_and, and_iff_right hallocated]

end

section runs
local instance asciiTables : QtTables := TorrentStorrage.asciiCase

def firstOfTwo : Torrent := TorrentStorrage.downloadingTorrent 0

def secondOfTwo : Torrent :=
  ⟨⟨true, ⟨List.replicate 20 0xBB, rfl⟩, ⟨.downloading, 0, 0, 0⟩, false⟩, []⟩

def browserRemoves : List Op :=
  [.addTorrent firstOfTwo, .addTorrent secondOfTwo, .updateSelectedIndex [0],
    .onTorrentRemove firstOfTwo.getInfoHash]

theorem removed_torrent_selected :
    ¬ ∀ (_ : QtTables) (_ : QtAlgorithms) (filterType : FilterType) (currentTorrent : Option Nat)
      (ops : List Op),
      Runs.Throughout step NeverStale (initial filterType currentTorrent) ops := by
  intro h
  have hlast := (h asciiTables insertionSorting .torrent none browserRemoves).last
  obtain ⟨it, hit, -, hpointer⟩ := hlast (by decide +kernel) 0 (by decide +kernel)
  have hrow : (Runs.final (@step asciiTables insertionSorting) (initial .torrent none)
      browserRemoves).torrents.filteredTorrents[(0 : Int).toNat]? =
        some secondOfTwo.getInfoHash := by
    decide +kernel
  have hsecond : (Runs.final (@step asciiTables insertionSorting) (initial .torrent none)
      browserRemoves).pointers secondOfTwo.getInfoHash = 1 := by
    decide +kernel
  cases hit.symm.trans hrow
  rw [hsecond] at hpointer
  exact absurd hpointer (by decide)

end runs

end QTorrentDisplayModel
end CuteTorrent
