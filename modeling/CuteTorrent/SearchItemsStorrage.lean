import CuteTorrent.TorrentStorrage

/-! `SearchItemsStorrage`: the results of a search, and those of them that the view
shows under an engine. -/
namespace CuteTorrent

structure SearchResult where
  Name : QString
  TorrentFileUrl : QString
  TorrentDescUrl : QString
  Engine : QString
  leechers : Int
  seeders : Int
  size : Int
deriving DecidableEq

/-- `SearchResult*`: a place, and what lies there. -/
structure ResultPointer where
  address : Nat
  result : SearchResult
deriving DecidableEq

/-- `append` keeps every pointer from being held twice. -/
structure SearchItemsStorrage where
  m_items : List ResultPointer
  m_filteredItems : List ResultPointer
  m_sEngineName : QString
  items_nodup : m_items.Nodup

namespace SearchItemsStorrage

def initial : SearchItemsStorrage := ⟨[], [], [], List.nodup_nil⟩

inductive Op where
  | append (item : ResultPointer)
  | appendList (items : List ResultPointer)
  | remove (item : ResultPointer)
  | clear
  | setFilter (engineName : QString)

theorem foldl_append_if (p : ResultPointer → Bool) (items shown : List ResultPointer) :
    items.foldl (fun shown item => if p item then shown ++ [item] else shown) shown =
      shown ++ items.filter p := by
  induction items generalizing shown with
  | nil => simp
  | cons item items ih =>
    rw [List.foldl_cons, ih, List.filter_cons]
    split_ifs
    · rw [List.append_assoc, List.singleton_append]
    · rfl

theorem eq_nil_of_filter_not_eq_filter {p : ResultPointer → Bool} {l : List ResultPointer}
    (h : (l.filter fun a => !p a) = l.filter p) : l = [] := by
  rw [List.eq_nil_iff_forall_not_mem]
  intro a ha
  cases hp : p a with
  | false =>
    have hmem : a ∈ l.filter fun a => !p a := List.mem_filter.mpr ⟨ha, by simp [hp]⟩
    rw [h, List.mem_filter, hp] at hmem
    exact absurd hmem.2 Bool.false_ne_true
  | true =>
    have hmem : a ∈ l.filter p := List.mem_filter.mpr ⟨ha, hp⟩
    rw [← h, List.mem_filter, hp] at hmem
    exact absurd hmem.2 Bool.false_ne_true

section
variable [QtTables]

def isOf (engineName : QString) (item : ResultPointer) : Bool :=
  equalsCaseInsensitive item.result.Engine engineName

def filterData (s : SearchItemsStorrage) : SearchItemsStorrage :=
  if s.m_sEngineName = [] then { s with m_filteredItems := s.m_items }
  else
    { s with
      m_filteredItems := s.m_items.foldl
        (fun shown item => if isOf s.m_sEngineName item then shown ++ [item] else shown) [] }

def setFilter (s : SearchItemsStorrage) (engineName : QString) : SearchItemsStorrage :=
  filterData { s with m_sEngineName := engineName }

/-- Under an engine, the item is shown when `compare` is not zero. -/
def append (s : SearchItemsStorrage) (item : ResultPointer) : SearchItemsStorrage :=
  if h : item ∈ s.m_items then s
  else
    { s with
      m_items := s.m_items ++ [item]
      m_filteredItems :=
        if s.m_sEngineName = [] then s.m_filteredItems ++ [item]
        else if !isOf s.m_sEngineName item then s.m_filteredItems ++ [item]
        else s.m_filteredItems
      items_nodup := List.concat_eq_append ▸ s.items_nodup.concat h }

def appendList (s : SearchItemsStorrage) (items : List ResultPointer) : SearchItemsStorrage :=
  items.foldl append s

def remove (s : SearchItemsStorrage) (item : ResultPointer) : SearchItemsStorrage :=
  if item ∈ s.m_items then
    { s with
      m_filteredItems := s.m_filteredItems.erase item
      m_items := s.m_items.erase item
      items_nodup := s.items_nodup.erase item }
  else s

def clear (s : SearchItemsStorrage) : SearchItemsStorrage :=
  { s with m_items := [], m_filteredItems := [], items_nodup := List.nodup_nil }

def step (s : SearchItemsStorrage) : Op → SearchItemsStorrage
  | .append item => s.append item
  | .appendList items => s.appendList items
  | .remove item => s.remove item
  | .clear => s.clear
  | .setFilter engineName => s.setFilter engineName

def view (engineName : QString) (items : List ResultPointer) : List ResultPointer :=
  if engineName = [] then items else items.filter (isOf engineName)

def ShowsView (s : SearchItemsStorrage) : Prop := s.m_filteredItems = view s.m_sEngineName s.m_items

def ComesUnfiltered (s : SearchItemsStorrage) : Op → Prop
  | .append item => s.m_sEngineName = [] ∨ item ∈ s.m_items
  | .appendList items => s.m_sEngineName = [] ∨ ∀ item ∈ items, item ∈ s.m_items
  | _ => True

variable {s : SearchItemsStorrage}

theorem showsView_filterData (s : SearchItemsStorrage) : ShowsView s.filterData := by
  rw [filterData, ShowsView, view]
  split_ifs with h
  · rfl
  · exact foldl_append_if (isOf s.m_sEngineName) s.m_items []

theorem showsView_remove (h : ShowsView s) (item : ResultPointer) : ShowsView (s.remove item) := by
  rw [ShowsView, view] at h
  rw [remove]
  split_ifs with hin
  · rw [ShowsView, view]
    split_ifs at h ⊢ with hname
    · exact congrArg (fun l => l.erase item) h
    · have herase : (s.m_items.filter (isOf s.m_sEngineName)).erase item =
          (s.m_items.erase item).filter (isOf s.m_sEngineName) := by
        rw [(s.items_nodup.filter _).erase_eq_filter, s.items_nodup.erase_eq_filter,
          List.filter_filter, List.filter_filter]
        exact List.filter_congr fun a _ => Bool.and_comm _ _
      exact (congrArg (fun l => l.erase item) h).trans herase
  · exact h

theorem exists_appended (s : SearchItemsStorrage) (items : List ResultPointer) :
    ∃ added, (s.appendList items).m_items = s.m_items ++ added ∧
      (s.appendList items).m_sEngineName = s.m_sEngineName ∧
      (s.appendList items).m_filteredItems = s.m_filteredItems ++
        (if s.m_sEngineName = [] then added else added.filter fun item => !isOf s.m_sEngineName item) ∧
      (added = [] ↔ ∀ item ∈ items, item ∈ s.m_items) := by
  induction items generalizing s with
  | nil => exact ⟨[], by simp [appendList]⟩
  | cons item items ih =>
    obtain ⟨added, hitems, hname, hshown, hnone⟩ := ih (s.append item)
    have hcons : s.appendList (item :: items) = (s.append item).appendList items := rfl
    rw [hcons]
    by_cases hin : item ∈ s.m_items
    · have hsame : s.append item = s := dif_pos hin
      rw [hsame] at hitems hname hshown hnone ⊢
      exact ⟨added, hitems, hname, hshown, by rw [hnone, List.forall_mem_cons, and_iff_right hin]⟩
    · have hnew : (s.append item).m_items = s.m_items ++ [item] := by rw [append, dif_neg hin]
      have hengine : (s.append item).m_sEngineName = s.m_sEngineName := by rw [append, dif_neg hin]
      have hview : (s.append item).m_filteredItems = s.m_filteredItems ++
          (if s.m_sEngineName = [] then [item]
          else [item].filter fun item => !isOf s.m_sEngineName item) := by
        rw [append, dif_neg hin]
        dsimp only
        split_ifs with hempty hmatch
        · rfl
        · have hone : [item].filter (fun item => !isOf s.m_sEngineName item) = [item] :=
            List.filter_cons_of_pos hmatch
          rw [hone]
        · have hnone : [item].filter (fun item => !isOf s.m_sEngineName item) = [] :=
            List.filter_cons_of_neg hmatch
          rw [hnone, List.append_nil]
      refine ⟨item :: added, ?_, hname.trans hengine, ?_, ?_⟩
      · rw [hitems, hnew, List.append_assoc, List.singleton_append]
      · rw [hshown, hengine, hview, List.append_assoc]
        split_ifs
        · rfl
        · rw [← List.filter_append, List.singleton_append]
      · exact iff_of_false (List.cons_ne_nil _ _) fun hall => hin (hall item List.mem_cons_self)

theorem showsView_appendList_iff (h : ShowsView s) (items : List ResultPointer) :
    ShowsView (s.appendList items) ↔ s.m_sEngineName = [] ∨ ∀ item ∈ items, item ∈ s.m_items := by
  obtain ⟨added, hitems, hname, hshown, hnone⟩ := s.exists_appended items
  rw [ShowsView, hitems, hname, hshown, h, ← hnone, view, view]
  split_ifs with hempty
  · exact iff_of_true rfl (.inl hempty)
  · rw [List.filter_append, List.append_right_inj, or_iff_right hempty]
    constructor
    · exact eq_nil_of_filter_not_eq_filter
    · rintro rfl
      rfl

theorem showsView_step_iff (h : ShowsView s) (op : Op) : ShowsView (s.step op) ↔ ComesUnfiltered s op := by
  cases op with
  | append item =>
    have hone : s.append item = s.appendList [item] := rfl
    rw [step, hone, showsView_appendList_iff h, List.forall_mem_singleton]
    exact Iff.rfl
  | appendList items => exact showsView_appendList_iff h items
  | remove item => exact iff_of_true (showsView_remove h item) trivial
  | clear =>
    refine iff_of_true ?_ trivial
    rw [ShowsView, view]
    split_ifs <;> rfl
  | setFilter engineName => exact iff_of_true (showsView_filterData _) trivial

/-- The view shows the results of its engine exactly as long as nothing new comes in
while a filter is set. -/
theorem shows_view_iff (ops : List Op) :
    Runs.Throughout step ShowsView initial ops ↔ Runs.Along step ComesUnfiltered initial ops := by
  have hstart : ShowsView initial := rfl
  exact Runs.throughout_iff_along (P := ShowsView) (C := ComesUnfiltered)
    (fun _ op h => showsView_step_iff h op) hstart ops

end

section runs
local instance plainTables : QtTables := ⟨Char.toLower⟩

def resultOf (engine : QString) : ResultPointer := ⟨0, ⟨[], [], [], engine, 0, 0, 0⟩⟩

theorem result_of_engine_missing : ¬ ∀ ops, Runs.Throughout step ShowsView initial ops := by
  intro h
  have hlast := (h [.setFilter "rutor".toList, .append (resultOf "Rutor".toList)]).last
  revert hlast
  unfold ShowsView
  decide +kernel

end runs

end SearchItemsStorrage
end CuteTorrent
