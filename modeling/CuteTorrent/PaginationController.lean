import CuteTorrent.Library.Runs
import CuteTorrent.TorrentListView

/-! The pager as it is clicked through: the window of page links around the active
page, and what its links lead to. -/
namespace CuteTorrent
namespace PaginationView

/-- The pages that the links of the pagination template lead to: back, the window, forth. -/
def template (v : PaginationView) (navBegin navEnd : Int) : List Int :=
  (if v.pageActive > 1 then [v.pageActive - 1] else []) ++
  (List.range (navEnd - navBegin + 1).toNat).map (fun k => navBegin + Int.ofNat k) ++
  (if v.pageActive < v.pageCount then [v.pageActive + 1] else [])

/-- `PaginationController.changePage`; the page of a link is a number, which `parseInt`
leaves as it is. -/
def changePage (v : PaginationView) (page : Int) : PaginationView := { v with pageActive := page }

/-- The window that `render` shows lies around the active page and within the pages. -/
structure Window (v : PaginationView) (navBegin navEnd : Int) : Prop where
  first_page : 1 ≤ navBegin
  begin_le : navBegin ≤ v.pageActive
  le_end : v.pageActive ≤ navEnd
  last_page : navEnd ≤ v.pageCount
  length_le : navEnd - navBegin + 1 ≤ pageShow + 1

def Valid (v : PaginationView) : Prop := 1 ≤ v.pageActive ∧ v.pageActive ≤ v.pageCount

def centred (v : PaginationView) : Int × Int :=
  let range := pageShow / 2
  let navBegin := v.pageActive - range
  (if pageShow % 2 = 0 then navBegin + 1 else navBegin, v.pageActive + range)

def nearFirst : Int × Int → Int × Int
  | (navBegin, navEnd) =>
    if navBegin ≤ 2 then (1, if navBegin = 2 then pageShow + 1 else pageShow)
    else (navBegin, navEnd)

def nearLast (v : PaginationView) : Int × Int → Int × Int
  | (navBegin, navEnd) =>
    if navEnd ≥ v.pageCount - 1 then
      let navBegin := if v.pageCount > pageShow then v.pageCount - pageShow + 1 else navBegin
      (if navEnd = v.pageCount - 1 then navBegin - 1 else navBegin, v.pageCount)
    else (navBegin, navEnd)

theorem render_eq (v : PaginationView) :
    v.render = if v.pageCount > 1 then some (nearLast v (nearFirst v.centred)) else none := by
  unfold render centred nearLast nearFirst
  by_cases hcount : v.pageCount > 1
  · rw [if_pos hcount, if_pos hcount]
    dsimp only
    split
    · exact (apply_ite some _ _ _).symm
    · exact (apply_ite some _ _ _).symm
  · rw [if_neg hcount, if_neg hcount]

/-- What the adjustment at the first pages leaves: a window from the first page on, or one
of exactly `page_show` pages that begins behind the second. -/
def Adjusted (v : PaginationView) (navBegin navEnd : Int) : Prop :=
  navBegin ≤ v.pageActive ∧ v.pageActive ≤ navEnd ∧
  (navBegin = 1 ∧ (navEnd = pageShow ∨ navEnd = pageShow + 1 ∧ 2 ≤ v.pageActive) ∨
    2 < navBegin ∧ navEnd = navBegin + pageShow - 1)

theorem adjusted_nearFirst {v : PaginationView} (h : 1 ≤ v.pageActive) {navBegin navEnd : Int}
    (he : nearFirst v.centred = (navBegin, navEnd)) : Adjusted v navBegin navEnd := by
  have hcentred : v.centred = (v.pageActive - 4, v.pageActive + 5) :=
    Prod.ext (show v.pageActive - 5 + 1 = v.pageActive - 4 by omega) rfl
  have hshow : pageShow = 10 := rfl
  rw [hcentred, nearFirst] at he
  unfold Adjusted
  split_ifs at he <;> cases he <;> omega

theorem window_nearLast {v : PaginationView} (h : v.Valid) {navBegin navEnd first last : Int}
    (hadjusted : Adjusted v navBegin navEnd) (he : v.nearLast (navBegin, navEnd) = (first, last)) :
    Window v first last := by
  obtain ⟨hfirst, hlast⟩ := h
  obtain ⟨hbegin, hend, hends⟩ := hadjusted
  have hshow : pageShow = 10 := rfl
  simp only [nearLast] at he
  split_ifs at he <;> cases he <;> constructor <;> omega

theorem window_of_render {v : PaginationView} (h : v.Valid) {navBegin navEnd : Int}
    (hd : v.render = some (navBegin, navEnd)) : Window v navBegin navEnd := by
  rw [render_eq] at hd
  split_ifs at hd
  exact window_nearLast h (adjusted_nearFirst h.1 (Prod.eta _).symm) (Option.some.inj hd)

/-- The pager's window is a window of the pages, around the active one. -/
theorem render_window (page_count page_active : Int) (hcount : 2 ≤ page_count)
    (hfirst : 1 ≤ page_active) (hlast : page_active ≤ page_count) :
    ∃ nav_begin nav_end, render ⟨page_count, page_active⟩ = some (nav_begin, nav_end) ∧
      1 ≤ nav_begin ∧ nav_begin ≤ page_active ∧ page_active ≤ nav_end ∧
      nav_end ≤ page_count ∧ nav_end - nav_begin + 1 ≤ pageShow + 1 := by
  obtain ⟨⟨nav_begin, nav_end⟩, hd⟩ : ∃ d, render ⟨page_count, page_active⟩ = some d :=
    ⟨_, (render_eq _).trans (if_pos (show page_count > 1 by omega))⟩
  have hwindow : Window ⟨page_count, page_active⟩ nav_begin nav_end :=
    window_of_render ⟨hfirst, hlast⟩ hd
  exact ⟨nav_begin, nav_end, hd, hwindow.first_page, hwindow.begin_le, hwindow.le_end,
    hwindow.last_page, hwindow.length_le⟩

theorem render_window_fourteenth :
    ∃ nav_begin nav_end, render ⟨20, 14⟩ = some (nav_begin, nav_end) ∧
      1 ≤ nav_begin ∧ nav_begin ≤ 14 ∧ 14 ≤ nav_end ∧
      nav_end ≤ 20 ∧ nav_end - nav_begin + 1 ≤ pageShow + 1 :=
  render_window 20 14 (by decide) (by decide) (by decide)

theorem mem_template {v : PaginationView} {navBegin navEnd page : Int} :
    page ∈ template v navBegin navEnd ↔ v.pageActive > 1 ∧ page = v.pageActive - 1 ∨
      (navBegin ≤ page ∧ page ≤ navEnd) ∨
      v.pageActive < v.pageCount ∧ page = v.pageActive + 1 := by
  have hwindow : page ∈ (List.range (navEnd - navBegin + 1).toNat).map
      (fun k => navBegin + Int.ofNat k) ↔ navBegin ≤ page ∧ page ≤ navEnd := by
    rw [List.mem_map]
    constructor
    · rintro ⟨k, hk, rfl⟩
      rw [List.mem_range] at hk
      simp only [Int.ofNat_eq_natCast]
      omega
    · rintro ⟨hbegin, hend⟩
      refine ⟨(page - navBegin).toNat, List.mem_range.mpr (by omega), ?_⟩
      simp only [Int.ofNat_eq_natCast]
      omega
  rw [template, List.mem_append, List.mem_append, hwindow, or_assoc]
  split_ifs with hback hforth hforth <;> simp [hback, hforth]

theorem valid_changePage {v : PaginationView} (h : v.Valid) {navBegin navEnd page : Int}
    (hd : v.render = some (navBegin, navEnd)) (hpage : page ∈ template v navBegin navEnd) :
    (v.changePage page).Valid := by
  have hwindow : Window v navBegin navEnd := window_of_render h hd
  obtain ⟨hfirst, hlast⟩ := h
  have hbegin := hwindow.first_page
  have hend := hwindow.last_page
  show 1 ≤ page ∧ page ≤ v.pageCount
  rcases mem_template.mp hpage with ⟨hback, rfl⟩ | hmid | ⟨hforth, rfl⟩ <;> omega

def Shown (v : PaginationView) (page : Int) : Prop :=
  ∃ navBegin navEnd, v.render = some (navBegin, navEnd) ∧ page ∈ template v navBegin navEnd

/-- Over every sequence of clicks on links shown, the window stays valid. -/
theorem window_along {v : PaginationView} (h : v.Valid) {pages : List Int}
    (hpages : Runs.Along changePage Shown v pages) :
    Runs.Throughout changePage
      (fun v => ∀ navBegin navEnd, v.render = some (navBegin, navEnd) → Window v navBegin navEnd)
      v pages := by
  have hkept : Runs.Throughout changePage Valid v pages := by
    refine Runs.throughout_of_along ?_ h hpages
    rintro v page h ⟨navBegin, navEnd, hd, hpage⟩
    exact valid_changePage h hd hpage
  exact hkept.imp fun v h _ _ hd => window_of_render h hd

theorem valid_fetched {response : List QVariant} {d : Int × Int}
    (h : (TorrentListView.fetched response).render = some d) :
    (TorrentListView.fetched response).Valid := by
  rw [render_eq] at h
  split_ifs at h with hcount
  exact ⟨Int.le_refl 1, Int.le_of_lt hcount⟩

end PaginationView
end CuteTorrent
