import CuteTorrent.SearchPages
import CuteTorrent.SgmlElements

/-! From the text of a page to what a search provider makes of it. -/
namespace CuteTorrent
open QSgml Markup

namespace ExtratorrentSearchProvider
open SearchPage

section replies
variable [QtTables] [QtConversions]

def tableBody (doc : RoseTree SgmlTag) (tags : List (List Nat)) : Except Unread (List (RoseTree QSgmlTag)) :=
  match tags with
  | [] => .ok []
  | first :: _ =>
    match doc.seek first with
    | none => .error (.fault .nullPointer)
    | some resaltsTable =>
      .ok ((resaltsTable.map SgmlTag.toQSgmlTag).children.filter (isNamed "tr".toList))

def replyReady (p : Platform) (rounds : Nat) (iEnd : Int) (noError : Bool) (data : QString) :
    Except Unread (Option (List (Option SearchResult))) :=
  if noError then do
    let doc ← String2Sgml rounds iEnd data
    let tags ← getElementsByAtribute "class".toList "tl".toList rounds doc
    let rows ← tableBody doc tags
    if rows.isEmpty then return none
    else
      match ParseTableBody p ⟨data⟩ rows with
      | .error f => .error (.fault f)
      | .ok s => return some s.searchResults
  else .ok none

end replies

end ExtratorrentSearchProvider

namespace Markup
open SearchPage

def Shows (page : QString) (k : Nat) (v : RoseTree QSgmlTag) (n : Node) : Prop :=
  ∃ u, v = u.map SgmlTag.toQSgmlTag ∧ Placed page k u n

section shows
variable {page name : QString} {k : Nat} {v : RoseTree QSgmlTag} {n : Node}

theorem Shows.checkAttribute (h : Shows page k v n) (AtrName AtrValue : QString) :
    v.label.checkAttribute AtrName AtrValue = n.hasAttribute AtrName AtrValue := by
  obtain ⟨u, rfl, hu⟩ := h
  rw [RoseTree.map_eq]
  exact hu.checkAttribute AtrName AtrValue

/-- The value of an attribute; of several of a name the last one counts. -/
def Node.attributeValue (Key : QString) (n : Node) : QString :=
  (n.inner.bind fun i => Assoc.find Key i.attributes.reverse).getD []

theorem Shows.attributeValue (h : Shows page k v n) (Key : QString) :
    v.label.getAttributeValue Key = n.attributeValue Key := by
  obtain ⟨u, rfl, hu⟩ := h
  rw [RoseTree.map_eq, RoseTree.label, QSgmlTag.getAttributeValue, hu.label.2, Node.attributeValue]
  cases n.inner with
  | none => rfl
  | some i => rw [Option.map_some, Option.getD_some, stored, Assoc.find_foldl_insert_nil, Option.bind_some]

theorem Shows.innerText {i : Inner} (h : Shows page (k + 1) v n) (hi : n.inner = some i) :
    (QSgml.mk page).getInnerText v.label = n.content := by
  obtain ⟨u, rfl, hu⟩ := h
  have hpos := hu.StartTagPos_ge
  rw [RoseTree.map_eq]
  exact hu.innerText hi (by omega)

variable [QtTables]

def Node.isNamed (name : QString) (n : Node) : Bool := n.inner.any fun i => equalsCaseInsensitive i.name name

theorem Node.inner_of_isNamed (h : n.isNamed name = true) : ∃ i, n.inner = some i := by
  obtain ⟨i, hi, -⟩ := (Option.any_eq_true _ _).mp h
  exact ⟨i, hi⟩

theorem equalsCaseInsensitive_nil (hname : name ≠ []) : equalsCaseInsensitive [] name = false :=
  decide_eq_false fun h => hname (List.map_eq_nil_iff.mp h.symm)

theorem choice_isNamed (hname : name ≠ []) :
    Choice page (fun u => SearchPage.isNamed name (u.map SgmlTag.toQSgmlTag)) (Node.isNamed name) := by
  refine ⟨fun text pos length => equalsCaseInsensitive_nil hname, fun u n hu => ?_⟩
  rw [SearchPage.isNamed, RoseTree.map_eq, RoseTree.label, hu.label.1, Node.isNamed]
  cases n.inner with
  | none => exact equalsCaseInsensitive_nil hname
  | some i => rfl

theorem Shows.children (hname : name ≠ []) (h : Shows page k v n) :
    List.Forall₂ (Shows page (k + 1)) (v.children.filter (SearchPage.isNamed name))
      (n.children.filter (Node.isNamed name)) := by
  obtain ⟨u, rfl, hu⟩ := h
  rw [RoseTree.map_eq, RoseTree.children, List.filter_map, List.forall₂_map_left_iff]
  exact ((choice_isNamed hname).children hu).imp fun w m hw => ⟨w, rfl, hw⟩

theorem Shows.below (hname : name ≠ []) (h : Shows page k v n)
    (hn : ∀ c ∈ n.children, ∀ m ∈ c.children.flatMap Node.preorder, m.isNamed name = false) :
    ∀ child ∈ v.children, ∀ inner ∈ child.children, inner.Everywhere fun w => SearchPage.isNamed name w = false := by
  obtain ⟨u, rfl, hu⟩ := h
  have hchoice : Choice page _ (Node.isNamed name) := choice_isNamed hname
  have hall := hu.flatMap_children (l := k)
    (F := fun u => (u.children.flatMap RoseTree.preorder).filter fun w =>
      SearchPage.isNamed name (w.map SgmlTag.toQSgmlTag))
    (G := fun n => (n.children.flatMap Node.preorder).filter (Node.isNamed name))
    (fun _ _ _ => rfl) (Nat.le_succ k) fun c _ u hu => hchoice.below hu
  have hnone : n.children.flatMap (fun n => (n.children.flatMap Node.preorder).filter (Node.isNamed name)) = [] :=
    List.flatMap_eq_nil_iff.mpr fun c hc => List.filter_eq_nil_iff.mpr fun m hm =>
      Bool.eq_false_iff.mp (hn c hc m hm)
  rw [hnone, List.forall₂_nil_right_iff, List.flatMap_eq_nil_iff] at hall
  rw [RoseTree.map_eq, RoseTree.children, List.forall_mem_map]
  intro c hc
  rw [RoseTree.map_eq, RoseTree.children, List.forall_mem_map]
  intro w hw
  rw [RoseTree.everywhere_iff_forall_preorder, RoseTree.preorder_map, List.forall_mem_map]
  intro x hx
  have hfilter := List.filter_eq_nil_iff.mp (hall c hc) x (List.mem_flatMap.mpr ⟨w, hw, hx⟩)
  exact Bool.eq_false_iff.mpr hfilter

theorem Shows.find (hname : name ≠ []) (h : Shows page k v n) :
    (v.children.find? (SearchPage.isNamed name) = none ∧ n.children.find? (Node.isNamed name) = none) ∨
      ∃ w m, v.children.find? (SearchPage.isNamed name) = some w ∧ n.children.find? (Node.isNamed name) = some m ∧
        Shows page (k + 1) w m := by
  have hall := h.children hname
  rw [← List.head?_filter, ← List.head?_filter]
  generalize v.children.filter (SearchPage.isNamed name) = ws at hall ⊢
  generalize n.children.filter (Node.isNamed name) = ms at hall ⊢
  cases hall with
  | nil => exact .inl ⟨rfl, rfl⟩
  | cons hfirst hrest => exact .inr ⟨_, _, rfl, rfl, hfirst⟩

end shows

end Markup

namespace ExtratorrentSearchProvider
open SearchPage

section results
variable [QtTables]

def link (cell : Node) : Option Node := cell.children.find? (Node.isNamed "a".toList)

def described (cell : Node) : Option Node :=
  if cell.hasAttribute "class".toList "tli".toList then link cell else none

/-- Seven cells with a link in the first of them, and no cell below them. -/
structure Row (row : Node) : Prop where
  seven : (row.children.filter (Node.isNamed "td".toList)).length = 7
  linked : ∀ cell ∈ (row.children.filter (Node.isNamed "td".toList)).head?, (link cell).isSome = true
  not_td : row.isNamed "td".toList = false
  flat : ∀ c ∈ row.children, ∀ m ∈ c.children.flatMap Node.preorder, m.isNamed "td".toList = false

variable {page : QString} {k : Nat}

theorem link_eq {v : RoseTree QSgmlTag} {cell : Node} (h : Shows page k v cell) :
    (firstLink v = none ∧ link cell = none) ∨
      ∃ w a, firstLink v = some w ∧ link cell = some a ∧ Shows page (k + 1) w a ∧ ∃ i, a.inner = some i := by
  rcases h.find (show "a".toList ≠ [] by decide) with ⟨hv, hcell⟩ | ⟨w, a, hv, hcell, hw⟩
  · exact .inl ⟨hv, hcell⟩
  · exact .inr ⟨w, a, hv, hcell, hw, Node.inner_of_isNamed (List.find?_some hcell)⟩

theorem wellFormed_of_row {v : RoseTree QSgmlTag} {row : Node} (h : Row row) (hv : Shows page k v row) :
    IsRow v ∧ WellFormed v := by
  have htd : "td".toList ≠ [] := by decide
  have hcells := hv.children htd
  refine ⟨⟨?_, hv.below htd h.flat⟩, hcells.length_eq.trans h.seven, ?_⟩
  · obtain ⟨u, rfl, hu⟩ := hv
    exact ((choice_isNamed htd).placed u row (hu.mono (Nat.zero_le k))).trans h.not_td
  · have hlinked := h.linked
    rw [rowCells]
    change List.Forall₂ (Shows page (k + 1)) (v.children.filter isTd) _ at hcells
    generalize v.children.filter isTd = cells at hcells ⊢
    generalize row.children.filter (Node.isNamed "td".toList) = ns at hcells hlinked
    cases hcells with
    | nil => exact fun cell hcell => absurd hcell (Option.not_mem_none cell)
    | cons hfirst hrest =>
      intro cell hcell
      obtain rfl := Option.some.inj hcell
      rcases link_eq hfirst with ⟨-, hnone⟩ | ⟨w, a, hw, -⟩
      · have hsome := hlinked _ rfl
        rw [hnone] at hsome
        exact absurd hsome Bool.false_ne_true
      · rw [hw]
        rfl

theorem created_eq {v : RoseTree QSgmlTag} {cell : Node} (h : Shows page k v cell) :
    (created v).getD newSearchResult = { newSearchResult with
      TorrentFileUrl := ((link cell).map fun a => Url ++ a.attributeValue "href".toList).getD [] } := by
  rw [created]
  rcases link_eq h with ⟨hv, hcell⟩ | ⟨w, a, hv, hcell, hw, -⟩
  · rw [hv, hcell]
    rfl
  · rw [hv, hcell, Option.map_some, Option.map_some, Option.getD_some, Option.getD_some, href,
      hw.attributeValue]

theorem fillName_eq {v : RoseTree QSgmlTag} {cell : Node} (h : Shows page k v cell) (url : QString) :
    fillName ⟨page⟩ v { newSearchResult with TorrentFileUrl := url } = { newSearchResult with
      TorrentFileUrl := url
      Name := ((described cell).map Node.content).getD []
      TorrentDescUrl := ((described cell).map fun a => Url ++ a.attributeValue "href".toList).getD [] } := by
  rw [fillName, h.checkAttribute, described]
  cases cell.hasAttribute "class".toList "tli".toList with
  | false => rfl
  | true =>
    rw [if_pos rfl, if_pos rfl]
    rcases link_eq h with ⟨hv, hcell⟩ | ⟨w, a, hv, hcell, hw, i, hi⟩
    · rw [hv, hcell]
      rfl
    · rw [hv, hcell]
      dsimp only
      rw [hw.innerText hi, href, hw.attributeValue]
      rfl

variable [QtConversions]

def resultOfCells (p : Platform) (cells : List Node) : SearchResult :=
  match cells with
  | [torrent, _, name, size, seeders, leechers, _] =>
    withSize (replaced "&nbsp;".toList " ".toList size.content)
      { Name := ((described name).map Node.content).getD []
        TorrentFileUrl := ((link torrent).map fun a => Url ++ a.attributeValue "href".toList).getD []
        TorrentDescUrl := ((described name).map fun a => Url ++ a.attributeValue "href".toList).getD []
        Engine := Name
        leechers := (toLong p leechers.content).getD (-1)
        seeders := (toLong p seeders.content).getD (-1)
        size := 0 }
  | _ => newSearchResult

theorem withSize_eq (text : QString) (r : SearchResult) (leechers seeders : Int) (Engine : QString) :
    { withSize text r with leechers := leechers, seeders := seeders, Engine := Engine } =
      withSize text { r with leechers := leechers, seeders := seeders, Engine := Engine } := by
  unfold withSize fillSize
  by_cases hunit : hasUnit text = true
  · rw [if_pos hunit, if_pos hunit]
    cases sizeNumber text with
    | none => rfl
    | some size =>
      cases (text.splitOn ' ')[1]? with
      | none => rfl
      | some unit => rfl
  · rw [if_neg hunit, if_neg hunit]

theorem Engine_withSize (text : QString) (r : SearchResult) : (withSize text r).Engine = r.Engine :=
  (congrArg SearchResult.Engine (withSize_eq text r r.leechers r.seeders r.Engine)).symm

theorem Engine_resultOfCells (p : Platform) {cells : List Node} (h : cells.length = 7) :
    (resultOfCells p cells).Engine = Name := by
  match cells, h with
  | [torrent, _, name, size, seeders, leechers, _], _ => exact Engine_withSize _ _

theorem resultOf_eq (p : Platform) {cells : List (RoseTree QSgmlTag)} {ns : List Node}
    (h : List.Forall₂ (Shows page (k + 1)) cells ns) (hns : ∀ n ∈ ns, n.isNamed "td".toList = true)
    (hseven : ns.length = 7) : resultOf p ⟨page⟩ cells = resultOfCells p ns := by
  have hcontent : ∀ v n, Shows page (k + 1) v n → n ∈ ns → (QSgml.mk page).getInnerText v.label = n.content := by
    intro v n hv hn
    obtain ⟨i, hi⟩ := Node.inner_of_isNamed (hns n hn)
    exact hv.innerText hi
  match ns, hseven with
  | [torrent, category, name, size, seeders, leechers, last], _ =>
    obtain ⟨torrent', cells₁, htorrent, h₁, rfl⟩ := List.forall₂_cons_right_iff.mp h
    obtain ⟨category', cells₂, -, h₂, rfl⟩ := List.forall₂_cons_right_iff.mp h₁
    obtain ⟨name', cells₃, hname, h₃, rfl⟩ := List.forall₂_cons_right_iff.mp h₂
    obtain ⟨size', cells₄, hsize, h₄, rfl⟩ := List.forall₂_cons_right_iff.mp h₃
    obtain ⟨seeders', cells₅, hseeders, h₅, rfl⟩ := List.forall₂_cons_right_iff.mp h₄
    obtain ⟨leechers', cells₆, hleechers, h₆, rfl⟩ := List.forall₂_cons_right_iff.mp h₅
    obtain ⟨last', cells₇, -, h₇, rfl⟩ := List.forall₂_cons_right_iff.mp h₆
    obtain rfl := List.forall₂_nil_right_iff.mp h₇
    rw [resultOf, created_eq htorrent, fillName_eq hname, fillLeechers, fillSeeders, sizeHtmlStr,
      hcontent size' size hsize (by simp), hcontent seeders' seeders hseeders (by simp),
      hcontent leechers' leechers hleechers (by simp), resultOfCells]
    exact withSize_eq _ _ _ _ _

def rowsOf (ns : List Node) : List Node :=
  ((ns.flatMap Node.preorder).find? (Node.hasAttribute "class".toList "tl".toList)).elim [] fun table =>
    table.children.filter (Node.isNamed "tr".toList)

def resultsOf (p : Platform) (ns : List Node) : List SearchResult :=
  (rowsOf ns).map fun row => resultOfCells p (row.children.filter (Node.isNamed "td".toList))

omit [QtConversions] in
theorem tableBody_eq {ns : List Node} {found : List (List Nat)}
    (h : List.Forall₂ (fun p n => ∃ u, (documentTree ns).seek p = some u ∧ Placed page 0 u n) found
      ((ns.flatMap Node.preorder).filter (Node.hasAttribute "class".toList "tl".toList))) :
    ∃ rows, tableBody (documentTree ns) found = .ok rows ∧ List.Forall₂ (Shows page 1) rows (rowsOf ns) := by
  rw [rowsOf, ← List.head?_filter]
  generalize (ns.flatMap Node.preorder).filter (Node.hasAttribute "class".toList "tl".toList) = tables at h ⊢
  cases h with
  | nil => exact ⟨[], rfl, .nil⟩
  | cons hfirst hrest =>
    obtain ⟨u, hseek, hu⟩ := hfirst
    have hshows : Shows page 0 (u.map SgmlTag.toQSgmlTag) _ := ⟨u, rfl, hu⟩
    refine ⟨_, ?_, hshows.children (show "tr".toList ≠ [] by decide)⟩
    rw [tableBody, hseek]

theorem Engine_of_mem_resultsOf {p : Platform} {ns : List Node} (hrows : ∀ row ∈ rowsOf ns, Row row) :
    ∀ r ∈ resultsOf p ns, r.Engine = Name :=
  List.forall_mem_map.mpr fun row hrow => Engine_resultOfCells p (hrows row hrow).seven

theorem results_eq (p : Platform) {rows : List (RoseTree QSgmlTag)} {nodes : List Node}
    (hrows : ∀ row ∈ nodes, Row row) (h : List.Forall₂ (Shows page 1) rows nodes) :
    (∀ v ∈ rows, IsRow v ∧ WellFormed v) ∧
      (rows.map fun v => some (resultOf p ⟨page⟩ (rowCells v))) =
        nodes.map fun row => some (resultOfCells p (row.children.filter (Node.isNamed "td".toList))) := by
  have htd : "td".toList ≠ [] := by decide
  have hall := ((List.forall₂_and_left _ _).mpr ⟨hrows, h.flip⟩).flip
  have hboth : List.Forall₂ (fun v row => (IsRow v ∧ WellFormed v) ∧ some (resultOf p ⟨page⟩ (rowCells v)) =
      some (resultOfCells p (row.children.filter (Node.isNamed "td".toList)))) rows nodes :=
    hall.imp fun v row hrow => ⟨wellFormed_of_row hrow.1 hrow.2, congrArg some
      (resultOf_eq p (Shows.children htd hrow.2) (fun n hn => (List.mem_filter.mp hn).2) hrow.1.seven)⟩
  obtain ⟨hwf, hequal⟩ := (List.forall₂_and_left _ _).mp hboth
  refine ⟨hwf, ?_⟩
  rw [← List.forall₂_eq_eq_eq, List.forall₂_map_left_iff, List.forall₂_map_right_iff]
  exact hequal

theorem ParseTableBody_rows (hspace : ∀ c, QtTables.caseFold c = QtTables.caseFold ' ' → c = ' ') (p : Platform)
    (sgml : QSgml) {rows : List (RoseTree QSgmlTag)} (h : ∀ v ∈ rows, IsRow v ∧ WellFormed v) :
    ∃ s, ParseTableBody p sgml rows = .ok s ∧
      s.searchResults = rows.map fun v => some (resultOf p sgml (rowCells v)) :=
  traverse_rows (fun v hv => (h v hv).1) fun v hv => row_result p sgml hspace (h v hv).2

theorem exists_rounds_replyReady (hascii : LowersAscii)
    (hspace : ∀ c, QtTables.caseFold c = QtTables.caseFold ' ' → c = ' ') (p : Platform) {parent text : QString}
    {n : Node} {ns : List Node} (h : ∀ m ∈ n :: ns, m.Readable parent ∧ m.isVoid = false) (hfirst : n.text = [])
    (htext : '<' ∉ text) (iEnd : Int) (hrows : ∀ row ∈ rowsOf (n :: ns), Row row) :
    ∃ needed, ∀ rounds > needed, replyReady p rounds iEnd true (pages (n :: ns) ++ text) =
      .ok (if rowsOf (n :: ns) = [] then none
        else some ((rowsOf (n :: ns)).map fun row =>
          some (resultOfCells p (row.children.filter (Node.isNamed "td".toList))))) := by
  obtain ⟨needed, hread⟩ := exists_rounds_document hascii h hfirst htext iEnd
  obtain ⟨needed', found, hfound, hall⟩ := getElementsByAtribute_document "class".toList "tl".toList
    (Eq.refl (pages (n :: ns) ++ text))
  obtain ⟨rows, hbody, hrelated⟩ := tableBody_eq hall
  obtain ⟨hwf, hresults⟩ := results_eq p hrows hrelated
  refine ⟨max needed needed', fun rounds hrounds => ?_⟩
  have hempty : rows.isEmpty = true ↔ rowsOf (n :: ns) = [] := by
    rw [List.isEmpty_iff, ← List.length_eq_zero_iff, ← List.length_eq_zero_iff, hrelated.length_eq]
  have hdoc : String2Sgml rounds iEnd (pages (n :: ns) ++ text) = .ok (documentTree (n :: ns)) :=
    hread rounds (by omega)
  simp only [replyReady, if_pos, hdoc, hfound rounds (by omega), hbody, bind, Except.bind, pure, Except.pure]
  by_cases hnone : rowsOf (n :: ns) = []
  · rw [if_pos hnone, if_pos (hempty.mpr hnone)]
  · obtain ⟨s, hparse, hsent⟩ := ParseTableBody_rows hspace p ⟨pages (n :: ns) ++ text⟩ hwf
    rw [if_neg hnone, if_neg (mt hempty.mp hnone), hparse]
    dsimp only
    rw [hsent, ← hresults]

/-- The results of a page are those of the rows of its first table, each read from its own
cells; where there is no row nothing is sent. -/
theorem replyReady_pages (hascii : LowersAscii)
    (hspace : ∀ c, QtTables.caseFold c = QtTables.caseFold ' ' → c = ' ') (p : Platform) {parent text : QString}
    {n : Node} {ns : List Node} (h : ∀ m ∈ n :: ns, m.Readable parent ∧ m.isVoid = false) (hfirst : n.text = [])
    (htext : '<' ∉ text) (iEnd : Int) (hrows : ∀ row ∈ rowsOf (n :: ns), Row row) :
    ∃ needed, ∀ rounds > needed, replyReady p rounds iEnd true (pages (n :: ns) ++ text) =
      .ok (if rowsOf (n :: ns) = [] then none
        else some ((rowsOf (n :: ns)).map fun row =>
          some (resultOfCells p (row.children.filter (Node.isNamed "td".toList))))) :=
  exists_rounds_replyReady hascii hspace p h hfirst htext iEnd hrows

end results

section sample
local instance : QtTables := TorrentStorrage.asciiCase
local instance : QtConversions := wholeNumbers

def plainElement (name text : String) : Node := .element [] ⟨name.toList, []⟩ [] text.toList

def linkNode (href text : String) : Node :=
  .element [] ⟨"a".toList, [("href".toList, href.toList)]⟩ [] text.toList

def sampleRow : Node :=
  .element [] ⟨"tr".toList, []⟩
    [.element [] ⟨"td".toList, []⟩ [linkNode "/t/1" "get"] [], plainElement "td" "TV",
      .element [] ⟨"td".toList, [("class".toList, "tli".toList)]⟩ [linkNode "/d/1" "Big Buck"] [],
      plainElement "td" "2&nbsp;kb", plainElement "td" "7", plainElement "td" "3", plainElement "td" ""] []

def sampleTable : Node := .element [] ⟨"table".toList, [("class".toList, "tl".toList)]⟩ [sampleRow] []

theorem readable_plainElement {parent : QString} {name text : String} (hname : PlainName name.toList)
    (hmarkup : name.toList ∉ QSgml.Reading.tagExeption) (htext : '<' ∉ text.toList) :
    (plainElement name text).Readable parent :=
  .element List.not_mem_nil ⟨hname, fun _ ha => absurd ha List.not_mem_nil, fun _ ha => absurd ha List.not_mem_nil⟩
    hmarkup (fun _ hc => absurd hc List.not_mem_nil) htext

theorem readable_linkNode {parent : QString} {href text : String} (hhref : '"' ∉ href.toList)
    (htext : '<' ∉ text.toList) : (linkNode href text).Readable parent := by
  have ha : PlainName "a".toList := plainName_of_all (by decide) (by decide)
  have hkey : PlainName "href".toList := plainName_of_all (by decide) (by decide)
  have hmarkup : "a".toList ∉ QSgml.Reading.tagExeption := by decide
  exact .element List.not_mem_nil ⟨ha, List.forall_mem_singleton.mpr hkey, List.forall_mem_singleton.mpr hhref⟩
    hmarkup (fun _ hc => absurd hc List.not_mem_nil) htext

theorem readable_sampleTable : sampleTable.Readable "doctag".toList := by
  have htd : PlainName "td".toList := plainName_of_all (by decide) (by decide)
  have htr : PlainName "tr".toList := plainName_of_all (by decide) (by decide)
  have htable : PlainName "table".toList := plainName_of_all (by decide) (by decide)
  have hclass : PlainName "class".toList := plainName_of_all (by decide) (by decide)
  have hnone : ∀ a ∈ ([] : List (QString × QString)), PlainName a.1 := fun a ha => absurd ha List.not_mem_nil
  have hnone' : ∀ a ∈ ([] : List (QString × QString)), '"' ∉ a.2 := fun a ha => absurd ha List.not_mem_nil
  refine .element List.not_mem_nil ⟨htable, List.forall_mem_singleton.mpr hclass,
    List.forall_mem_singleton.mpr (by decide)⟩ (by decide) (List.forall_mem_singleton.mpr ?_) List.not_mem_nil
  refine .element List.not_mem_nil ⟨htr, hnone, hnone'⟩ (by decide) ?_ List.not_mem_nil
  simp only [List.forall_mem_cons, List.not_mem_nil, false_imp_iff, implies_true, and_true]
  refine ⟨?_, readable_plainElement htd (by decide) (by decide), ?_,
    readable_plainElement htd (by decide) (by decide), readable_plainElement htd (by decide) (by decide),
    readable_plainElement htd (by decide) (by decide), readable_plainElement htd (by decide) (by decide)⟩
  · exact .element List.not_mem_nil ⟨htd, hnone, hnone'⟩ (by decide)
      (List.forall_mem_singleton.mpr (readable_linkNode (by decide) (by decide))) List.not_mem_nil
  · exact .element List.not_mem_nil ⟨htd, List.forall_mem_singleton.mpr hclass,
      List.forall_mem_singleton.mpr (by decide)⟩ (by decide)
      (List.forall_mem_singleton.mpr (readable_linkNode (by decide) (by decide))) List.not_mem_nil

theorem row_sampleRow : Row sampleRow := by
  refine ⟨by decide, fun cell hcell => ?_, by decide, ?_⟩
  · obtain rfl := Option.some.inj hcell
    decide
  · have hall : sampleRow.children.all (fun c => (c.children.flatMap Node.preorder).all fun m =>
        !m.isNamed "td".toList) = true := by decide
    intro c hc m hm
    have h := List.all_eq_true.mp (List.all_eq_true.mp hall c hc) m hm
    exact (Bool.not_eq_true' _).mp h

theorem rowsOf_sampleTable : rowsOf [sampleTable] = [sampleRow] := rfl

def sampleText : String :=
  "<table class=\"tl\"><tr><td><a href=\"/t/1\">get</a></td><td>TV</td><td class=\"tli\">" ++
    "<a href=\"/d/1\">Big Buck</a></td><td>2&nbsp;kb</td><td>7</td><td>3</td><td></td></tr></table>\n"

theorem sampleText_eq : sampleText.toList = pages [sampleTable] ++ "\n".toList := by decide +kernel

theorem replyReady_sampleTable : ∃ needed, ∀ rounds > needed, replyReady .unix rounds 0 true sampleText.toList =
    .ok (some [some {
      Name := "Big Buck".toList
      TorrentFileUrl := "http://extratorrent.cc/t/1".toList
      TorrentDescUrl := "http://extratorrent.cc/d/1".toList
      Engine := "Extratorrent".toList
      leechers := 3
      seeders := 7
      size := 2048 }]) := by
  have hrows : ∀ row ∈ rowsOf [sampleTable], Row row := by
    rw [rowsOf_sampleTable]
    exact List.forall_mem_singleton.mpr row_sampleRow
  rw [sampleText_eq]
  have hpage := replyReady_pages (fun _ _ => rfl) ascii_space .unix
    (List.forall_mem_singleton.mpr ⟨readable_sampleTable, rfl⟩) rfl (show '<' ∉ "\n".toList by decide) 0 hrows
  rw [rowsOf_sampleTable, if_neg (List.cons_ne_nil _ _), List.map_singleton] at hpage
  obtain ⟨needed, hneeded⟩ := hpage
  refine ⟨needed, fun rounds hrounds => (hneeded rounds hrounds).trans ?_⟩
  exact congrArg (fun r => Except.ok (some [some r])) (by decide +kernel)

end sample

end ExtratorrentSearchProvider
end CuteTorrent
