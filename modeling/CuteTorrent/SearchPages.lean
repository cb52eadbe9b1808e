import CuteTorrent.ExtratorrentSearchProvider
import CuteTorrent.RutorSearchProvider
import CuteTorrent.StorrageRuns

/-! The pages of both providers: when a page is parsed without harm, and that the rows
of a table are kept apart. -/
namespace CuteTorrent
namespace SearchPage

section
variable [QtTables] [QtConversions]

/-- A page is parsed safely exactly when, of its cells in the order of the walk, each row
has its link where a result is made before it is filled and a unit where it has a size. -/
theorem parsers_safe_iff (p : Platform) (sgml : QSgml) (tableBody : List (RoseTree QSgmlTag)) :
    (SafeParse ExtratorrentSearchProvider.Name
        (ExtratorrentSearchProvider.ParseTableBody p sgml tableBody) ↔
      ∀ row ∈ cutRows (fun _ => 6) (cellsOf tableBody),
        ExtratorrentSearchProvider.RowAllowed sgml row) ∧
    (SafeParse RutorSearchProvider.Name (RutorSearchProvider.ParseTableBody sgml p tableBody) ↔
      ∀ row ∈ cutRows (RutorSearchProvider.behind sgml) (cellsOf tableBody),
        RutorSearchProvider.RowAllowed sgml row) :=
  ⟨ExtratorrentSearchProvider.safeParse_iff p sgml tableBody,
    RutorSearchProvider.safeParse_iff sgml p tableBody⟩

end

section sample
local instance asciiTables : QtTables := TorrentStorrage.asciiCase

/-- Whole numbers, and the case of ASCII letters. -/
local instance wholeNumbers : QtConversions := ⟨Char.toLower, Int, toInt, fun size n => size * n, id⟩

def tagNamed (name : String) (attributes : List (QString × QString)) : QSgmlTag :=
  ⟨attributes, name.toList, .eStartTag, 0, 0, 0⟩

def emptyCell : RoseTree QSgmlTag := .node (tagNamed "td" []) []

theorem seven_empty_cells :
    ¬ ∀ (_ : QtTables) (_ : QtConversions) (p : Platform) (sgml : QSgml)
      (tableBody : List (RoseTree QSgmlTag)),
      SafeParse ExtratorrentSearchProvider.Name
          (ExtratorrentSearchProvider.ParseTableBody p sgml tableBody) ∧
        SafeParse RutorSearchProvider.Name (RutorSearchProvider.ParseTableBody sgml p tableBody) := by
  intro h
  obtain ⟨s, hrun, -⟩ := (h asciiTables wholeNumbers .unix ⟨[]⟩
    [.node (tagNamed "tr" []) (List.replicate 7 emptyCell)]).1
  rw [ExtratorrentSearchProvider.ParseTableBody, traverse_eq] at hrun
  cases hrun

end sample

section
variable [QtTables] [QtConversions]

/-- Each row of a table gives one result, and its cells alone fill it. -/
theorem parsers_keep_rows (hspace : ∀ c, QtTables.caseFold c = QtTables.caseFold ' ' → c = ' ')
    (p : Platform) (sgml : QSgml) (rows : List (RoseTree QSgmlTag)) (hrows : ∀ row ∈ rows, IsRow row) :
    ((∀ row ∈ rows, ExtratorrentSearchProvider.WellFormed row) →
      ∃ s, ExtratorrentSearchProvider.ParseTableBody p sgml rows = .ok s ∧
        s.searchResults =
          rows.map fun row => some (ExtratorrentSearchProvider.resultOf p sgml (rowCells row))) ∧
    ((∀ row ∈ rows, RutorSearchProvider.WellFormed sgml row) →
      ∃ s, RutorSearchProvider.ParseTableBody sgml p rows = .ok s ∧
        s.searchResults =
          rows.map fun row => some (RutorSearchProvider.resultOf sgml p (rowCells row))) := by
  constructor
  · intro hwf
    exact traverse_rows hrows fun row hrow =>
      ExtratorrentSearchProvider.row_result p sgml hspace (hwf row hrow)
  · intro hwf
    exact traverse_rows hrows fun row hrow => RutorSearchProvider.row_result sgml p (hwf row hrow)

end

section sample
local instance : QtTables := TorrentStorrage.asciiCase
local instance : QtConversions := wholeNumbers

def linkTo (href : String) : RoseTree QSgmlTag :=
  .node (tagNamed "a" [("href".toList, href.toList)]) []

def kilobytes : RoseTree QSgmlTag := .node ⟨[], "td".toList, .eStartTag, 1, 0, 5⟩ []

def kilobytesPage : QSgml := ⟨" 2 kb".toList⟩

def sevenCells : RoseTree QSgmlTag :=
  .node (tagNamed "tr" []) (.node (tagNamed "td" []) [linkTo "/torrent/1"] :: List.replicate 6 emptyCell)

def fileCell : RoseTree QSgmlTag :=
  .node (tagNamed "td" []) [linkTo "http://d.rutor.org/1", linkTo "/torrent/1"]

def fourCells : RoseTree QSgmlTag :=
  .node (tagNamed "tr" []) [emptyCell, fileCell, kilobytes, emptyCell]

def fiveCells : RoseTree QSgmlTag :=
  .node (tagNamed "tr" []) [emptyCell, fileCell, emptyCell, kilobytes, emptyCell]

theorem ascii_space (c : Char) (h : Char.toLower c = Char.toLower ' ') : c = ' ' := by
  have hspace : Char.toLower ' ' = ' ' := by decide
  rw [hspace] at h
  delta Char.toLower at h
  split_ifs at h with hupper
  · have hval : (c.val + ('a'.val - 'A'.val)).toNat = 32 := congrArg Char.toNat h
    have hlo : 65 ≤ c.val.toNat := UInt32.le_iff_toNat_le.mp hupper.1
    have hhi : c.val.toNat ≤ 90 := UInt32.le_iff_toNat_le.mp hupper.2
    have hdiff : ('a'.val - 'A'.val).toNat = 32 := by decide
    rw [UInt32.toNat_add] at hval
    omega
  · exact h

theorem isRow_of_leaves {a : QSgmlTag} {cells : List (RoseTree QSgmlTag)}
    (ha : isTd (.node a cells) = false)
    (hcells : ∀ cell ∈ cells, ∀ inner ∈ cell.children, isTd inner = false ∧
      inner.children.isEmpty = true) : IsRow (.node a cells) := by
  refine ⟨ha, fun cell hcell inner hinner => ?_⟩
  obtain ⟨hnot, hempty⟩ := hcells cell hcell inner hinner
  obtain ⟨b, below⟩ := inner
  obtain rfl := List.isEmpty_iff.mp hempty
  exact RoseTree.everywhere_node.mpr ⟨hnot, fun _ hno => absurd hno List.not_mem_nil⟩

theorem kilobytes_reads : SizeReads (sizeHtmlStr kilobytesPage kilobytes) :=
  ⟨['2'], "kb".toList, by decide +kernel, by decide, by decide +kernel, "kb", by simp,
    by decide +kernel⟩

theorem fileCell_linked : RutorSearchProvider.hasFile fileCell = true ∧
    RutorSearchProvider.FileFirst fileCell.children := by
  unfold RutorSearchProvider.FileFirst
  decide +kernel

theorem fourCells_wellFormed : RutorSearchProvider.WellFormed kilobytesPage fourCells := by
  refine ⟨.inl ⟨by decide +kernel, fun size hsize => ?_⟩, fun links hlinks => ?_⟩
  · cases (show some kilobytes = some size from hsize)
    exact kilobytes_reads
  · cases (show some fileCell = some links from hlinks)
    exact fileCell_linked

theorem fiveCells_wellFormed : RutorSearchProvider.WellFormed kilobytesPage fiveCells := by
  refine ⟨.inr ⟨by decide +kernel, fun cell hcell => ?_, fun size hsize => ?_⟩, fun links hlinks => ?_⟩
  · cases (show some emptyCell = some cell from hcell)
    decide +kernel
  · cases (show some kilobytes = some size from hsize)
    exact kilobytes_reads
  · cases (show some fileCell = some links from hlinks)
    exact fileCell_linked

theorem parsers_keep_rows_sample :
    (∃ s, ExtratorrentSearchProvider.ParseTableBody .unix kilobytesPage [sevenCells, sevenCells] =
        .ok s ∧ s.searchResults = [sevenCells, sevenCells].map fun row =>
          some (ExtratorrentSearchProvider.resultOf .unix kilobytesPage (rowCells row))) ∧
    ∃ s, RutorSearchProvider.ParseTableBody kilobytesPage .unix [fourCells, fiveCells] = .ok s ∧
      s.searchResults = [fourCells, fiveCells].map fun row =>
        some (RutorSearchProvider.resultOf kilobytesPage .unix (rowCells row)) := by
  constructor
  · refine (parsers_keep_rows ascii_space .unix kilobytesPage _ ?_).1 ?_
    · simp only [List.forall_mem_cons, List.not_mem_nil, false_imp_iff, implies_true, and_true,
        and_self]
      exact isRow_of_leaves (by decide +kernel) (by decide +kernel)
    · simp only [List.forall_mem_cons, List.not_mem_nil, false_imp_iff, implies_true, and_true,
        and_self]
      exact ⟨by decide +kernel, by decide +kernel⟩
  · refine (parsers_keep_rows ascii_space .unix kilobytesPage _ ?_).2 ?_
    · simp only [List.forall_mem_cons, List.not_mem_nil, false_imp_iff, implies_true, and_true]
      exact ⟨isRow_of_leaves (by decide +kernel) (by decide +kernel),
        isRow_of_leaves (by decide +kernel) (by decide +kernel)⟩
    · simp only [List.forall_mem_cons, List.not_mem_nil, false_imp_iff, implies_true, and_true]
      exact ⟨fourCells_wellFormed, fiveCells_wellFormed⟩

end sample

end SearchPage
end CuteTorrent
