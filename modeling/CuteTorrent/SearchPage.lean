import CuteTorrent.Library.LevelOrder
import CuteTorrent.SearchItemsStorrage

/-! What the search providers take from a page: its tags, the texts inside them, and
the numbers in these texts. -/
namespace CuteTorrent

inductive TagType where
  | eVirtualBeginTag
  | eVirtualEndTag
  | eStartTag
  | eEndTag
  | eStandalone
  | eDoctype
  | eCdata
  | eComment
  | eStartEmpty
  | eNoTag
deriving DecidableEq

/-- `Type` is `tagType` here, and `Children` are those of the tree. -/
structure QSgmlTag where
  Attributes : List (QString × QString)
  Name : QString
  tagType : TagType
  StartTagPos : Int
  StartTagLength : Int
  EndTagPos : Int

structure QSgml where
  sSgmlString : QString

/-- The letters and the numbers of Qt and of C++ that are not modelled here. -/
class QtConversions where
  toLower : Char → Char
  Double : Type
  toDouble : QString → Option Double
  times : Double → Nat → Double
  toLongLong : Double → Int

def mid (s : QString) (position n : Int) : QString :=
  if position ≥ s.length then []
  else
    let n := if n < 0 then s.length - position else n
    if position < 0 then s.take (n + position).toNat
    else (s.drop position.toNat).take n.toNat

def replaced (before after s : QString) : QString := after.intercalate (splitText before 0 [] s)

def toLong (p : Platform) (s : QString) : Option Int :=
  let signed := trimmed s
  let digits := match signed with
    | '-' :: t => t
    | '+' :: t => t
    | t => t
  let bits := match p with
    | .windows => 31
    | .unix => 63
  if digits ≠ [] ∧ digits.all Char.isDigit then
    let n : Int := if signed.head? = some '-' then -decimalValue digits else decimalValue digits
    if -2 ^ bits ≤ n ∧ n < 2 ^ bits then some n else none
  else none

namespace QSgmlTag

def checkAttribute (tag : QSgmlTag) (AtrName AtrValue : QString) : Bool :=
  if Assoc.contains AtrName tag.Attributes then
    decide ((Assoc.find AtrName tag.Attributes).getD [] = AtrValue)
  else false

def getAttributeValue (tag : QSgmlTag) (Key : QString) : QString :=
  (Assoc.find Key tag.Attributes).getD []

end QSgmlTag

def QSgml.getInnerText (sgml : QSgml) (tag : QSgmlTag) : QString :=
  if tag.tagType = .eStandalone then []
  else if tag.StartTagPos > 0 ∧ tag.EndTagPos > 0 then
    mid sgml.sSgmlString (tag.StartTagPos + tag.StartTagLength)
      (tag.EndTagPos - tag.StartTagPos - tag.StartTagLength)
  else []

def newSearchResult : SearchResult := ⟨[], [], [], [], 0, 0, 0⟩

/-- The variables of `ParseTableBody`. `outside` is set once a character is read outside
a part of a split text, which Qt answers with NUL. -/
structure ParseState where
  tdCounter : Nat
  searchResults : List (Option SearchResult)
  pCurrentSearchResult : Option SearchResult
  outside : Bool

namespace SearchPage

def initial : ParseState := ⟨0, [], none, false⟩

def Sound (Name : QString) (s : ParseState) : Prop :=
  s.outside = false ∧ ∀ r ∈ s.searchResults, ∃ result, r = some result ∧ result.Engine = Name

def SafeParse (Name : QString) (run : Except Fault ParseState) : Prop :=
  ∃ s, run = .ok s ∧ Sound Name s

def place (s : ParseState) : Nat × Bool := (s.tdCounter, s.pCurrentSearchResult.isSome)

theorem sound_initial (Name : QString) : Sound Name initial :=
  ⟨rfl, fun _ hr => absurd hr List.not_mem_nil⟩

theorem Sound.emit {Name : QString} {s : ParseState} (hs : Sound Name s) (r : SearchResult) (n : Nat) :
    Sound Name ⟨n, s.searchResults ++ [some { r with Engine := Name }], none, s.outside⟩ := by
  refine ⟨hs.1, fun e he => ?_⟩
  cases List.mem_append.mp he with
  | inl hold => exact hs.2 e hold
  | inr hnew => exact ⟨_, List.mem_singleton.mp hnew, rfl⟩

/-- A list is cut into rows; behind its first member, a row has `behind` of the rest. -/
def cutRows {α : Type*} (behind : List α → Nat) : List α → List (List α)
  | [] => []
  | c :: cs => (c :: cs.take (behind cs)) :: cutRows behind (cs.drop (behind cs))
termination_by cells => cells.length
decreasing_by
  rw [List.length_drop, List.length_cons]
  omega

theorem along_cutRows {α τ : Type*} {next : τ → α → τ} {Allowed : τ → α → Prop} {start : τ}
    {behind : List α → Nat} {RowAllowed : List α → Prop}
    (hrow : ∀ (c : α) (cs : List α), Runs.Along next Allowed start (c :: cs.take (behind cs)) ↔
      RowAllowed (c :: cs.take (behind cs)))
    (hback : ∀ (c : α) (cs : List α), behind cs ≤ cs.length →
      Runs.final next start (c :: cs.take (behind cs)) = start) (cells : List α) :
    Runs.Along next Allowed start cells ↔ ∀ row ∈ cutRows behind cells, RowAllowed row := by
  fun_induction cutRows behind cells with
  | case1 => exact iff_of_true trivial fun _ h => absurd h List.not_mem_nil
  | case2 c cs ih =>
    have hcut : c :: cs = (c :: cs.take (behind cs)) ++ cs.drop (behind cs) := by
      rw [List.cons_append, List.take_append_drop]
    have hrest : Runs.Along next Allowed (Runs.final next start (c :: cs.take (behind cs)))
        (cs.drop (behind cs)) ↔ Runs.Along next Allowed start (cs.drop (behind cs)) := by
      by_cases hlen : behind cs ≤ cs.length
      · rw [hback c cs hlen]
      · rw [List.drop_eq_nil_of_le (by omega)]
        exact Iff.rfl
    rw [List.forall_mem_cons, ← ih, ← hrow, ← hrest, ← Runs.along_append, ← hcut]

theorem second_part_of_space {text : QString} (h : ' ' ∈ text) :
    ∃ unit, (text.splitOn ' ')[1]? = some unit := by
  obtain ⟨number, unit, rfl, hnumber⟩ := List.eq_append_cons_of_mem h
  rw [List.splitOn_append_cons_self_of_not_mem hnumber]
  obtain ⟨part, parts, hparts⟩ := List.exists_cons_of_ne_nil (List.splitOn_ne_nil ' ' unit)
  exact ⟨part, by rw [hparts]; rfl⟩

section
variable [QtTables]

/-- `Name.compare(name, Qt::CaseInsensitive) == 0` -/
def isNamed (name : QString) (tag : RoseTree QSgmlTag) : Bool :=
  equalsCaseInsensitive tag.label.Name name

def isTd (tag : RoseTree QSgmlTag) : Bool := isNamed "td".toList tag

def isLink (tag : RoseTree QSgmlTag) : Bool := isNamed "a".toList tag

def containsCaseInsensitive (s text : QString) : Bool :=
  decide (text.map QtTables.caseFold <:+: s.map QtTables.caseFold)

def hasUnit (sizeHtmlStr : QString) : Bool :=
  [" tb", " gb", " kb", " mb", " b"].any fun text => containsCaseInsensitive sizeHtmlStr text.toList

def cellsOf (tableBody : List (RoseTree QSgmlTag)) : List (RoseTree QSgmlTag) :=
  (RoseTree.levelOrder tableBody).filter isTd

/-- The loop of `ParseTableBody`, for the `td` that a provider reads. -/
def traverse (td : ParseState → RoseTree QSgmlTag → Except Fault ParseState)
    (tableBody : List (RoseTree QSgmlTag)) : Except Fault ParseState :=
  RoseTree.breadthFirst (fun s pCurrent => if isTd pCurrent then td s pCurrent else .ok s) initial
    tableBody

theorem traverse_eq (td : ParseState → RoseTree QSgmlTag → Except Fault ParseState)
    (tableBody : List (RoseTree QSgmlTag)) :
    traverse td tableBody = (cellsOf tableBody).foldlM td initial := by
  rw [traverse, RoseTree.breadthFirst_eq, cellsOf, List.foldlM_filter]
  rfl

/-! ### Rows of a table -/

def rowCells (row : RoseTree QSgmlTag) : List (RoseTree QSgmlTag) := row.children.filter isTd

/-- The cells are children of the row, and there are none below these. -/
structure IsRow (row : RoseTree QSgmlTag) : Prop where
  not_td : isTd row = false
  flat : ∀ child ∈ row.children, ∀ inner ∈ child.children,
    inner.Everywhere fun tag => isTd tag = false

theorem cellsOf_rows {rows : List (RoseTree QSgmlTag)} (h : ∀ row ∈ rows, IsRow row) :
    cellsOf rows = rows.flatMap rowCells :=
  RoseTree.filter_levelOrder (fun row hrow => (h row hrow).not_td) fun row hrow => (h row hrow).flat

theorem foldlM_rows {td : ParseState → RoseTree QSgmlTag → Except Fault ParseState}
    {result : List (RoseTree QSgmlTag) → SearchResult} {rows : List (RoseTree QSgmlTag)}
    (hrow : ∀ row ∈ rows, ∀ results outside, ∃ outside',
      (rowCells row).foldlM td ⟨0, results, none, outside⟩ =
        .ok ⟨0, results ++ [some (result (rowCells row))], none, outside'⟩)
    (results : List (Option SearchResult)) (outside : Bool) :
    ∃ outside', (rows.flatMap rowCells).foldlM td ⟨0, results, none, outside⟩ =
      .ok ⟨0, results ++ rows.map fun row => some (result (rowCells row)), none, outside'⟩ := by
  induction rows generalizing results outside with
  | nil => exact ⟨outside, by rw [List.map_nil, List.append_nil]; rfl⟩
  | cons row rows ih =>
    obtain ⟨o, hfirst⟩ := hrow row List.mem_cons_self results outside
    obtain ⟨o', hrest⟩ := ih (fun row hmem => hrow row (List.mem_cons_of_mem _ hmem))
      (results ++ [some (result (rowCells row))]) o
    refine ⟨o', ?_⟩
    rw [List.flatMap_cons, List.foldlM_append, hfirst]
    rw [List.append_assoc, List.singleton_append] at hrest
    exact hrest

theorem traverse_rows {td : ParseState → RoseTree QSgmlTag → Except Fault ParseState}
    {result : List (RoseTree QSgmlTag) → SearchResult} {rows : List (RoseTree QSgmlTag)}
    (h : ∀ row ∈ rows, IsRow row)
    (hrow : ∀ row ∈ rows, ∀ results outside, ∃ outside',
      (rowCells row).foldlM td ⟨0, results, none, outside⟩ =
        .ok ⟨0, results ++ [some (result (rowCells row))], none, outside'⟩) :
    ∃ s, traverse td rows = .ok s ∧
      s.searchResults = rows.map fun row => some (result (rowCells row)) := by
  obtain ⟨outside, hrun⟩ := foldlM_rows hrow [] false
  rw [List.nil_append] at hrun
  exact ⟨_, by rw [traverse_eq, cellsOf_rows h]; exact hrun, rfl⟩

/-! ### Sizes -/

def sizeHtmlStr (sgml : QSgml) (cell : RoseTree QSgmlTag) : QString :=
  replaced "&nbsp;".toList " ".toList (sgml.getInnerText cell.label)

theorem space_mem_of_hasUnit (hspace : ∀ c, QtTables.caseFold c = QtTables.caseFold ' ' → c = ' ')
    {text : QString} (h : hasUnit text = true) : ' ' ∈ text := by
  obtain ⟨unit, hunit, hcontains⟩ := List.any_eq_true.mp h
  have hfirst : ' ' ∈ unit.toList := by
    revert hunit
    simp only [List.mem_cons, List.not_mem_nil, or_false]
    rintro (rfl | rfl | rfl | rfl | rfl) <;> decide
  have hfold := (of_decide_eq_true hcontains).subset (List.mem_map_of_mem hfirst)
  obtain ⟨c, hc, hsame⟩ := List.mem_map.mp hfold
  exact hspace c hsame ▸ hc

variable [QtConversions]
open QtConversions

/-- The switch over the first letter of the unit. -/
def scaled (size : Double) (unit : Char) : Double :=
  match toLower unit with
  | 'k' => times size 1024
  | 'm' => times size (1024 * 1024)
  | 'g' => times size (1024 * 1024 * 1024)
  | 't' => times size (1024 * 1024 * 1024 * 1024)
  | _ => size

/-- `parts1[0].toDouble(&ok)`, where the text has a unit. -/
def sizeNumber (text : QString) : Option Double :=
  if hasUnit text then (text.splitOn ' ').head?.bind toDouble else none

/-- The size column, for a result that is being filled; beside it whether a character
was read outside its part. -/
def fillSize (text : QString) (r : SearchResult) : Except Fault (SearchResult × Bool) :=
  if hasUnit text then
    match sizeNumber text with
    | some size =>
      match (text.splitOn ' ')[1]? with
      | none => .error .indexOutOfRange
      | some unit =>
        .ok ({ r with size := toLongLong (scaled size (unit.headD (Char.ofNat 0))) }, unit.isEmpty)
    | none => .ok ({ r with size := -1 }, false)
  else .ok (r, false)

/-- What is taken for a size has a character directly behind its first space. -/
def UnitStands (text : QString) : Prop :=
  (sizeNumber text).isSome = true → ((text.splitOn ' ')[1]?.bind List.head?).isSome = true

theorem fillSize_ok_iff (text : QString) (r : SearchResult) :
    (∃ r', fillSize text r = .ok (r', false)) ↔ UnitStands text := by
  rw [fillSize, UnitStands]
  by_cases hunit : hasUnit text = true
  · rw [if_pos hunit]
    cases hnumber : sizeNumber text with
    | none => exact iff_of_true ⟨_, rfl⟩ fun hsome => absurd hsome Bool.false_ne_true
    | some size =>
      cases hpart : (text.splitOn ' ')[1]? with
      | none => simp
      | some unit =>
        cases unit with
        | nil => simp
        | cons c unit => simp
  · have hnone : sizeNumber text = none := by rw [sizeNumber, if_neg hunit]
    rw [if_neg hunit, hnone]
    exact iff_of_true ⟨r, rfl⟩ fun hsome => absurd hsome Bool.false_ne_true

theorem unitStands_of_fillSize {text : QString} {r r' : SearchResult} {outside read : Bool}
    (hfill : fillSize text r = .ok (r', read)) (h : (outside || read) = false) :
    outside = false ∧ UnitStands text := by
  obtain ⟨houtside, rfl⟩ := Bool.or_eq_false_iff.mp h
  exact ⟨houtside, (fillSize_ok_iff text r).mp ⟨r', hfill⟩⟩

def withSize (text : QString) (r : SearchResult) : SearchResult :=
  match fillSize text r with
  | .ok (r, _) => r
  | .error _ => r

theorem fillSize_eq_withSize (text : QString)
    (h : (sizeNumber text).isSome = true → ∃ unit, (text.splitOn ' ')[1]? = some unit)
    (r : SearchResult) : ∃ outside, fillSize text r = .ok (withSize text r, outside) := by
  cases hfill : fillSize text r with
  | ok filled => exact ⟨filled.2, by rw [withSize, hfill]⟩
  | error f =>
    rw [fillSize] at hfill
    split_ifs at hfill with hunit
    cases hnumber : sizeNumber text with
    | none =>
      rw [hnumber] at hfill
      cases hfill
    | some size =>
      obtain ⟨unit, hpart⟩ := h (by rw [hnumber]; rfl)
      rw [hnumber, hpart] at hfill
      cases hfill

theorem hasUnit_of_sizeNumber {text : QString} (h : (sizeNumber text).isSome = true) :
    hasUnit text = true := by
  by_contra hno
  rw [sizeNumber, if_neg hno] at h
  exact absurd h Bool.false_ne_true

theorem fillSize_size {text : QString} (h : (sizeNumber text).isSome = true) (r : SearchResult)
    (n : Int) : fillSize text { r with size := n } = fillSize text r := by
  obtain ⟨size, hnumber⟩ := Option.isSome_iff_exists.mp h
  rw [fillSize, fillSize, if_pos (hasUnit_of_sizeNumber h), if_pos (hasUnit_of_sizeNumber h), hnumber]

/-- A number, a space and a unit. -/
def SizeReads (text : QString) : Prop :=
  ∃ number unit, text = number ++ ' ' :: unit ∧ ' ' ∉ number ∧ (toDouble number).isSome = true ∧
    ∃ u ∈ ["kb", "mb", "gb", "tb", "b"], equalsCaseInsensitive unit u.toList = true

theorem SizeReads.isSome {text : QString} (h : SizeReads text) : (sizeNumber text).isSome = true := by
  obtain ⟨number, unit, rfl, hspace, hnumber, u, hu, hunit⟩ := h
  have hhas : hasUnit (number ++ ' ' :: unit) = true := by
    refine List.any_eq_true.mpr ⟨" " ++ u, ?_, ?_⟩
    · revert hu
      simp only [List.mem_cons, List.not_mem_nil, or_false]
      rintro (rfl | rfl | rfl | rfl | rfl) <;> decide
    · have hsame : unit.map QtTables.caseFold = u.toList.map QtTables.caseFold :=
        of_decide_eq_true hunit
      refine decide_eq_true ⟨number.map QtTables.caseFold, [], ?_⟩
      simp [hsame]
  rw [sizeNumber, if_pos hhas, List.splitOn_append_cons_self_of_not_mem hspace]
  exact hnumber

theorem SizeReads.second_part {text : QString} (h : SizeReads text) :
    ∃ unit, (text.splitOn ' ')[1]? = some unit := by
  obtain ⟨number, unit, rfl, -⟩ := h
  exact second_part_of_space (by simp)

end

end SearchPage
end CuteTorrent
