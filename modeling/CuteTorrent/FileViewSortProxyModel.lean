import Mathlib.Data.List.Lex
import CuteTorrent.ApplicationSettings
import CuteTorrent.Library.KeyedOrder
import CuteTorrent.OpenTorrentDialog
import CuteTorrent.SetItemPriority

/-! `FileViewSortProxyModel`: the order of the rows in the file tab, and the data of the
model it compares. -/
namespace CuteTorrent
open RoseTree KeyedOrder

/-- Numbers are not cut; no text is asked for its number. -/
def QVariant.toLongLong : QVariant → Int
  | .bool b => if b then 1 else 0
  | .int n => n
  | _ => 0

def comparesLess (left right : QString) : Bool :=
  decide (utf16 left < utf16 right)

/-- The model with the files of a torrent; an invalid handle is no source. -/
structure FileViewState where
  platform : Platform
  calls : List (QByteArray × FileEntry)
  dataSource : Option TorrentPriorities

namespace FileViewState
open FileViewModel

def m_pRoot (m : FileViewState) : FileViewTree := addPaths m.platform m.calls

def IsNode (m : FileViewState) (item : FileViewTree) : Prop :=
  ∃ path, path ≠ [] ∧ m.m_pRoot.get? path = some item

/-- `FileViewModel::data` for the display role, apart from the column with the progress. -/
def data (m : FileViewState) (column : Nat) (item : FileViewTree) : QVariant :=
  match m.dataSource with
  | none => .invalid
  | some dataSource =>
    let file := item.label.fileEntery
    let storrage_index :=
      if item.label.type = .file then dataSource.storage.file_index_at_offset file.offset else 0
    match column with
    | 0 => .string item.label.name
    | 1 => .int (if item.label.type = .file then (file.size : Int) else CalculateFolderSize item)
    | 3 =>
      .int (if item.label.type = .file ∧ !dataSource.isSeed then
        dataSource.file_priority storrage_index else -1)
    | _ => .invalid

end FileViewState

namespace FileViewSortProxyModel

/-- `readyLess` compares the floats of the column with the progress. -/
def lessThan (m : FileViewState) (readyLess : FileViewTree → FileViewTree → Bool) (sortCol : Nat)
    (left right : FileViewTree) : Bool :=
  if right.label.type ≠ left.label.type then
    if right.label.type = .folder then true else false
  else if sortCol = 0 then comparesLess right.label.name left.label.name
  else if sortCol = 1 then
    decide ((m.data sortCol left).toLongLong < (m.data sortCol right).toLongLong)
  else if sortCol = 2 then readyLess left right
  else if sortCol = 3 then decide ((m.data sortCol left).toInt < (m.data sortCol right).toInt)
  else true

theorem file_or_folder {m : FileViewState} {item : FileViewTree} (h : m.IsNode item) :
    item.label.type = .file ∨ item.label.type = .folder := by
  obtain ⟨path, hne, hitem⟩ := h
  have hbelow : ∀ c ∈ m.m_pRoot.children,
      Everywhere (fun u => u.label.type = .file ∨ u.label.type = .folder) c := by
    rw [FileViewState.m_pRoot, FileViewModel.addPaths_eq_insertAll]
    refine below_insertAll (P := fun a : FileViewTreeItem => a.type = .file ∨ a.type = .folder) _ _ ?_ ?_ m.calls
    · intro b a n ns
      rw [FileViewModel.newItem]
      split_ifs
      · exact .inl rfl
      · exact .inr rfl
    · exact fun c hc => absurd hc List.not_mem_nil
  cases path with
  | nil => exact absurd rfl hne
  | cons i path =>
    rw [get?_cons] at hitem
    obtain ⟨c, hc, hitem⟩ := Option.bind_eq_some_iff.mp hitem
    exact hbelow c (List.mem_of_getElem? hc) path item hitem

def isFolder (item : FileViewTree) : Bool := decide (item.label.type = .folder)

theorem lessThan_iff_before {κ : Type} [LinearOrder κ] {m : FileViewState}
    {readyLess : FileViewTree → FileViewTree → Bool} {sortCol : Nat} {key : FileViewTree → κ}
    (hkey : ∀ left right : FileViewTree, right.label.type = left.label.type →
      (lessThan m readyLess sortCol left right = true ↔ key left < key right))
    {left right : FileViewTree} (hleft : m.IsNode left) (hright : m.IsNode right) :
    lessThan m readyLess sortCol left right = true ↔ Before isFolder key left right := by
  rcases file_or_folder hleft with hl | hl <;> rcases file_or_folder hright with hr | hr
  · rw [hkey left right (hr.trans hl.symm)]
    simp [Before, isFolder, hl, hr]
  · simp [lessThan, Before, isFolder, hl, hr]
  · simp [lessThan, Before, isFolder, hl, hr]
  · rw [hkey left right (hr.trans hl.symm)]
    simp [Before, isFolder, hl, hr]

theorem sortOrder_of_key {κ : Type} [LinearOrder κ] {m : FileViewState}
    {readyLess : FileViewTree → FileViewTree → Bool} {sortCol : Nat} (key : FileViewTree → κ)
    (hkey : ∀ left right : FileViewTree, right.label.type = left.label.type →
      (lessThan m readyLess sortCol left right = true ↔ key left < key right)) :
    IsStrictWeakOrder {item // m.IsNode item}
      fun left right => lessThan m readyLess sortCol left right = true := by
  have heq : (fun left right : {item // m.IsNode item} =>
      lessThan m readyLess sortCol left right = true) =
      Before (fun item : {item // m.IsNode item} => isFolder item)
        (fun item : {item // m.IsNode item} => key item) := by
    funext left right
    exact propext (lessThan_iff_before hkey left.2 right.2)
  rw [heq]
  exact isStrictWeakOrder_before _ _

theorem lessThan_name {m : FileViewState} {readyLess : FileViewTree → FileViewTree → Bool}
    {left right : FileViewTree} (h : right.label.type = left.label.type) :
    lessThan m readyLess 0 left right = true ↔
      OrderDual.toDual (utf16 left.label.name) <
        OrderDual.toDual (utf16 right.label.name) := by
  simp [lessThan, h, comparesLess]

theorem lessThan_size {m : FileViewState} {readyLess : FileViewTree → FileViewTree → Bool}
    {left right : FileViewTree} (h : right.label.type = left.label.type) :
    lessThan m readyLess 1 left right = true ↔
      (m.data 1 left).toLongLong < (m.data 1 right).toLongLong := by
  simp [lessThan, h]

theorem lessThan_priority {m : FileViewState} {readyLess : FileViewTree → FileViewTree → Bool}
    {left right : FileViewTree} (h : right.label.type = left.label.type) :
    lessThan m readyLess 3 left right = true ↔ (m.data 3 left).toInt < (m.data 3 right).toInt := by
  simp [lessThan, h]

/-- By name, by size and by priority the items of the file tab are in a strict weak order,
and every file comes before every folder. -/
theorem lessThan_sortOrder (m : FileViewState) (readyLess : FileViewTree → FileViewTree → Bool)
    {sortCol : Nat} (hcol : sortCol = 0 ∨ sortCol = 1 ∨ sortCol = 3) :
    IsStrictWeakOrder {item // m.IsNode item}
      (fun left right => lessThan m readyLess sortCol left right = true) ∧
    ∀ file folder, m.IsNode file → m.IsNode folder → file.label.type = .file →
      folder.label.type = .folder → lessThan m readyLess sortCol file folder = true ∧
        lessThan m readyLess sortCol folder file = false := by
  constructor
  · rcases hcol with rfl | rfl | rfl
    · exact sortOrder_of_key _ fun left right => lessThan_name
    · exact sortOrder_of_key _ fun left right => lessThan_size
    · exact sortOrder_of_key _ fun left right => lessThan_priority
  · intro file folder _ _ hfile hfolder
    simp [lessThan, hfile, hfolder]

def sampleState : FileViewState where
  platform := .unix
  calls := FileViewModel.sampleCalls
  dataSource := some
    ⟨⟨FileViewModel.sampleCalls.map Prod.snd, ⟨rfl, rfl, rfl, trivial⟩⟩, false, [1, 0, 7]⟩

theorem lessThan_sortOrder_sample :
    IsStrictWeakOrder {item // sampleState.IsNode item}
      (fun left right => lessThan sampleState (fun _ _ => false) 3 left right = true) ∧
    ∀ file folder, sampleState.IsNode file → sampleState.IsNode folder →
      file.label.type = .file → folder.label.type = .folder →
      lessThan sampleState (fun _ _ => false) 3 file folder = true ∧
        lessThan sampleState (fun _ _ => false) 3 folder file = false :=
  lessThan_sortOrder sampleState _ (.inr (.inr rfl))

end FileViewSortProxyModel
end CuteTorrent
