import Mathlib.Data.List.Sort
import CuteTorrent.FileTreePaths
import CuteTorrent.TorrentManager

/-! `OpenTorrentDialog`: from a torrent's files to the tree with the check boxes,
and from the check boxes to the priorities `AddTorrent` hands on. -/
namespace CuteTorrent
namespace OpenTorrentDialog
open FileTreeModel RoseTree TorrentManager

/-- `QStringList::sort`, by the code units. -/
def sortStrings (l : List QString) : List QString := l.insertionSort fun s t => utf16 s ≤ utf16 t

def shown (path : QByteArray) : QString := fromUtf8 (cString path)

/-- `files.at(i).split('|')`; there is always a second part. -/
def splitEntry (s : QString) : QString × QString :=
  ((s.splitOn '|').getD 0 [], (s.splitOn '|').getD 1 [])

section
variable (p : Platform) (toKbMbGb : Nat → QString)

def SetData (files : List (QByteArray × Nat)) : FileTree :=
  build p ((sortStrings (files.map fun f => shown f.1 ++ '|' :: toKbMbGb f.2)).map splitEntry)

/-- `AccepTorrent`, for a dialog that was not opened on a magnet link. -/
def AccepTorrent (model : FileTree) (torrentFilename path name group : QString)
    (sequntial : Bool) : AddCall where
  path := torrentFilename
  savePath := path
  name := name
  filePriorities := getFilePiorites p model
  group := group
  sequntial := sequntial

def parts (path : QByteArray) : List QString := pathParts p (shown path)

/-- The files of a torrent: no path holds the separator of the list, and none is
the beginning of another. -/
structure FileList where
  files : List (QByteArray × Nat)
  no_bar : ∀ f ∈ files, '|' ∉ shown f.1
  apart : files.Pairwise fun f g => ¬ parts p f.1 <+: parts p g.1 ∧ ¬ parts p g.1 <+: parts p f.1

theorem splitEntry_fst {path size : QString} (h : '|' ∉ path) :
    (splitEntry (path ++ '|' :: size)).1 = path := by
  rw [splitEntry, List.splitOn_append_cons_self_of_not_mem h]
  rfl

theorem mem_paths_iff {files : List (QByteArray × Nat)} (h : ∀ f ∈ files, '|' ∉ shown f.1)
    (names : List QString) :
    names ∈ ((sortStrings (files.map fun f => shown f.1 ++ '|' :: toKbMbGb f.2)).map splitEntry).map
      (fun f => pathParts p f.1) ↔ ∃ f ∈ files, parts p f.1 = names := by
  have hmem : ∀ s, s ∈ sortStrings (files.map fun f => shown f.1 ++ '|' :: toKbMbGb f.2) ↔
      s ∈ files.map fun f => shown f.1 ++ '|' :: toKbMbGb f.2 :=
    fun s => (List.perm_insertionSort _ _).mem_iff
  constructor
  · intro hn
    obtain ⟨e, he, rfl⟩ := List.mem_map.mp hn
    obtain ⟨s, hs, rfl⟩ := List.mem_map.mp he
    obtain ⟨f, hf, rfl⟩ := List.mem_map.mp ((hmem s).mp hs)
    exact ⟨f, hf, by rw [parts, splitEntry_fst (h f hf)]⟩
  · rintro ⟨f, hf, rfl⟩
    apply List.mem_map.mpr
    refine ⟨_, List.mem_map_of_mem ((hmem _).mpr (List.mem_map_of_mem hf)), ?_⟩
    rw [parts, splitEntry_fst (h f hf)]

theorem leaf_of_file (l : FileList p) (as : List Toggle) {f : QByteArray × Nat} (hf : f ∈ l.files) :
    ∃ u, lookup (Runs.final toggle (SetData p toKbMbGb l.files) as) (parts p f.1) = some u ∧
      u.children = [] := by
  have hholds := holds_toggles (holds_build p ((sortStrings
    (l.files.map fun f => shown f.1 ++ '|' :: toKbMbGb f.2)).map splitEntry)) as
  apply hholds.leaf ((mem_paths_iff p toKbMbGb l.no_bar _).mpr ⟨f, hf, rfl⟩)
  intro q hq hpre
  obtain ⟨g, hg, rfl⟩ := (mem_paths_iff p toKbMbGb l.no_bar _).mp hq
  by_contra hne
  have hfg : f ≠ g := fun he => hne (by rw [he])
  let _ : Std.Symm fun f g : QByteArray × Nat =>
      ¬ parts p f.1 <+: parts p g.1 ∧ ¬ parts p g.1 <+: parts p f.1 := ⟨fun _ _ h => h.symm⟩
  exact (l.apart.forall hf hg hfg).1 hpre

def Selected (l : FileList p) (model : FileTree) (priorities : List Nat) : Prop :=
  priorities.length = l.files.length ∧
    ∀ (i : Nat) (f : QByteArray × Nat), l.files[i]? = some f → ∃ u, lookup model (parts p f.1) = some u ∧ u.children = [] ∧
      priorities[i]? = some (priority u.label.checkedState)

/-- `AddTorrent` looks a file up under the names that lead to it in the tree. -/
theorem getElem?_priorities {model : FileTree} (hd : Distinct model) (hc : Clean p model)
    (hne : getFilePiorites p model ≠ []) (files : List QByteArray) (i : Nat) :
    (filePrioritiesVector p files (getFilePiorites p model))[i]? = files[i]?.map fun path =>
      ((lookup model (parts p path)).map fun v => priority v.label.checkedState).getD 1 := by
  have hkey : ∀ path, p.fromCString path = shown path := fun _ => rfl
  rw [filePrioritiesVector, if_neg hne, List.getElem?_map]
  simp only [find_getFilePiorites hd hc, hkey, parts, pathParts]

theorem getFilePiorites_ne_nil {model u : FileTree} (hd : Distinct model) (hc : Clean p model)
    {path : QByteArray} (hu : lookup model (parts p path) = some u) :
    getFilePiorites p model ≠ [] := by
  intro hnil
  have hfind := find_getFilePiorites hd hc (p.toNativeSeparators (shown path))
  rw [hnil, ← pathParts, ← parts, hu] at hfind
  exact absurd hfind (by simp)

theorem selected_of_leaves {l : FileList p} {model : FileTree} (hd : Distinct model)
    (hc : Clean p model)
    (hleaf : ∀ f ∈ l.files, ∃ u, lookup model (parts p f.1) = some u ∧ u.children = []) :
    Selected p l model
      (filePrioritiesVector p (l.files.map Prod.fst) (getFilePiorites p model)) := by
  constructor
  · cases hfiles : l.files with
    | nil => simp [filePrioritiesVector]
    | cons f fs =>
      obtain ⟨u, hu, -⟩ := hleaf f (by simp [hfiles])
      rw [filePrioritiesVector, if_neg (getFilePiorites_ne_nil p hd hc hu)]
      simp
  · intro i f hf
    obtain ⟨u, hu, hchildren⟩ := hleaf f (List.mem_of_getElem? hf)
    refine ⟨u, hu, hchildren, ?_⟩
    rw [getElem?_priorities p hd hc (getFilePiorites_ne_nil p hd hc hu), List.getElem?_map, hf]
    simp [hu]

/-- The files ticked in the dialog are the files `AddTorrent` asks for, whatever
the user checked and cleared before. -/
theorem ticked_files_downloaded (l : FileList p) (as : List Toggle) (t : TorrentInfo)
    (ht : t.files = l.files.map Prod.fst) (fields : AddFields) (buf : QByteArray) (sequntial : Bool)
    (torrentFilename path name group : QString) :
    Selected p l (Runs.final toggle (SetData p toKbMbGb l.files) as)
        (addParams p t fields (AccepTorrent p (Runs.final toggle (SetData p toKbMbGb l.files) as)
          torrentFilename path name group sequntial).filePriorities buf sequntial).filePriorities := by
  have hholds := holds_toggles (holds_build p ((sortStrings
    (l.files.map fun f => shown f.1 ++ '|' :: toKbMbGb f.2)).map splitEntry)) as
  rw [addParams, ht]
  exact selected_of_leaves p hholds.distinct hholds.clean
    fun f hf => leaf_of_file p toKbMbGb l as hf

end

def twoFiles : FileList .windows where
  files := [(literal "Фильм\\ф.txt", 1), (literal "Фильм\\a.txt", 1)]
  no_bar := by decide +kernel
  apart := by decide +kernel

def oneByte : Nat → QString := fun _ => "1 B".toList

/-- The call of `AddTorrent`, with the folder cleared and the second file ticked again. -/
def secondFileOnly : AddTorrentParams :=
  addParams .windows ⟨.zero, [], twoFiles.files.map Prod.fst, true⟩ ⟨[], [], []⟩
    (AccepTorrent .windows
      (Runs.final toggle (SetData .windows oneByte twoFiles.files) [⟨[], 0, false⟩, ⟨[0], 0, true⟩])
      [] [] [] [] false).filePriorities [] false

theorem cyrillic_file_left_out : secondFileOnly.filePriorities = [0, 1] ∧
    Selected .windows twoFiles
      (Runs.final toggle (SetData .windows oneByte twoFiles.files) [⟨[], 0, false⟩, ⟨[0], 0, true⟩])
      secondFileOnly.filePriorities :=
  ⟨by decide +kernel, ticked_files_downloaded .windows oneByte twoFiles
    [⟨[], 0, false⟩, ⟨[0], 0, true⟩] ⟨.zero, [], twoFiles.files.map Prod.fst, true⟩ rfl ⟨[], [], []⟩
    [] false [] [] [] []⟩

end OpenTorrentDialog
end CuteTorrent
