import CuteTorrent.ApplyBackupPage
import CuteTorrent.OpenTorrentDialog
import CuteTorrent.UnicPathes

/-! The table in which the save paths of a backup are given new ones. -/
namespace CuteTorrent
namespace ApplyBackupPage
open FileTreeModel

/-- The second part of every line of at least three. -/
def pathes (text : QString) : List QString :=
  (text.splitOn '\n').filterMap fun line =>
    match line.splitOn '|' with
    | _ :: path :: _ :: _ => some path
    | _ => none

def GetLongestCommonSubstr (p : Platform) (strings : List QString) : List QString :=
  getUnicPathes p (build p ((OpenTorrentDialog.sortStrings strings).map fun s => (s, [])))

/-- The rows of the table, without new paths; an empty text is refused. -/
def parseData (p : Platform) (text : QString) : Option (List (QString × QString)) :=
  if text = [] then none
  else some ((GetLongestCommonSubstr p (pathes text)).map fun line => (line, []))

def Edits (rows edited : List (QString × QString)) : Prop :=
  edited.map Prod.fst = rows.map Prod.fst

def Remappable (p : Platform) (text path : QString) : Prop :=
  ∃ rows, parseData p text = some rows ∧ path ∈ rows.map Prod.fst ∧
    ∀ edited newPath, Edits rows edited → newPath ≠ [] → (path, newPath) ∈ edited →
      Assoc.find path (chmagePathMap edited) = some newPath

theorem find_chmagePathMap {rows : List (QString × QString)} (hnodup : (rows.map Prod.fst).Nodup)
    {path newPath : QString} (hne : newPath ≠ []) (hmem : (path, newPath) ∈ rows) :
    Assoc.find path (chmagePathMap rows) = some newPath := by
  rw [chmagePathMap_eq_filter, Assoc.find_foldl_insert_nil]
  apply Assoc.find_of_mem
  · have hsub : ((rows.filter fun row => decide (row.2 ≠ [])).map Prod.fst).Nodup :=
      hnodup.sublist (List.filter_sublist.map Prod.fst)
    rw [Assoc.keys, List.map_reverse, List.nodup_reverse]
    exact hsub
  · exact List.mem_reverse.mpr (List.mem_filter.mpr ⟨hmem, decide_eq_true hne⟩)

theorem mem_pathes {text line infoHash path group : QString} {rest : List QString}
    (hline : line ∈ text.splitOn '\n') (hparts : line.splitOn '|' = infoHash :: path :: group :: rest) :
    path ∈ pathes text :=
  List.mem_filterMap.mpr ⟨line, hline, by rw [hparts]⟩

/-- The text of the path is what the table would show for it, and no other save path
of the backup lies inside the folder. -/
def Shown (p : Platform) (text path : QString) : Prop :=
  p.toNativeSeparators path = path ∧ ∀ other ∈ pathes text,
    ¬ (pathParts p path <+: pathParts p other ∧ pathParts p path ≠ pathParts p other)

theorem mem_GetLongestCommonSubstr {p : Platform} {text path : QString} (hpath : path ∈ pathes text) :
    path ∈ GetLongestCommonSubstr p (pathes text) ↔ Shown p text path := by
  have hmem : ∀ s, s ∈ OpenTorrentDialog.sortStrings (pathes text) ↔ s ∈ pathes text :=
    fun s => (List.perm_insertionSort _ _).mem_iff
  have hne : (OpenTorrentDialog.sortStrings (pathes text)).map (fun s => (s, ([] : QString))) ≠ [] := by
    intro hnil
    have hin := (hmem path).mpr hpath
    rw [List.map_eq_nil_iff.mp hnil] at hin
    exact absurd hin List.not_mem_nil
  rw [GetLongestCommonSubstr, mem_getUnicPathes p hne path]
  simp only [List.mem_map, IsUnic, forall_exists_index, and_imp, forall_apply_eq_imp_iff₂, hmem]
  constructor
  · rintro ⟨-, ⟨s, hs, rfl⟩, rfl, hmax⟩
    have hparts : pathParts p (p.toNativeSeparators s) = pathParts p s := by
      rw [pathParts, p.toNativeSeparators_idem, pathParts]
    refine ⟨p.toNativeSeparators_idem s, fun other hother => ?_⟩
    rw [hparts]
    exact hmax other hother
  · rintro ⟨hnative, hmax⟩
    exact ⟨_, ⟨path, hpath, rfl⟩, hnative.symm, hmax⟩

theorem nodup_GetLongestCommonSubstr {p : Platform} {strings : List QString} (hne : strings ≠ []) :
    (GetLongestCommonSubstr p strings).Nodup := by
  refine nodup_getUnicPathes p ?_
  intro hnil
  have hperm := List.perm_insertionSort (fun s t => utf16 s ≤ utf16 t)
    strings
  rw [show List.insertionSort _ strings = [] from List.map_eq_nil_iff.mp hnil] at hperm
  exact hne hperm.symm.eq_nil

theorem remappable_of_mem {p : Platform} {text path : QString} (hpath : path ∈ pathes text) :
    Remappable p text path ↔ Shown p text path := by
  have htext : text ≠ [] := by
    rintro rfl
    exact absurd hpath List.not_mem_nil
  have hfirst : ((GetLongestCommonSubstr p (pathes text)).map fun line =>
      (line, ([] : QString))).map Prod.fst = GetLongestCommonSubstr p (pathes text) := by
    rw [List.map_map]
    exact List.map_id _
  rw [Remappable, parseData, if_neg htext, ← mem_GetLongestCommonSubstr hpath]
  constructor
  · rintro ⟨rows, hrows, hmem, -⟩
    rw [← Option.some.inj hrows, hfirst] at hmem
    exact hmem
  · intro hmem
    refine ⟨_, rfl, hfirst.symm ▸ hmem, ?_⟩
    intro edited newPath hedits hnew hin
    rw [Edits, hfirst] at hedits
    refine find_chmagePathMap ?_ hnew hin
    rw [hedits]
    exact nodup_GetLongestCommonSubstr (List.ne_nil_of_mem hpath)

/-- A save path can be given a new one exactly when it is written as the table shows
paths and no other save path lies inside it. -/
theorem remappable_iff (p : Platform) {text line infoHash path group : QString} {rest : List QString}
    (hline : line ∈ text.splitOn '\n') (hparts : line.splitOn '|' = infoHash :: path :: group :: rest) :
    Remappable p text path ↔ Shown p text path := remappable_of_mem (mem_pathes hline hparts)

def nestedBackup : QString := "h|/a|\nk|/a/b|".toList

theorem remappable_inner : Remappable .unix nestedBackup "/a/b".toList ↔
    Shown .unix nestedBackup "/a/b".toList :=
  @remappable_iff .unix nestedBackup "k|/a/b|".toList "k".toList "/a/b".toList [] []
    (by decide) (by decide)

theorem outer_not_remappable : ¬ ∀ (p : Platform) (text line infoHash path group : QString)
    (rest : List QString), line ∈ text.splitOn '\n' →
      line.splitOn '|' = infoHash :: path :: group :: rest → Remappable p text path := by
  intro h
  obtain ⟨rows, hrows, hmem, -⟩ := h .unix nestedBackup "h|/a|".toList "h".toList "/a".toList [] []
    (by decide) (by decide)
  have hall : parseData .unix nestedBackup = some [("/a/b".toList, [])] := by decide +kernel
  rw [hall] at hrows
  rw [← Option.some.inj hrows] at hmem
  revert hmem
  decide

end ApplyBackupPage
end CuteTorrent
