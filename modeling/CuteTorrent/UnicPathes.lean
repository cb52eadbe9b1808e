import CuteTorrent.FileTreePaths

/-! `getUnicPathes`: the paths of the items without children. -/
namespace CuteTorrent
namespace FileTreeModel
open RoseTree

mutual
/-- `getUnicPathes(current, ends)`; an item of `ends` is given by the names from the
root's child down to it. -/
def ends : FileTree → List QString → List (List QString)
  | .node _ [], here => [here]
  | .node _ (c :: cs), here => childEnds (c :: cs) here
def childEnds : List FileTree → List QString → List (List QString)
  | [], _ => []
  | c :: cs, here => ends c (here ++ [c.label.name]) ++ childEnds cs here
end

/-- `FileTreeItem::getPath` stops below the root; the root itself shows its own text. -/
def getPath (p : Platform) (t : FileTree) (names : List QString) : QString :=
  if names = [] then t.label.name else joinPath p names

def getUnicPathes (p : Platform) (t : FileTree) : List QString := (ends t []).map (getPath p t)

theorem childEnds_eq {cs : List FileTree} {here : List QString}
    (h : ∀ c ∈ cs, ∀ there, ends c there =
      ((walk FileTreeItem.name c).filter fun e => e.2.children.isEmpty).map fun e => there ++ e.1) :
    childEnds cs here = ((walkChildren FileTreeItem.name cs).filter fun e =>
      e.2.children.isEmpty).map fun e => here ++ e.1 := by
  induction cs with
  | nil => rfl
  | cons c cs ih =>
    rw [childEnds, walkChildren, h c List.mem_cons_self, ih fun d hd => h d (List.mem_cons_of_mem _ hd),
      List.filter_append, List.map_append, List.filter_map, List.map_map]
    congr 2
    funext e
    simp

theorem ends_eq (t : FileTree) (here : List QString) : ends t here =
    ((walk FileTreeItem.name t).filter fun e => e.2.children.isEmpty).map fun e => here ++ e.1 := by
  induction t using RoseTree.induct generalizing here with
  | h a cs ih =>
    cases cs with
    | nil => simp [ends, walk, walkChildren, children]
    | cons c cs =>
      rw [ends, walk, List.filter_cons_of_neg (by simp [children])]
      exact childEnds_eq ih

theorem mem_ends {t : FileTree} (h : Distinct t) {ns : List QString} :
    ns ∈ ends t [] ↔ ∃ u, lookup t ns = some u ∧ u.children = [] := by
  simp only [ends_eq, List.nil_append, List.mem_map, List.mem_filter, List.isEmpty_iff, Prod.exists,
    lookup_eq]
  constructor
  · rintro ⟨ms, u, ⟨hmem, hleaf⟩, rfl⟩
    exact ⟨u, (mem_walk h).mp hmem, hleaf⟩
  · rintro ⟨u, hu, hleaf⟩
    exact ⟨ns, u, ⟨(mem_walk h).mpr hu, hleaf⟩, rfl⟩

theorem nodup_ends {t : FileTree} (h : Distinct t) : (ends t []).Nodup := by
  have hwalk : (walk FileTreeItem.name t).map Prod.fst |>.Nodup := nodup_walk h
  rw [ends_eq]
  simp only [List.nil_append]
  exact hwalk.sublist (List.filter_sublist.map Prod.fst)

/-! ### The tree of the added paths -/

theorem build_eq_insertAll (p : Platform) (files : List (QString × QString)) :
    build p files = insertAll (fun f => pathItem f.2) (fun f : QString × QString => pathParts p f.1)
      FileTreeItem.name rootItem files := by
  rw [build, insertAll]
  congr 1
  funext t f
  rw [addPath_eq_descend, descend_eq_insertPath]

theorem pathParts_ne_nil (p : Platform) (path : QString) : pathParts p path ≠ [] :=
  List.splitOn_ne_nil _ _

theorem joinPath_pathParts (p : Platform) (path : QString) :
    joinPath p (pathParts p path) = p.toNativeSeparators path := List.intercalate_splitOn _

def IsUnic (p : Platform) (files : List (QString × QString)) (path : QString) : Prop :=
  ∀ f ∈ files, ¬ (pathParts p path <+: pathParts p f.1 ∧ pathParts p path ≠ pathParts p f.1)

theorem mem_ends_build {p : Platform} {files : List (QString × QString)} (hne : files ≠ [])
    {ns : List QString} :
    ns ∈ ends (build p files) [] ↔ ∃ f ∈ files, pathParts p f.1 = ns ∧ IsUnic p files f.1 := by
  rw [mem_ends (holds_build p files).distinct]
  simp only [lookup_eq, build_eq_insertAll]
  rw [leaf_insertAll_iff _ _ (fun f => name_pathItem f.2) rfl hne]
  refine exists_congr fun f => and_congr_right fun _ => ?_
  constructor
  · rintro ⟨rfl, hmax⟩
    refine ⟨rfl, ?_⟩
    rintro g hg ⟨hpre, hneq⟩
    exact hneq (hmax g hg hpre)
  · rintro ⟨rfl, hmax⟩
    exact ⟨rfl, fun g hg hpre => by_contra fun hneq => hmax g hg ⟨hpre, hneq⟩⟩

theorem ends_build_clean {p : Platform} {files : List (QString × QString)} (hne : files ≠ [])
    {ns : List QString} (h : ns ∈ ends (build p files) []) :
    ns ≠ [] ∧ ∀ n ∈ ns, p.separator ∉ n := by
  obtain ⟨f, -, rfl, -⟩ := (mem_ends_build hne).mp h
  exact ⟨pathParts_ne_nil p f.1, fun n hn => not_mem_of_mem_splitOn hn⟩

theorem nodup_getUnicPathes (p : Platform) {files : List (QString × QString)} (hne : files ≠ []) :
    (getUnicPathes p (build p files)).Nodup := by
  refine List.Nodup.map_on ?_ (nodup_ends (holds_build p files).distinct)
  intro ns hns ms hms heq
  obtain ⟨hnil, hclean⟩ := ends_build_clean hne hns
  obtain ⟨hnil', hclean'⟩ := ends_build_clean hne hms
  rw [getPath, getPath, if_neg hnil, if_neg hnil'] at heq
  rw [← (joinPath_eq_iff hnil hclean _).mp heq, (joinPath_eq_iff hnil' hclean' _).mp rfl]

theorem mem_getUnicPathes (p : Platform) {files : List (QString × QString)} (hne : files ≠ [])
    (s : QString) : s ∈ getUnicPathes p (build p files) ↔
      ∃ f ∈ files, s = p.toNativeSeparators f.1 ∧ IsUnic p files f.1 := by
  have hpath : ∀ f : QString × QString,
      getPath p (build p files) (pathParts p f.1) = p.toNativeSeparators f.1 := by
    intro f
    rw [getPath, if_neg (pathParts_ne_nil p f.1), joinPath_pathParts]
  simp only [getUnicPathes, List.mem_map, mem_ends_build hne]
  constructor
  · rintro ⟨ns, ⟨f, hf, rfl, hmax⟩, rfl⟩
    exact ⟨f, hf, hpath f, hmax⟩
  · rintro ⟨f, hf, rfl, hmax⟩
    exact ⟨_, ⟨f, hf, rfl, hmax⟩, hpath f⟩

/-- Of the paths that were added, those that no other goes on from come back, each
once and with native separators. -/
theorem getUnicPathes_unic (p : Platform) {files : List (QString × QString)} (hne : files ≠ []) :
    (getUnicPathes p (build p files)).Nodup ∧
      ∀ s, s ∈ getUnicPathes p (build p files) ↔
        ∃ f ∈ files, s = p.toNativeSeparators f.1 ∧ IsUnic p files f.1 :=
  ⟨nodup_getUnicPathes p hne, mem_getUnicPathes p hne⟩

def nestedPaths : List (QString × QString) := [("/a".toList, []), ("/a/b".toList, [])]

theorem getUnicPathes_nestedPaths : (getUnicPathes .unix (build .unix nestedPaths)).Nodup ∧
    ∀ s, s ∈ getUnicPathes .unix (build .unix nestedPaths) ↔ ∃ f ∈ nestedPaths,
      s = Platform.unix.toNativeSeparators f.1 ∧ IsUnic .unix nestedPaths f.1 :=
  getUnicPathes_unic .unix (by decide)

example : getUnicPathes .unix (build .unix nestedPaths) = ["/a/b".toList] := by decide

end FileTreeModel
end CuteTorrent
