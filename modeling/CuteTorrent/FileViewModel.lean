import Mathlib.Algebra.GroupWithZero.Nat
import Mathlib.Algebra.Order.BigOperators.Group.List
import Mathlib.Algebra.Order.Group.Nat
import Mathlib.Data.List.Pairwise
import CuteTorrent.Library.PathTree
import CuteTorrent.Qt

/-! `FileViewModel`: the tree of the file tab, with the entry of each file and the
size of each folder. -/
namespace CuteTorrent

structure FileEntry where
  path : QByteArray
  offset : Nat
  size : Nat
  padFile : Bool
deriving DecidableEq, Repr

inductive ItemType where
  | none
  | folder
  | file
deriving DecidableEq, Repr

structure FileViewTreeItem where
  fileEntery : FileEntry
  type : ItemType
  name : QString
deriving DecidableEq

abbrev FileViewTree := RoseTree FileViewTreeItem

namespace FileViewModel
open RoseTree

def fakeEntery (path : QByteArray) : FileEntry := ⟨path, 0, 0, false⟩

/-- `m_pRoot` -/
def emptyRoot : FileViewTree := .node ⟨fakeEntery [], .none, []⟩ []

section
variable (p : Platform)

def pathparts (path : QByteArray) : List QString :=
  (p.toNativeSeparators (p.fromStdString path)).splitOn p.separator

def folderPath (above : QByteArray) (part : QString) : QByteArray :=
  p.toStdString (p.fromStdString above ++ p.separator :: part)

def newItem (fe : FileEntry) (above : FileViewTreeItem) (part : QString) (rest : List QString) :
    FileViewTreeItem :=
  if rest = [] then ⟨fe, .file, part⟩
  else ⟨fakeEntery (folderPath p above.fileEntery.path part), .folder, part⟩

/-- The first path goes down as a chain; the path of the folders is put together
on the way. -/
def chain (fe : FileEntry) : QByteArray → List QString → FileViewTree → FileViewTree
  | _, [], t => t
  | _, [part], .node a cs => .node a (cs ++ [.node ⟨fe, .file, part⟩ []])
  | fakePath, part :: next :: parts, .node a cs =>
    .node a (cs ++ [chain fe (folderPath p fakePath part) (next :: parts)
      (.node ⟨fakeEntery (folderPath p fakePath part), .folder, part⟩ [])])

def AddPath (t : FileViewTree) (path : QByteArray) (fe : FileEntry) : FileViewTree :=
  if t.children = [] then chain p fe [] (pathparts p path) t
  else insertPath FileViewTreeItem.name (newItem p fe) (pathparts p path) t

def addPaths (calls : List (QByteArray × FileEntry)) : FileViewTree :=
  calls.foldl (fun t c => AddPath p t c.1 c.2) emptyRoot

end

mutual
/-- The sum is a `long long`. -/
def CalculateFolderSize : FileViewTree → Int
  | .node _ cs => childrenSize cs 0
def childrenSize : List FileViewTree → Int → Int
  | [], result => result
  | .node a cs :: children, result =>
    childrenSize children ((result + if a.type = .file then (a.fileEntery.size : Int)
      else CalculateFolderSize (.node a cs)).bmod (2 ^ 64))
end

/-! ### The tree of a sequence of calls -/

theorem chain_eq_insertPath (p : Platform) (fe : FileEntry) (parts : List QString)
    (a : FileViewTreeItem) : chain p fe a.fileEntery.path parts (.node a []) =
      insertPath FileViewTreeItem.name (newItem p fe) parts (.node a []) := by
  induction parts generalizing a with
  | nil => rfl
  | cons part parts ih =>
    cases parts with
    | nil => rfl
    | cons next parts =>
      have hitem : newItem p fe a part (next :: parts) =
          ⟨fakeEntery (folderPath p a.fileEntery.path part), .folder, part⟩ := if_neg (by simp)
      have hrest := ih ⟨fakeEntery (folderPath p a.fileEntery.path part), .folder, part⟩
      rw [chain, insertPath, hitem]
      exact congrArg (fun c => node a [c]) hrest

theorem name_newItem (p : Platform) (fe : FileEntry) (above : FileViewTreeItem) (part : QString)
    (rest : List QString) : (newItem p fe above part rest).name = part := by
  rw [newItem]
  split_ifs <;> rfl

section
variable (p : Platform)

theorem addPaths_eq_insertAll (calls : List (QByteArray × FileEntry)) :
    addPaths p calls = insertAll (fun c => newItem p c.2)
      (fun c : QByteArray × FileEntry => pathparts p c.1) FileViewTreeItem.name emptyRoot calls := by
  have hfold : ∀ t : FileViewTree, t.label.fileEntery.path = [] →
      calls.foldl (fun t c => AddPath p t c.1 c.2) t = insertAll (fun c => newItem p c.2)
        (fun c : QByteArray × FileEntry => pathparts p c.1) FileViewTreeItem.name t calls := by
    induction calls with
    | nil => exact fun _ _ => rfl
    | cons c calls ih =>
      intro t ht
      have hadd : AddPath p t c.1 c.2 =
          insertPath FileViewTreeItem.name (newItem p c.2) (pathparts p c.1) t := by
        rw [AddPath]
        split_ifs with hchildren
        · obtain ⟨a, cs⟩ := t
          obtain rfl : cs = [] := hchildren
          have hpath : a.fileEntery.path = [] := ht
          rw [← hpath]
          exact chain_eq_insertPath p c.2 _ a
        · rfl
      rw [List.foldl_cons, hadd, insertAll_cons]
      exact ih _ (by rw [label_insertPath, ht])
  exact hfold emptyRoot rfl

end

/-! ### The size of a folder -/

def fileSizes (nodes : List (List QString × FileViewTree)) : Nat :=
  ((nodes.filter fun e => decide (e.2.label.type = .file)).map fun e =>
    e.2.label.fileEntery.size).sum

theorem fileSizes_append (l l' : List (List QString × FileViewTree)) :
    fileSizes (l ++ l') = fileSizes l + fileSizes l' := by
  rw [fileSizes, List.filter_append, List.map_append, List.sum_append]
  rfl

theorem fileSizes_cons_file {u : FileViewTree} (h : u.label.type = .file) (ns : List QString)
    (l : List (List QString × FileViewTree)) :
    fileSizes ((ns, u) :: l) = u.label.fileEntery.size + fileSizes l := by
  simp [fileSizes, h]

theorem fileSizes_cons_other {u : FileViewTree} (h : u.label.type ≠ .file) (ns : List QString)
    (l : List (List QString × FileViewTree)) : fileSizes ((ns, u) :: l) = fileSizes l := by
  simp [fileSizes, h]

theorem fileSizes_map (f : List QString → List QString) (l : List (List QString × FileViewTree)) :
    fileSizes (l.map fun e => (f e.1, e.2)) = fileSizes l := by
  induction l with
  | nil => rfl
  | cons e l ih =>
    obtain ⟨ns, u⟩ := e
    by_cases h : u.label.type = .file
    · rw [List.map_cons, fileSizes_cons_file h, fileSizes_cons_file h, ih]
    · rw [List.map_cons, fileSizes_cons_other h, fileSizes_cons_other h, ih]

/-- As long as no file has anything below it, the size is that of all files below,
cut to 64 bits. -/
theorem CalculateFolderSize_eq {t : FileViewTree}
    (hleaf : Everywhere (fun u => u.label.type = .file → u.children = []) t) :
    CalculateFolderSize t =
      (fileSizes (walkChildren FileViewTreeItem.name t.children) : Int).bmod (2 ^ 64) := by
  induction t using RoseTree.induct with
  | h a cs ih =>
    obtain ⟨-, hcs⟩ := everywhere_node.mp hleaf
    have hloop : ∀ x : Int, childrenSize cs (x.bmod (2 ^ 64)) =
        (x + fileSizes (walkChildren FileViewTreeItem.name cs)).bmod (2 ^ 64) := by
      clear hleaf
      induction cs with
      | nil =>
        intro x
        rw [childrenSize, walkChildren]
        exact congrArg (fun y : Int => y.bmod (2 ^ 64)) (Int.add_zero x).symm
      | cons c cs ihcs =>
        intro x
        have hc := ih c List.mem_cons_self (hcs c List.mem_cons_self)
        have hown := hcs c List.mem_cons_self [] c rfl
        have hrest := ihcs (fun d hd => ih d (List.mem_cons_of_mem _ hd))
          fun d hd => hcs d (List.mem_cons_of_mem _ hd)
        obtain ⟨b, ds⟩ := c
        rw [childrenSize, walkChildren, fileSizes_append, fileSizes_map, walk_eq_cons]
        by_cases hfile : (node b ds).label.type = .file
        · obtain rfl : ds = [] := hown hfile
          have htype : b.type = .file := hfile
          rw [if_pos htype, fileSizes_cons_file hfile, Int.bmod_add_bmod, hrest]
          simp only [children, label, walkChildren, fileSizes, List.filter_nil, List.map_nil,
            List.sum_nil]
          congr 1
          omega
        · have htype : ¬ b.type = .file := hfile
          rw [if_neg htype, fileSizes_cons_other hfile, hc, Int.bmod_add_bmod, Int.add_bmod_bmod,
            hrest]
          congr 1
          omega
    rw [CalculateFolderSize, children]
    exact (hloop 0).trans (by rw [Int.zero_add])

section
variable (p : Platform) (calls : List (QByteArray × FileEntry))

def PrefixFree : Prop :=
  calls.Pairwise fun c d => ¬ pathparts p c.1 <+: pathparts p d.1 ∧ ¬ pathparts p d.1 <+: pathparts p c.1

def Below (ns : List QString) (c : QByteArray × FileEntry) : Prop :=
  ns <+: pathparts p c.1 ∧ ns ≠ pathparts p c.1

instance (ns : List QString) (c : QByteArray × FileEntry) : Decidable (Below p ns c) :=
  inferInstanceAs (Decidable (_ ∧ _))

def nodesOf (type : ItemType) (t : FileViewTree) : List (List QString × FileViewTree) :=
  (walk FileViewTreeItem.name t).filter fun e => decide (e.2.label.type = type)

structure IsDirectoryTree (t : FileViewTree) : Prop where
  files : ((nodesOf .file t).map fun e => (e.1, e.2.label.fileEntery)).Perm
    (calls.map fun c => (pathparts p c.1, c.2))
  leaves : ∀ e ∈ nodesOf .file t, e.2.children = []
  folders_once : ((nodesOf .folder t).map Prod.fst).Nodup
  folders : ∀ ns, ns ∈ (nodesOf .folder t).map Prod.fst ↔ ns ≠ [] ∧ ∃ c ∈ calls, Below p ns c
  root : ∀ e ∈ nodesOf .none t, e.1 = []
  siblings : Distinct FileViewTreeItem.name t
  sizes : ∀ e ∈ walk FileViewTreeItem.name t, CalculateFolderSize e.2 =
    ((calls.filter fun c => decide (Below p e.1 c)).map fun c => c.2.size).sum

end

section tree
variable {p : Platform} {calls : List (QByteArray × FileEntry)}

theorem pathparts_ne_nil (p : Platform) (path : QByteArray) : pathparts p path ≠ [] :=
  List.splitOn_ne_nil _ _

theorem distinct_addPaths (p : Platform) (calls : List (QByteArray × FileEntry)) :
    Distinct FileViewTreeItem.name (addPaths p calls) := by
  have hroot : Distinct FileViewTreeItem.name emptyRoot :=
    everywhere_node.mpr ⟨by simp [children], by simp⟩
  rw [addPaths_eq_insertAll]
  exact distinct_insertAll _ _ (fun c : QByteArray × FileEntry => name_newItem p c.2) hroot calls

theorem isSome_lookup_addPaths {ns : List QString} :
    (lookup FileViewTreeItem.name (addPaths p calls) ns).isSome ↔
      ns = [] ∨ ∃ c ∈ calls, ns <+: pathparts p c.1 := by
  rw [addPaths_eq_insertAll,
    isSome_lookup_insertAll _ _ (fun c : QByteArray × FileEntry => name_newItem p c.2)]
  refine or_congr ?_ Iff.rfl
  constructor
  · intro h
    by_contra hne
    rw [lookup_of_children_nil rfl hne] at h
    exact absurd h (by simp)
  · rintro rfl
    rw [lookup_nil]
    rfl

def Labelled (p : Platform) (calls : List (QByteArray × FileEntry)) (t : FileViewTree) : Prop :=
  ∀ ns u, lookup FileViewTreeItem.name t ns = some u → ns ≠ [] →
    (∃ c ∈ calls, pathparts p c.1 = ns ∧ u.label.type = .file ∧ u.label.fileEntery = c.2) ∨
      (u.label.type = .folder ∧ ∃ c ∈ calls, Below p ns c)

theorem Labelled.insert {t : FileViewTree} {c : QByteArray × FileEntry} (h : Labelled p calls t)
    (hfree : ∀ d ∈ calls, ¬ pathparts p d.1 <+: pathparts p c.1) :
    Labelled p (calls ++ [c])
      (insertPath FileViewTreeItem.name (newItem p c.2) (pathparts p c.1) t) := by
  have hmem : ∀ {d}, d ∈ calls → d ∈ calls ++ [c] := fun hd => List.mem_append_left _ hd
  have hlast : c ∈ calls ++ [c] := List.mem_append_right _ (List.mem_singleton.mpr rfl)
  have hname := name_newItem p c.2
  intro ns u hu hne
  by_cases hpre : ns <+: pathparts p c.1
  · obtain ⟨rest, hrest⟩ := hpre
    rw [← hrest] at hu
    cases hold : lookup FileViewTreeItem.name t ns with
    | some v =>
      rw [lookup_insertPath_of_some hname hold] at hu
      rw [← Option.some.inj hu, label_insertPath]
      rcases h ns v hold hne with ⟨d, hd, rfl, -⟩ | ⟨htype, d, hd, hbelow⟩
      · exact absurd ⟨rest, hrest⟩ (hfree d hd)
      · exact .inr ⟨htype, d, hmem hd, hbelow⟩
    | none =>
      obtain ⟨ms, n, rfl⟩ : ∃ ms n, ns = ms ++ [n] :=
        (List.eq_nil_or_concat' ns).resolve_left hne
      obtain ⟨v, -, hv⟩ := lookup_insertPath_of_none hname hold rest
      rw [List.append_assoc, List.singleton_append, hv] at hu
      rw [← Option.some.inj hu, label_insertPath, label, newItem]
      split_ifs with hnil
      · subst hnil
        exact .inl ⟨c, hlast, by rw [← hrest, List.append_nil], rfl, rfl⟩
      · refine .inr ⟨rfl, c, hlast, ⟨rest, hrest⟩, fun heq => hnil ?_⟩
        rw [← hrest] at heq
        exact List.append_cancel_left (heq.symm.trans (List.append_nil _).symm)
  · rw [lookup_insertPath_away hname hpre] at hu
    rcases h ns u hu hne with ⟨d, hd, hfile⟩ | ⟨htype, d, hd, hbelow⟩
    · exact .inl ⟨d, hmem hd, hfile⟩
    · exact .inr ⟨htype, d, hmem hd, hbelow⟩

theorem labelled_addPaths (hfree : PrefixFree p calls) : Labelled p calls (addPaths p calls) := by
  induction calls using List.reverseRecOn with
  | nil =>
    intro ns u hu hne
    rw [addPaths, List.foldl_nil, lookup_of_children_nil rfl hne] at hu
    cases hu
  | append_singleton calls c ih =>
    obtain ⟨hcalls, -, hlast⟩ := List.pairwise_append.mp hfree
    have hadd : addPaths p (calls ++ [c]) =
        insertPath FileViewTreeItem.name (newItem p c.2) (pathparts p c.1) (addPaths p calls) := by
      rw [addPaths_eq_insertAll, insertAll_append, ← addPaths_eq_insertAll]
      rfl
    rw [hadd]
    exact (ih hcalls).insert fun d hd => (hlast d hd c (List.mem_singleton.mpr rfl)).1

section
variable (hfree : PrefixFree p calls)
include hfree

theorem eq_of_isPrefix {c d : QByteArray × FileEntry} (hc : c ∈ calls) (hd : d ∈ calls)
    (hpre : pathparts p c.1 <+: pathparts p d.1) : c = d := by
  by_contra hne
  have hsymm : Std.Symm fun c d : QByteArray × FileEntry =>
      ¬ pathparts p c.1 <+: pathparts p d.1 ∧ ¬ pathparts p d.1 <+: pathparts p c.1 :=
    ⟨fun _ _ h => h.symm⟩
  exact (hfree.forall hc hd hne).1 hpre

theorem nodup_pathparts : (calls.map fun c => pathparts p c.1).Nodup := by
  refine List.pairwise_map.mpr (hfree.imp fun h heq => ?_)
  exact h.1 (heq ▸ List.prefix_refl _)

theorem exists_file {c : QByteArray × FileEntry} (hc : c ∈ calls) :
    ∃ u, lookup FileViewTreeItem.name (addPaths p calls) (pathparts p c.1) = some u ∧
      u.label.type = .file ∧ u.label.fileEntery = c.2 ∧ u.children = [] := by
  obtain ⟨u, hu⟩ := Option.isSome_iff_exists.mp
    (isSome_lookup_addPaths.mpr (.inr ⟨c, hc, List.prefix_refl _⟩))
  refine ⟨u, hu, ?_⟩
  rcases labelled_addPaths hfree _ u hu (pathparts_ne_nil p c.1) with ⟨d, hd, hparts, htype, hentry⟩ | h
  · obtain rfl : d = c := eq_of_isPrefix hfree hd hc (hparts ▸ List.prefix_refl _)
    refine ⟨htype, hentry, (children_eq_nil_iff_of_lookup hu).mpr fun n => ?_⟩
    by_contra hne
    rcases isSome_lookup_addPaths.mp (Option.isSome_iff_ne_none.mpr hne) with hnil | ⟨e, he, hpre⟩
    · exact absurd hnil (by simp)
    · obtain rfl : d = e := eq_of_isPrefix hfree hd he ((List.prefix_append _ _).trans hpre)
      exact not_concat_isPrefix hpre
  · obtain ⟨-, d, hd, hpre, hne⟩ := h
    exact absurd (congrArg (fun c => pathparts p c.1) (eq_of_isPrefix hfree hc hd hpre)) hne

/-- The files below a node are those of the calls whose paths go on from it. -/
theorem files_below {ns : List QString} {u : FileViewTree}
    (hu : lookup FileViewTreeItem.name (addPaths p calls) ns = some u) :
    (((walkChildren FileViewTreeItem.name u.children).filter fun e =>
        decide (e.2.label.type = .file)).map fun e => (ns ++ e.1, e.2.label.fileEntery)).Perm
      ((calls.filter fun c => decide (Below p ns c)).map fun c => (pathparts p c.1, c.2)) := by
  have hdistinct := (distinct_addPaths p calls).lookup hu
  refine (List.perm_ext_iff_of_nodup ?_ ?_).mpr ?_
  · apply List.Nodup.of_map Prod.fst
    have hwalk := nodup_walk hdistinct
    rw [walk_eq_cons, List.map_cons, List.nodup_cons] at hwalk
    have hfiles : (((walkChildren FileViewTreeItem.name u.children).filter fun e =>
        decide (e.2.label.type = .file)).map Prod.fst).Nodup :=
      hwalk.2.sublist (List.filter_sublist.map Prod.fst)
    have hnames := hfiles.map (f := fun ms => ns ++ ms) fun _ _ => List.append_cancel_left
    rw [List.map_map] at hnames ⊢
    exact hnames
  · apply List.Nodup.of_map Prod.fst
    rw [List.map_map]
    exact (nodup_pathparts hfree).sublist (List.filter_sublist.map _)
  · rintro ⟨names, fe⟩
    simp only [List.mem_map, List.mem_filter, decide_eq_true_eq, Prod.mk.injEq, Prod.exists]
    constructor
    · rintro ⟨ms, v, ⟨hmem, htype⟩, rfl, rfl⟩
      obtain ⟨hne, hv⟩ := (mem_walkChildren_iff hdistinct).mp hmem
      have hfull : lookup FileViewTreeItem.name (addPaths p calls) (ns ++ ms) = some v := by
        rw [lookup_append, hu, Option.bind_some, hv]
      rcases labelled_addPaths hfree _ v hfull (by simp [hne]) with ⟨c, hc, hparts, -, hentry⟩ | ⟨h, -⟩
      · refine ⟨c.1, c.2, ⟨hc, ?_⟩, hparts, hentry.symm⟩
        rw [Below, hparts]
        exact ⟨List.prefix_append _ _, fun heq => hne (by simpa using heq)⟩
      · rw [h] at htype
        cases htype
    · rintro ⟨path, entry, ⟨hc, ⟨ms, hms⟩, hne⟩, rfl, rfl⟩
      obtain ⟨v, hv, htype, hentry, -⟩ := exists_file hfree hc
      rw [← hms, lookup_append, hu, Option.bind_some] at hv
      refine ⟨ms, v, ⟨(mem_walkChildren_iff hdistinct).mpr ⟨?_, hv⟩, htype⟩, hms, hentry⟩
      rintro rfl
      exact hne (by rw [← hms, List.append_nil])

theorem leaf_of_file {e : List QString × FileViewTree}
    (he : e ∈ walk FileViewTreeItem.name (addPaths p calls)) (htype : e.2.label.type = .file) :
    e.2.children = [] := by
  have hu := (mem_walk (distinct_addPaths p calls)).mp he
  have hne : e.1 ≠ [] := by
    intro hnil
    rw [hnil, lookup_nil] at hu
    rw [← Option.some.inj hu, addPaths_eq_insertAll, label_insertAll] at htype
    cases htype
  rcases labelled_addPaths hfree _ _ hu hne with ⟨c, hc, hparts, -⟩ | ⟨h, -⟩
  · obtain ⟨v, hv, -, -, hleaf⟩ := exists_file hfree hc
    rw [hparts, hu] at hv
    rw [Option.some.inj hv]
    exact hleaf
  · rw [h] at htype
    cases htype

theorem size_of_lookup (hsum : (calls.map fun c => c.2.size).sum < 2 ^ 63) {ns : List QString}
    {u : FileViewTree} (hu : lookup FileViewTreeItem.name (addPaths p calls) ns = some u) :
    CalculateFolderSize u = ((calls.filter fun c => decide (Below p ns c)).map fun c => c.2.size).sum := by
  have hleaf : Everywhere (fun u => u.label.type = .file → u.children = []) u := by
    obtain ⟨q, hq⟩ := lookup_mem hu
    exact Everywhere.get? (everywhere_iff_walk.mpr fun e he => leaf_of_file hfree he) hq
  have hsizes : fileSizes (walkChildren FileViewTreeItem.name u.children) =
      ((calls.filter fun c => decide (Below p ns c)).map fun c => c.2.size).sum := by
    have hperm := ((files_below hfree hu).map fun e => e.2.size).sum_nat
    simpa only [List.map_map, Function.comp_def, fileSizes] using hperm
  have hle : ((calls.filter fun c => decide (Below p ns c)).map fun c => c.2.size).sum ≤
      (calls.map fun c => c.2.size).sum :=
    (List.filter_sublist.map _).sum_le_sum fun _ _ => Nat.zero_le _
  rw [CalculateFolderSize_eq hleaf, hsizes]
  exact Int.bmod_eq_of_le (by omega) (by omega)

theorem mem_folders {ns : List QString} :
    ns ∈ (nodesOf .folder (addPaths p calls)).map Prod.fst ↔ ns ≠ [] ∧ ∃ c ∈ calls, Below p ns c := by
  have hdistinct := distinct_addPaths p calls
  simp only [nodesOf, List.mem_map, List.mem_filter, decide_eq_true_eq, Prod.exists, mem_walk hdistinct]
  constructor
  · rintro ⟨ns, u, ⟨hu, htype⟩, rfl⟩
    have hne : ns ≠ [] := by
      rintro rfl
      rw [lookup_nil] at hu
      rw [← Option.some.inj hu, addPaths_eq_insertAll, label_insertAll] at htype
      cases htype
    rcases labelled_addPaths hfree ns u hu hne with ⟨c, -, -, h, -⟩ | ⟨-, hbelow⟩
    · rw [h] at htype
      cases htype
    · obtain ⟨c, hc, hc'⟩ := hbelow
      exact ⟨hne, c.1, c.2, hc, hc'⟩
  · rintro ⟨hne, path, fe, hc, hpre, hneq⟩
    obtain ⟨u, hu⟩ := Option.isSome_iff_exists.mp
      (isSome_lookup_addPaths.mpr (.inr ⟨_, hc, hpre⟩))
    refine ⟨ns, u, ⟨hu, ?_⟩, rfl⟩
    rcases labelled_addPaths hfree ns u hu hne with ⟨d, hd, rfl, -⟩ | ⟨htype, -⟩
    · exact absurd (congrArg (fun c => pathparts p c.1) (eq_of_isPrefix hfree hd hc hpre)) hneq
    · exact htype

end

theorem label_addPaths (p : Platform) (calls : List (QByteArray × FileEntry)) :
    (addPaths p calls).label = ⟨fakeEntery [], .none, []⟩ := by
  rw [addPaths_eq_insertAll, label_insertAll]
  rfl

/-- Calls whose paths do not begin one another build the directory tree of the
paths. -/
theorem isDirectoryTree_addPaths (hfree : PrefixFree p calls)
    (hsum : (calls.map fun c => c.2.size).sum < 2 ^ 63) :
    IsDirectoryTree p calls (addPaths p calls) := by
  have hdistinct := distinct_addPaths p calls
  refine ⟨?_, ?_, ?_, ?_, ?_, hdistinct, ?_⟩
  · have hall : (calls.filter fun c => decide (Below p [] c)) = calls :=
      List.filter_eq_self.mpr fun c _ => decide_eq_true
        ⟨List.nil_prefix, (pathparts_ne_nil p c.1).symm⟩
    have hperm := files_below hfree (lookup_nil (addPaths p calls))
    rw [hall] at hperm
    rw [nodesOf, walk_eq_cons, List.filter_cons_of_neg (by rw [label_addPaths]; decide)]
    exact hperm
  · intro e he
    obtain ⟨hmem, htype⟩ := List.mem_filter.mp he
    exact leaf_of_file hfree hmem (of_decide_eq_true htype)
  · exact (nodup_walk hdistinct).sublist (List.filter_sublist.map Prod.fst)
  · exact fun ns => mem_folders hfree
  · intro e he
    obtain ⟨hmem, htype⟩ := List.mem_filter.mp he
    by_contra hne
    have htype := of_decide_eq_true htype
    rcases labelled_addPaths hfree _ _ ((mem_walk hdistinct).mp hmem) hne with ⟨c, -, -, h, -⟩ | ⟨h, -⟩
    · rw [h] at htype
      cases htype
    · rw [h] at htype
      cases htype
  · exact fun e he => size_of_lookup hfree hsum ((mem_walk hdistinct).mp he)

end tree

def sampleCalls : List (QByteArray × FileEntry) :=
  [(literal "d/a", ⟨literal "d/a", 0, 3, false⟩), (literal "d/b", ⟨literal "d/b", 3, 0, false⟩),
    (literal "c", ⟨literal "c", 3, 4, false⟩)]

theorem isDirectoryTree_sampleCalls :
    IsDirectoryTree .unix sampleCalls (addPaths .unix sampleCalls) :=
  isDirectoryTree_addPaths (by unfold PrefixFree; decide +kernel) (by decide)

end FileViewModel
end CuteTorrent
