import CuteTorrent.FileViewModel

/-! Priorities that are set in the file tab. An item knows the offset of its file,
and the index is looked up by it. -/
namespace CuteTorrent

def Cumulative : Nat → List FileEntry → Prop
  | _, [] => True
  | offset, f :: files => f.offset = offset ∧ Cumulative (offset + f.size) files

structure FileStorage where
  files : List FileEntry
  cumulative : Cumulative 0 files

/-- The `upper_bound` of the offset, less one. -/
def FileStorage.file_index_at_offset (s : FileStorage) (offset : Nat) : Nat :=
  (s.files.takeWhile fun f => decide (f.offset ≤ offset)).length - 1

structure TorrentPriorities where
  storage : FileStorage
  isSeed : Bool
  m_file_priority : List Int

namespace TorrentPriorities

def num_files (t : TorrentPriorities) : Nat := t.storage.files.length

def file_priority (t : TorrentPriorities) (index : Nat) : Int :=
  if index < t.num_files then t.m_file_priority.getD index 1 else 0

/-- `resize(num_files, 1)` where the index is not yet there. -/
def resized (t : TorrentPriorities) (index : Nat) : List Int :=
  if t.m_file_priority.length ≤ index then
    t.m_file_priority ++ List.replicate (t.num_files - t.m_file_priority.length) 1
  else t.m_file_priority

def clamp (prio : Int) : Int := if prio < 0 then 0 else if 7 < prio then 7 else prio

def set_file_priority (t : TorrentPriorities) (index : Nat) (prio : Int) : TorrentPriorities :=
  if t.isSeed then t
  else if t.num_files ≤ index then t
  else if t.m_file_priority.length ≤ index ∧ clamp prio = 1 then t
  else { t with m_file_priority := (t.resized index).set index (clamp prio) }

end TorrentPriorities

namespace FileViewModel
open RoseTree

/-- The calls of `BuildTree`: every file that is no pad file. -/
def treeCalls (s : FileStorage) : List (QByteArray × FileEntry) :=
  (s.files.filter fun f => !f.padFile).map fun f => (f.path, f)

def BuildTree (p : Platform) (s : FileStorage) : FileViewTree := addPaths p (treeCalls s)

mutual
def SetItemPriority (priority : Int) : FileViewTree → TorrentPriorities → TorrentPriorities
  | .node a cs, t =>
    if a.type = .file then
      t.set_file_priority (t.storage.file_index_at_offset a.fileEntery.offset) priority
    else setChildren priority cs t
def setChildren (priority : Int) : List FileViewTree → TorrentPriorities → TorrentPriorities
  | [], t => t
  | c :: cs, t => setChildren priority cs (SetItemPriority priority c t)
end

def chosen (p : Platform) (s : FileStorage) (ns : List QString) (index : Nat) : Bool :=
  s.files[index]?.any fun f => !f.padFile && decide (ns <+: pathparts p f.path)

def SetsChosen (p : Platform) (ns : List QString) (priority : Int) (t t' : TorrentPriorities) : Prop :=
  ∀ index, t'.file_priority index =
    if chosen p t.storage ns index then priority else t.file_priority index

def LastAt (s : FileStorage) (index last : Nat) : Prop :=
  ∃ f g, s.files[index]? = some f ∧ s.files[last]? = some g ∧ g.offset = f.offset ∧
    ∀ k h, s.files[k]? = some h → h.offset = f.offset → k ≤ last

/-- A seed has the priorities already. Elsewhere a chosen file that is empty and
followed by another at its offset has the priority already, and the last file at
that offset is chosen too or has it already. -/
structure OffsetsTell (p : Platform) (ns : List QString) (priority : Int) (t : TorrentPriorities) :
    Prop where
  seed : t.isSeed = true → ∀ i, chosen p t.storage ns i = true → t.file_priority i = priority
  shared : t.isSeed = false → ∀ i last, chosen p t.storage ns i = true → LastAt t.storage i last →
    i ≠ last → t.file_priority i = priority ∧
      (chosen p t.storage ns last = true ∨ t.file_priority last = priority)

end FileViewModel

/-! ### The index by the offset -/

theorem offset_le_of_cumulative {offset : Nat} {files : List FileEntry} (h : Cumulative offset files) :
    ∀ f ∈ files, offset ≤ f.offset := by
  induction files generalizing offset with
  | nil => exact fun f hf => absurd hf List.not_mem_nil
  | cons g files ih =>
    obtain ⟨hg, hfiles⟩ := h
    intro f hf
    rcases List.mem_cons.mp hf with rfl | hf
    · exact hg.ge
    · exact (Nat.le_add_right _ _).trans (ih hfiles f hf)

theorem pairwise_of_cumulative {offset : Nat} {files : List FileEntry} (h : Cumulative offset files) :
    files.Pairwise fun f g => f.offset ≤ g.offset := by
  induction files generalizing offset with
  | nil => exact List.Pairwise.nil
  | cons f files ih =>
    obtain ⟨hf, hfiles⟩ := h
    refine List.pairwise_cons.mpr ⟨fun g hg => ?_, ih hfiles⟩
    rw [hf]
    exact (Nat.le_add_right _ _).trans (offset_le_of_cumulative hfiles g hg)

theorem lt_length_takeWhile {files : List FileEntry}
    (h : files.Pairwise fun f g => f.offset ≤ g.offset) (offset : Nat) {i : Nat} {f : FileEntry}
    (hi : files[i]? = some f) :
    i < (files.takeWhile fun f => decide (f.offset ≤ offset)).length ↔ f.offset ≤ offset := by
  induction files generalizing i with
  | nil => simp at hi
  | cons g files ih =>
    obtain ⟨hg, hfiles⟩ := List.pairwise_cons.mp h
    by_cases hle : g.offset ≤ offset
    · rw [List.takeWhile_cons, if_pos (decide_eq_true hle), List.length_cons]
      cases i with
      | zero =>
        obtain rfl : g = f := by simpa using hi
        exact iff_of_true (Nat.succ_pos _) hle
      | succ i =>
        rw [Nat.add_lt_add_iff_right]
        exact ih hfiles (by simpa using hi)
    · rw [List.takeWhile_cons, if_neg (by simpa using hle)]
      have hgf : g.offset ≤ f.offset := by
        rcases List.mem_cons.mp (List.mem_of_getElem? hi) with rfl | hf
        · exact le_rfl
        · exact hg f hf
      exact iff_of_false (Nat.not_lt_zero i) (by omega)

namespace FileStorage
variable {s : FileStorage} {i j : Nat} {f g : FileEntry}

theorem offset_mono (hi : s.files[i]? = some f) (hj : s.files[j]? = some g) (hij : i ≤ j) :
    f.offset ≤ g.offset := by
  rcases Nat.eq_or_lt_of_le hij with rfl | hlt
  · rw [Option.some.inj (hi.symm.trans hj)]
  · obtain ⟨hi', rfl⟩ := List.getElem?_eq_some_iff.mp hi
    obtain ⟨hj', rfl⟩ := List.getElem?_eq_some_iff.mp hj
    exact List.pairwise_iff_getElem.mp (pairwise_of_cumulative s.cumulative) i j hi' hj' hlt

theorem lastAt_file_index (hi : s.files[i]? = some f) :
    FileViewModel.LastAt s i (s.file_index_at_offset f.offset) := by
  have hbound : ∀ {k h}, s.files[k]? = some h →
      (k < (s.files.takeWhile fun h => decide (h.offset ≤ f.offset)).length ↔ h.offset ≤ f.offset) :=
    fun hk => lt_length_takeWhile (pairwise_of_cumulative s.cumulative) f.offset hk
  have hlt := (hbound hi).mpr le_rfl
  have hlength : (s.files.takeWhile fun h => decide (h.offset ≤ f.offset)).length ≤ s.files.length :=
    (List.takeWhile_sublist _).length_le
  rw [file_index_at_offset]
  generalize (s.files.takeWhile fun h => decide (h.offset ≤ f.offset)).length = n at hbound hlt hlength
  obtain ⟨g, hg⟩ : ∃ g, s.files[n - 1]? = some g :=
    ⟨_, List.getElem?_eq_getElem (show n - 1 < s.files.length by omega)⟩
  refine ⟨f, g, hi, hg, ?_, fun k h hk hoffset => ?_⟩
  · exact le_antisymm ((hbound hg).mp (by omega)) (offset_mono hi hg (by omega))
  · have hkn := (hbound hk).mpr hoffset.le
    omega

theorem lastAt_unique {a b : Nat} (ha : FileViewModel.LastAt s i a) (hb : FileViewModel.LastAt s i b) :
    a = b := by
  obtain ⟨f, g, hf, hg, hgf, hamax⟩ := ha
  obtain ⟨f', g', hf', hg', hgf', hbmax⟩ := hb
  obtain rfl := Option.some.inj (hf.symm.trans hf')
  exact le_antisymm (hbmax a g hg hgf) (hamax b g' hg' hgf')

theorem lastAt_self {last : Nat} (h : FileViewModel.LastAt s i last) :
    FileViewModel.LastAt s last last := by
  obtain ⟨f, g, -, hg, hgf, hmax⟩ := h
  exact ⟨g, g, hg, hg, rfl, fun k h hk hoffset => hmax k h hk (hoffset.trans hgf)⟩

end FileStorage

/-! ### Priorities -/

namespace TorrentPriorities
variable (t : TorrentPriorities)

@[simp] theorem storage_set_file_priority (index : Nat) (prio : Int) :
    (t.set_file_priority index prio).storage = t.storage := by
  rw [set_file_priority]
  split_ifs <;> rfl

@[simp] theorem isSeed_set_file_priority (index : Nat) (prio : Int) :
    (t.set_file_priority index prio).isSeed = t.isSeed := by
  rw [set_file_priority]
  split_ifs <;> rfl

theorem clamp_of_range {prio : Int} (h : 0 ≤ prio ∧ prio ≤ 7) : clamp prio = prio := by
  rw [clamp, if_neg (by omega), if_neg (by omega)]

theorem getD_resized (i index : Nat) : (t.resized index).getD i 1 = t.m_file_priority.getD i 1 := by
  rw [resized]
  split_ifs with h
  · rw [List.getD_eq_getElem?_getD, List.getD_eq_getElem?_getD, List.getElem?_append]
    split_ifs with hi
    · rfl
    · have hnone : t.m_file_priority[i]? = none := List.getElem?_eq_none (by omega)
      rw [hnone, List.getElem?_replicate]
      split_ifs <;> rfl
  · rfl

theorem file_priority_set {prio : Int} (hprio : 0 ≤ prio ∧ prio ≤ 7) (index i : Nat) :
    (t.set_file_priority index prio).file_priority i =
      if t.isSeed = false ∧ i = index ∧ i < t.num_files then prio else t.file_priority i := by
  rw [set_file_priority, clamp_of_range hprio]
  by_cases hseed : t.isSeed = true
  · rw [if_pos hseed, if_neg (by simp [hseed])]
  · rw [if_neg hseed]
    have hseed : t.isSeed = false := by simpa using hseed
    by_cases hindex : t.num_files ≤ index
    · rw [if_pos hindex, if_neg (by omega)]
    · rw [if_neg hindex]
      by_cases hshort : t.m_file_priority.length ≤ index ∧ prio = 1
      · rw [if_pos hshort]
        split_ifs with h
        · obtain ⟨-, rfl, hi⟩ := h
          rw [file_priority, if_pos hi, List.getD_eq_getElem?_getD,
            List.getElem?_eq_none hshort.1, hshort.2]
          rfl
        · rfl
      · rw [if_neg hshort]
        have hlength : index < (t.resized index).length := by
          rw [resized]
          split_ifs with h
          · rw [List.length_append, List.length_replicate]
            omega
          · omega
        by_cases hi : i < t.num_files
        · have hi' : i < (num_files { t with m_file_priority := (t.resized index).set index prio }) := hi
          rw [file_priority, if_pos hi', file_priority, if_pos hi]
          by_cases heq : i = index
          · subst heq
            rw [if_pos ⟨hseed, rfl, hi⟩, List.getD_eq_getElem?_getD, List.getElem?_set_self hlength]
            rfl
          · rw [if_neg (by simp [heq]), List.getD_eq_getElem?_getD,
              List.getElem?_set_ne (Ne.symm heq), ← List.getD_eq_getElem?_getD, getD_resized]
        · have hi' : ¬ i < (num_files { t with m_file_priority := (t.resized index).set index prio }) := hi
          rw [if_neg (by simp [hi]), file_priority, if_neg hi', file_priority, if_neg hi]

theorem file_priority_foldl {prio : Int} (hprio : 0 ≤ prio ∧ prio ≤ 7) (indices : List Nat) (i : Nat) :
    (indices.foldl (fun t index => t.set_file_priority index prio) t).file_priority i =
      if t.isSeed = false ∧ i ∈ indices ∧ i < t.num_files then prio else t.file_priority i := by
  induction indices generalizing t with
  | nil => simp
  | cons index indices ih =>
    have hnum : (t.set_file_priority index prio).num_files = t.num_files := by
      rw [num_files, storage_set_file_priority, num_files]
    rw [List.foldl_cons, ih, file_priority_set t hprio, isSeed_set_file_priority, hnum]
    by_cases hout : t.isSeed = false ∧ i < t.num_files
    · obtain ⟨hseed, hi⟩ := hout
      by_cases heq : i = index
      · subst heq
        have hhead : (if t.isSeed = false ∧ i = i ∧ i < t.num_files then prio else t.file_priority i) =
            prio := if_pos ⟨hseed, rfl, hi⟩
        rw [hhead, ite_self, if_pos ⟨hseed, List.mem_cons_self, hi⟩]
      · simp [hseed, hi, heq]
    · have hnone : ∀ P : Prop, ¬ (t.isSeed = false ∧ P ∧ i < t.num_files) :=
        fun P h => hout ⟨h.1, h.2.2⟩
      rw [if_neg (hnone _), if_neg (hnone _), if_neg (hnone _)]

end TorrentPriorities

namespace FileViewModel
open RoseTree TorrentPriorities

def indicesOf (s : FileStorage) (nodes : List (List QString × FileViewTree)) : List Nat :=
  (nodes.filter fun e => decide (e.2.label.type = .file)).map fun e =>
    s.file_index_at_offset e.2.label.fileEntery.offset

theorem indicesOf_append (s : FileStorage) (l l' : List (List QString × FileViewTree)) :
    indicesOf s (l ++ l') = indicesOf s l ++ indicesOf s l' := by
  rw [indicesOf, List.filter_append, List.map_append]
  rfl

theorem indicesOf_map (s : FileStorage) (f : List QString → List QString)
    (l : List (List QString × FileViewTree)) :
    indicesOf s (l.map fun e => (f e.1, e.2)) = indicesOf s l := by
  rw [indicesOf, List.filter_map, List.map_map]
  rfl

/-- Without anything below a file, the recursion sets one index for every file. -/
theorem SetItemPriority_eq_foldl (prio : Int) {u : FileViewTree}
    (hleaf : Everywhere (fun u => u.label.type = .file → u.children = []) u) (t : TorrentPriorities) :
    SetItemPriority prio u t = (indicesOf t.storage (walk FileViewTreeItem.name u)).foldl
      (fun t index => t.set_file_priority index prio) t := by
  induction u using RoseTree.induct generalizing t with
  | h a cs ih =>
    obtain ⟨hown, hcs⟩ := everywhere_node.mp hleaf
    have hstorage : ∀ (indices : List Nat) (t : TorrentPriorities),
        (indices.foldl (fun t index => t.set_file_priority index prio) t).storage = t.storage := by
      intro indices
      induction indices with
      | nil => exact fun _ => rfl
      | cons index indices ih => exact fun t => (ih _).trans (storage_set_file_priority t index prio)
    have hloop : ∀ t : TorrentPriorities, setChildren prio cs t =
        (indicesOf t.storage (walkChildren FileViewTreeItem.name cs)).foldl
          (fun t index => t.set_file_priority index prio) t := by
      clear hown hleaf
      induction cs with
      | nil => exact fun _ => rfl
      | cons c cs ihcs =>
        intro t
        have hrest := ihcs (fun d hd => ih d (List.mem_cons_of_mem _ hd))
          fun d hd => hcs d (List.mem_cons_of_mem _ hd)
        rw [setChildren, ih c List.mem_cons_self (hcs c List.mem_cons_self), hrest, hstorage,
          walkChildren, indicesOf_append, indicesOf_map, List.foldl_append]
    rw [SetItemPriority, walk_eq_cons]
    by_cases hfile : a.type = .file
    · obtain rfl : cs = [] := hown hfile
      have hindices : indicesOf t.storage (([], node a []) :: walkChildren FileViewTreeItem.name
          (node a []).children) = [t.storage.file_index_at_offset a.fileEntery.offset] := by
        simp [indicesOf, walkChildren, children, label, hfile]
      rw [if_pos hfile, hindices]
      rfl
    · have hindices : indicesOf t.storage (([], node a cs) :: walkChildren FileViewTreeItem.name
          (node a cs).children) = indicesOf t.storage (walkChildren FileViewTreeItem.name cs) := by
        simp [indicesOf, children, label, hfile]
      rw [if_neg hfile, hindices]
      exact hloop t

section
variable {p : Platform} {s : FileStorage}

theorem chosen_iff {ns : List QString} {i : Nat} : chosen p s ns i = true ↔
    ∃ f, s.files[i]? = some f ∧ f.padFile = false ∧ ns <+: pathparts p f.path := by
  rw [chosen]
  cases s.files[i]? <;> simp

theorem mem_treeCalls {c : QByteArray × FileEntry} :
    c ∈ treeCalls s ↔ ∃ f ∈ s.files, f.padFile = false ∧ c = (f.path, f) := by
  rw [treeCalls, List.mem_map]
  constructor
  · rintro ⟨f, hf, rfl⟩
    obtain ⟨hmem, hpad⟩ := List.mem_filter.mp hf
    exact ⟨f, hmem, by simpa using hpad, rfl⟩
  · rintro ⟨f, hf, hpad, rfl⟩
    exact ⟨f, List.mem_filter.mpr ⟨hf, by simp [hpad]⟩, rfl⟩

theorem exists_file_at_iff (hfree : PrefixFree p (treeCalls s)) {ns : List QString} {u : FileViewTree}
    (hu : lookup FileViewTreeItem.name (BuildTree p s) ns = some u) (fe : FileEntry) :
    (∃ e ∈ walk FileViewTreeItem.name u, e.2.label.type = .file ∧ e.2.label.fileEntery = fe) ↔
      ∃ i, chosen p s ns i = true ∧ s.files[i]? = some fe := by
  have hdistinct := (distinct_addPaths p (treeCalls s)).lookup hu
  constructor
  · rintro ⟨⟨ms, v⟩, hmem, htype, rfl⟩
    have hv : lookup FileViewTreeItem.name (BuildTree p s) (ns ++ ms) = some v := by
      rw [lookup_append, hu, Option.bind_some, (mem_walk hdistinct).mp hmem]
    have hne : ns ++ ms ≠ [] := by
      intro hnil
      rw [hnil, lookup_nil] at hv
      have hroot : v.label.type = .none := by
        rw [← Option.some.inj hv, BuildTree, label_addPaths]
      rw [hroot] at htype
      cases htype
    rcases labelled_addPaths hfree _ v hv hne with ⟨c, hc, hparts, -, hentry⟩ | ⟨h, -⟩
    · obtain ⟨f, hf, hpad, rfl⟩ := mem_treeCalls.mp hc
      obtain ⟨i, hi⟩ := List.mem_iff_getElem?.mp hf
      exact ⟨i, chosen_iff.mpr ⟨f, hi, hpad, hparts ▸ List.prefix_append ns ms⟩, hentry ▸ hi⟩
    · rw [h] at htype
      cases htype
  · rintro ⟨i, hchosen, hi⟩
    obtain ⟨f, hf, hpad, ms, hms⟩ := chosen_iff.mp hchosen
    obtain rfl := Option.some.inj (hf.symm.trans hi)
    have hc : (f.path, f) ∈ treeCalls s := mem_treeCalls.mpr ⟨f, List.mem_of_getElem? hf, hpad, rfl⟩
    obtain ⟨v, hv, htype, hentry, -⟩ := exists_file hfree hc
    rw [← hms, ← BuildTree, lookup_append, hu, Option.bind_some] at hv
    exact ⟨(ms, v), (mem_walk hdistinct).mpr hv, htype, hentry⟩

theorem mem_indicesOf_iff (hfree : PrefixFree p (treeCalls s)) {ns : List QString} {u : FileViewTree}
    (hu : lookup FileViewTreeItem.name (BuildTree p s) ns = some u) (i : Nat) :
    i ∈ indicesOf s (walk FileViewTreeItem.name u) ↔
      ∃ k, chosen p s ns k = true ∧ LastAt s k i := by
  rw [indicesOf, List.mem_map]
  constructor
  · rintro ⟨e, he, rfl⟩
    obtain ⟨hmem, htype⟩ := List.mem_filter.mp he
    obtain ⟨k, hk, hfile⟩ := (exists_file_at_iff hfree hu e.2.label.fileEntery).mp
      ⟨e, hmem, of_decide_eq_true htype, rfl⟩
    exact ⟨k, hk, FileStorage.lastAt_file_index hfile⟩
  · rintro ⟨k, hk, hlast⟩
    obtain ⟨f, hf, -⟩ := chosen_iff.mp hk
    obtain ⟨e, he, htype, hentry⟩ := (exists_file_at_iff hfree hu f).mpr ⟨k, hk, hf⟩
    refine ⟨e, List.mem_filter.mpr ⟨he, decide_eq_true htype⟩, ?_⟩
    rw [hentry]
    exact FileStorage.lastAt_unique (FileStorage.lastAt_file_index hf) hlast

end

section
variable {p : Platform} {t : TorrentPriorities} {prio : Int} {ns : List QString} {u : FileViewTree}

theorem file_priority_SetItemPriority (hfree : PrefixFree p (treeCalls t.storage))
    (hprio : 0 ≤ prio ∧ prio ≤ 7) (hu : (ns, u) ∈ walk FileViewTreeItem.name (BuildTree p t.storage))
    (i : Nat) : (SetItemPriority prio u t).file_priority i =
      if t.isSeed = false ∧ i ∈ indicesOf t.storage (walk FileViewTreeItem.name u) then prio
      else t.file_priority i := by
  have hlookup := (mem_walk (distinct_addPaths p (treeCalls t.storage))).mp hu
  have hleaf : Everywhere (fun u => u.label.type = .file → u.children = []) u := by
    obtain ⟨q, hq⟩ := lookup_mem hlookup
    exact Everywhere.get? (everywhere_iff_walk.mpr fun e he => leaf_of_file hfree he) hq
  have hbound : i ∈ indicesOf t.storage (walk FileViewTreeItem.name u) → i < t.num_files := by
    intro hi
    obtain ⟨k, -, f, g, -, hg, -⟩ := (mem_indicesOf_iff hfree hlookup i).mp hi
    exact (List.getElem?_eq_some_iff.mp hg).1
  rw [SetItemPriority_eq_foldl prio hleaf, file_priority_foldl t hprio]
  exact if_congr ⟨fun h => ⟨h.1, h.2.1⟩, fun h => ⟨h.1, h.2, hbound h.2⟩⟩ rfl rfl

/-- Setting a node's priority sets exactly its files where the offsets tell the files
apart. -/
theorem setItemPriority_iff (hfree : PrefixFree p (treeCalls t.storage))
    (hprio : 0 ≤ prio ∧ prio ≤ 7)
    (hu : (ns, u) ∈ walk FileViewTreeItem.name (BuildTree p t.storage)) :
    SetsChosen p ns prio t (SetItemPriority prio u t) ↔ OffsetsTell p ns prio t := by
  have hlookup := (mem_walk (distinct_addPaths p (treeCalls t.storage))).mp hu
  have hmem := mem_indicesOf_iff hfree hlookup
  have hafter := file_priority_SetItemPriority hfree hprio hu
  cases hseed : t.isSeed with
  | true =>
    have hsame : ∀ i, (SetItemPriority prio u t).file_priority i = t.file_priority i := by
      intro i
      rw [hafter, if_neg (by simp [hseed])]
    constructor
    · refine fun h => ⟨fun _ i hi => ?_, fun hfalse => absurd (hseed.symm.trans hfalse) (by decide)⟩
      have hi' := h i
      rwa [hsame, if_pos hi] at hi'
    · intro h i
      rw [hsame]
      split_ifs with hi
      · exact h.seed hseed i hi
      · rfl
  | false =>
    constructor
    · refine fun h => ⟨fun htrue => absurd (hseed.symm.trans htrue) (by decide), ?_⟩
      intro _ i last hi hlast hne
      constructor
      · -- the index of this file is never set
        have hout : i ∉ indicesOf t.storage (walk FileViewTreeItem.name u) := by
          intro hin
          obtain ⟨k, -, hk⟩ := (hmem i).mp hin
          exact hne (FileStorage.lastAt_unique (FileStorage.lastAt_self hk) hlast)
        have hi' := h i
        rwa [hafter, if_neg (fun hand => hout hand.2), if_pos hi] at hi'
      · -- the index of the last file is
        have hin := (hmem last).mpr ⟨i, hi, hlast⟩
        have hlast' := h last
        rw [hafter, if_pos ⟨hseed, hin⟩] at hlast'
        by_cases hchosen : chosen p t.storage ns last = true
        · exact .inl hchosen
        · rw [if_neg hchosen] at hlast'
          exact .inr hlast'.symm
    · intro h i
      rw [hafter]
      by_cases hi : chosen p t.storage ns i = true
      · rw [if_pos hi]
        obtain ⟨f, hf, -⟩ := chosen_iff.mp hi
        have hlast := FileStorage.lastAt_file_index hf
        by_cases heq : i = t.storage.file_index_at_offset f.offset
        · exact if_pos ⟨hseed, (hmem i).mpr ⟨i, hi, heq ▸ hlast⟩⟩
        · rw [(h.shared hseed i _ hi hlast heq).1, ite_self]
      · rw [if_neg hi]
        split_ifs with hset
        · obtain ⟨k, hk, hlast⟩ := (hmem i).mp hset.2
          have hki : k ≠ i := fun heq => hi (heq ▸ hk)
          exact ((h.shared hseed k i hk hlast hki).2.resolve_left hi).symm
        · rfl

end

def emptyThenFull : TorrentPriorities :=
  ⟨⟨[⟨literal "a", 0, 0, false⟩, ⟨literal "b", 0, 5, false⟩], ⟨rfl, rfl, trivial⟩⟩, false, []⟩

def fileNode (f : FileEntry) : List QString × FileViewTree :=
  (pathparts .unix f.path, .node ⟨f, .file, Platform.unix.fromStdString f.path⟩ [])

theorem prefixFree_emptyThenFull : PrefixFree .unix (treeCalls emptyThenFull.storage) := by
  unfold PrefixFree
  decide +kernel

theorem setItemPriority_full : SetsChosen .unix (fileNode ⟨literal "b", 0, 5, false⟩).1 7 emptyThenFull
      (SetItemPriority 7 (fileNode ⟨literal "b", 0, 5, false⟩).2 emptyThenFull) ↔
    OffsetsTell .unix (fileNode ⟨literal "b", 0, 5, false⟩).1 7 emptyThenFull :=
  setItemPriority_iff prefixFree_emptyThenFull (by decide) (List.mem_iff_getElem?.mpr ⟨2, rfl⟩)

theorem empty_sets_next : PrefixFree .unix (treeCalls emptyThenFull.storage) ∧
    fileNode ⟨literal "a", 0, 0, false⟩ ∈
      walk FileViewTreeItem.name (BuildTree .unix emptyThenFull.storage) ∧
    ¬ SetsChosen .unix (fileNode ⟨literal "a", 0, 0, false⟩).1 7 emptyThenFull
      (SetItemPriority 7 (fileNode ⟨literal "a", 0, 0, false⟩).2 emptyThenFull) :=
  ⟨prefixFree_emptyThenFull, List.mem_iff_getElem?.mpr ⟨1, rfl⟩,
    fun h => absurd (h 1) (by decide +kernel)⟩

end FileViewModel
end CuteTorrent
