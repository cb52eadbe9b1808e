import CuteTorrent.Library.Assoc
import CuteTorrent.Library.PathTree
import CuteTorrent.FileTreeModel

/-! The file tree by names: which item a path leads to, and the map of
priorities that is read off the check boxes. -/
namespace CuteTorrent
namespace FileTreeModel
open RoseTree

def lookup : FileTree → List QString → Option FileTree
  | t, [] => some t
  | t, n :: ns => (t.children.find? fun c => decide (c.label.name = n)).bind fun c => lookup c ns

def priority (s : CheckState) : Nat := if s = .checked then 1 else 0

/-- `getPath`, for the names from the root's child down to the item. -/
def joinPath (p : Platform) (names : List QString) : QString := [p.separator].intercalate names

mutual
def getFilePrioritiesInternal (p : Platform) :
    FileTree → List QString → List (QString × Nat) → List (QString × Nat)
  | .node _ cs, path, m => childPriorities p cs path m
def childPriorities (p : Platform) :
    List FileTree → List QString → List (QString × Nat) → List (QString × Nat)
  | [], _, m => m
  | c :: cs, path, m =>
    childPriorities p cs path
      (getFilePrioritiesInternal p c (path ++ [c.label.name])
        (Assoc.insert (joinPath p (path ++ [c.label.name])) (priority c.label.checkedState) m))
end

def getFilePiorites (p : Platform) (t : FileTree) : List (QString × Nat) :=
  getFilePrioritiesInternal p t [] []

def Distinct (t : FileTree) : Prop :=
  Everywhere (fun u => (u.children.map fun c => c.label.name).Nodup) t

def Clean (p : Platform) (t : FileTree) : Prop :=
  Everywhere (fun u => ∀ c ∈ u.children, p.separator ∉ c.label.name) t

@[simp] theorem lookup_nil (t : FileTree) : lookup t [] = some t := by
  cases t
  rfl

theorem lookup_node_cons (a : FileTreeItem) (c : FileTree) (cs : List FileTree) (n : QString)
    (ns : List QString) : lookup (.node a (c :: cs)) (n :: ns) =
      if c.label.name = n then lookup c ns else lookup (.node a cs) (n :: ns) := by
  by_cases h : c.label.name = n
  · simp [lookup, children, h]
  · simp [lookup, children, h]

theorem joinPath_eq_iff {p : Platform} {names : List QString} (hne : names ≠ [])
    (hclean : ∀ n ∈ names, p.separator ∉ n) (k : QString) :
    joinPath p names = k ↔ k.splitOn p.separator = names := by
  constructor
  · rintro rfl
    exact List.splitOn_intercalate _ hclean hne
  · rintro rfl
    exact List.intercalate_splitOn _

/-- What the walk over a part of the tree writes under one key: the priority of
the item the key leads to, if it leads into that part. -/
def Writes (k : QString) (names here : List QString) (look : List QString → Option FileTree)
    (m m' : List (QString × Nat)) : Prop :=
  (∀ ns u, ns ≠ [] → names = here ++ ns → look ns = some u →
    Assoc.find k m' = some (priority u.label.checkedState)) ∧
  ((∀ ns, ns ≠ [] → names = here ++ ns → look ns = none) → Assoc.find k m' = Assoc.find k m)

theorem Writes.cons {p : Platform} {k : QString} {names here : List QString} {a : FileTreeItem}
    {c : FileTree} {cs : List FileTree} {m m₂ m₃ : List (QString × Nat)}
    (hkey : joinPath p (here ++ [c.label.name]) = k ↔ names = here ++ [c.label.name])
    (habsent : ∀ ns, lookup (.node a cs) (c.label.name :: ns) = none)
    (hown : Writes k names (here ++ [c.label.name]) (lookup c)
      (Assoc.insert (joinPath p (here ++ [c.label.name])) (priority c.label.checkedState) m) m₂)
    (hothers : Writes k names here (lookup (.node a cs)) m₂ m₃) :
    Writes k names here (lookup (.node a (c :: cs))) m m₃ := by
  constructor
  · intro ns u hne hns hu
    cases ns with
    | nil => exact absurd rfl hne
    | cons n ns =>
      rw [lookup_node_cons] at hu
      split_ifs at hu with hcn
      · subst hcn
        have hrest : Assoc.find k m₃ = Assoc.find k m₂ := by
          apply hothers.2
          intro ns' hne' hns'
          obtain rfl := List.append_cancel_left (hns.symm.trans hns')
          exact habsent ns
        have hsplit : names = (here ++ [c.label.name]) ++ ns := by
          rw [hns]
          simp
        rw [hrest]
        cases ns with
        | nil =>
          have hnone := hown.2 fun ns' hne' hns' =>
            absurd (List.append_cancel_left (hsplit.symm.trans hns')).symm hne'
          have hck : joinPath p (here ++ [c.label.name]) = k := hkey.mpr (by simpa using hsplit)
          obtain rfl : c = u := by simpa using hu
          rw [hnone, hck, Assoc.find_insert_self]
        | cons n' ns => exact hown.1 _ u (by simp) hsplit hu
      · exact hothers.1 (n :: ns) u hne hns hu
  · intro hnone
    have hlook : ∀ ns, names = here ++ c.label.name :: ns → lookup c ns = none := by
      intro ns hns
      have h := hnone (c.label.name :: ns) (by simp) hns
      rwa [lookup_node_cons, if_pos rfl] at h
    have hrest : Assoc.find k m₃ = Assoc.find k m₂ := by
      apply hothers.2
      intro ns hne hns
      have h := hnone ns hne hns
      cases ns with
      | nil => exact absurd rfl hne
      | cons n ns =>
        rw [lookup_node_cons] at h
        split_ifs at h with hcn
        · subst hcn
          exact habsent ns
        · exact h
    have hsub := hown.2 fun ns hne hns => hlook ns (by simpa using hns)
    have hck : k ≠ joinPath p (here ++ [c.label.name]) := by
      intro h
      have hc := hlook [] (by simpa using hkey.mp h.symm)
      simp at hc
    rw [hrest, hsub]
    exact Assoc.find_insert_of_ne hck _ _

theorem find_getFilePrioritiesInternal {p : Platform} (k : QString) {t : FileTree}
    (hdistinct : Distinct t) (hclean : Clean p t) {here : List QString}
    (hhere : ∀ n ∈ here, p.separator ∉ n) (m : List (QString × Nat)) :
    Writes k (k.splitOn p.separator) here (lookup t) m (getFilePrioritiesInternal p t here m) := by
  induction t using RoseTree.induct generalizing here m with
  | h a cs ih =>
    rw [getFilePrioritiesInternal]
    rw [Distinct, everywhere_node] at hdistinct
    rw [Clean, everywhere_node] at hclean
    obtain ⟨hnames, hdistinct⟩ := hdistinct
    obtain ⟨hsep, hclean⟩ := hclean
    simp only [children] at hnames hsep
    induction cs generalizing m with
    | nil =>
      constructor
      · intro ns u hne _ hu
        cases ns with
        | nil => exact absurd rfl hne
        | cons n ns => simp [lookup, children] at hu
      · intro _
        rfl
    | cons c cs ihcs =>
      obtain ⟨hfresh, hnames⟩ := List.nodup_cons.mp hnames
      have hc : p.separator ∉ c.label.name := hsep c (by simp)
      have hpath : ∀ n ∈ here ++ [c.label.name], p.separator ∉ n := by
        intro n hn
        cases List.mem_append.mp hn with
        | inl hn => exact hhere n hn
        | inr hn =>
          rw [List.mem_singleton.mp hn]
          exact hc
      have habsent : ∀ ns, lookup (.node a cs) (c.label.name :: ns) = none := by
        intro ns
        have hnone : (cs.find? fun d => decide (d.label.name = c.label.name)) = none := by
          rw [List.find?_eq_none]
          intro d hd hde
          exact hfresh (List.mem_map.mpr ⟨d, hd, of_decide_eq_true hde⟩)
        simp [lookup, children, hnone]
      have hown := ih c (by simp) (hdistinct c (by simp)) (hclean c (by simp)) hpath
        (Assoc.insert (joinPath p (here ++ [c.label.name])) (priority c.label.checkedState) m)
      rw [childPriorities]
      apply Writes.cons (joinPath_eq_iff (by simp) hpath k) habsent hown
      exact ihcs (fun d hd => ih d (by simp [hd])) _ hnames (fun d hd => hdistinct d (by simp [hd]))
        (fun d hd => hsep d (by simp [hd])) (fun d hd => hclean d (by simp [hd]))

/-- The map of priorities holds, for the path of every item, whether the item is
checked. -/
theorem find_getFilePiorites {p : Platform} {t : FileTree} (hdistinct : Distinct t)
    (hclean : Clean p t) (k : QString) : Assoc.find k (getFilePiorites p t) =
      (lookup t (k.splitOn p.separator)).map fun u => priority u.label.checkedState := by
  have hwrites := find_getFilePrioritiesInternal k hdistinct hclean
    (fun n (hn : n ∈ []) => absurd hn List.not_mem_nil) []
  have hne : k.splitOn p.separator ≠ [] := List.splitOn_ne_nil _ _
  cases hu : lookup t (k.splitOn p.separator) with
  | some u => exact hwrites.1 _ u hne rfl hu
  | none =>
    apply hwrites.2
    intro ns _ hns
    rw [← hu, hns]
    rfl

/-! ### What a sequence of paths builds -/

def pathItem (size : QString) (_ : FileTreeItem) (part : QString) (rest : List QString) :
    FileTreeItem :=
  ⟨part, if rest = [] then size else [], .checked⟩

theorem name_pathItem (size : QString) (a : FileTreeItem) (part : QString) (rest : List QString) :
    (pathItem size a part rest).name = part := rfl

theorem lookup_eq (t : FileTree) (ns : List QString) :
    lookup t ns = RoseTree.lookup FileTreeItem.name t ns := by
  induction ns generalizing t with
  | nil => rw [lookup_nil, RoseTree.lookup_nil]
  | cons n ns ih =>
    rw [lookup, RoseTree.lookup_cons]
    simp only [ih]

theorem descend_eq_insertPath (size : QString) (parts : List QString) (t : FileTree) :
    descend size parts t = insertPath FileTreeItem.name (pathItem size) parts t := by
  induction parts generalizing t with
  | nil => rfl
  | cons part parts ih =>
    obtain ⟨a, cs⟩ := t
    rw [descend, insertPath, funext ih]
    rfl

@[simp] theorem label_descend (size : QString) (parts : List QString) (t : FileTree) :
    (descend size parts t).label = t.label := by
  rw [descend_eq_insertPath, label_insertPath]

/-- On an item without children the chain is what the general way builds. -/
theorem chain_eq_descend (size : QString) (parts : List QString) (a : FileTreeItem) :
    chain size parts (.node a []) = descend size parts (.node a []) := by
  induction parts generalizing a with
  | nil => rfl
  | cons part parts ih => simp [chain, descend, newItem, ih]

theorem addPath_eq_descend (p : Platform) (t : FileTree) (path size : QString) :
    addPath p t path size = descend size (pathParts p path) t := by
  obtain ⟨a, cs⟩ := t
  rw [addPath]
  split_ifs with h
  · obtain rfl : cs = [] := h
    exact chain_eq_descend size _ a
  · rfl

theorem lookup_newItem {name size : QString} {ns : List QString} (h : ns ≠ []) :
    lookup (newItem name size) ns = none := by
  cases ns with
  | nil => exact absurd rfl h
  | cons n ns => rfl

theorem isSome_lookup_descend (size : QString) (parts : List QString) (t : FileTree)
    (ns : List QString) :
    (lookup (descend size parts t) ns).isSome ↔ (lookup t ns).isSome ∨ ns <+: parts := by
  rw [descend_eq_insertPath, lookup_eq, lookup_eq]
  exact isSome_lookup_insertPath (name_pathItem size) parts t ns

/-- Only the proper beginnings of the new path become folders. -/
theorem children_lookup_descend (size : QString) (parts : List QString) {t u : FileTree}
    {ns : List QString} (hu : lookup (descend size parts t) ns = some u) (hne : u.children ≠ []) :
    (∃ v, lookup t ns = some v ∧ v.children ≠ []) ∨ (ns <+: parts ∧ ns ≠ parts) := by
  rw [lookup_eq] at hu
  obtain ⟨n, hn⟩ := not_forall.mp (mt (children_eq_nil_iff_of_lookup hu).mpr hne)
  rw [← lookup_eq] at hn
  rcases (isSome_lookup_descend size parts t _).mp (Option.isSome_iff_ne_none.mpr hn) with hold | hpre
  · rw [lookup_eq] at hold
    obtain ⟨v, hv⟩ := Option.isSome_iff_exists.mp
      (lookup_isSome_of_isPrefix (List.prefix_append ns [n]) hold)
    refine .inl ⟨v, by rw [lookup_eq, hv], fun hnil => ?_⟩
    rw [(children_eq_nil_iff_of_lookup hv).mp hnil n] at hold
    exact absurd hold (by simp)
  · refine .inr ⟨(List.prefix_append ns [n]).trans hpre, ?_⟩
    rintro rfl
    exact not_concat_isPrefix hpre

theorem distinct_descend (size : QString) (parts : List QString) {t : FileTree} (h : Distinct t) :
    Distinct (descend size parts t) := by
  rw [descend_eq_insertPath]
  exact distinct_insertPath (name_pathItem size) parts h

theorem clean_descend {p : Platform} (size : QString) {parts : List QString}
    (hparts : ∀ n ∈ parts, p.separator ∉ n) {t : FileTree} (h : Clean p t) :
    Clean p (descend size parts t) := by
  induction parts generalizing t with
  | nil => exact h
  | cons part parts ih =>
    have hrest := fun n hn => hparts n (List.mem_cons_of_mem _ hn)
    obtain ⟨a, cs⟩ := t
    rw [Clean, everywhere_node] at h
    obtain ⟨hnames, hcs⟩ := h
    rw [descend]
    split
    · refine everywhere_node.mpr ⟨?_, ?_⟩
      · intro c hc
        rcases mem_modify_children hc with hc | ⟨d, hd, rfl⟩
        · exact hnames c hc
        · rw [label_descend]
          exact hnames d hd
      · intro c hc
        rcases mem_modify_children hc with hc | ⟨d, hd, rfl⟩
        · exact hcs c hc
        · exact ih hrest (hcs d hd)
    · refine everywhere_node.mpr ⟨?_, ?_⟩
      · intro c hc
        cases List.mem_append.mp hc with
        | inl hc => exact hnames c hc
        | inr hc =>
          rw [List.mem_singleton.mp hc, label_descend]
          exact hparts part (by simp)
      · intro c hc
        cases List.mem_append.mp hc with
        | inl hc => exact hcs c hc
        | inr hc =>
          rw [List.mem_singleton.mp hc]
          exact ih hrest (everywhere_node.mpr ⟨by simp [children], by simp⟩)

/-- The tree of a list of paths: each of them leads to an item, and only proper
beginnings of them lead to folders. -/
structure Holds (p : Platform) (t : FileTree) (paths : List (List QString)) : Prop where
  distinct : Distinct t
  clean : Clean p t
  found : ∀ parts ∈ paths, (lookup t parts).isSome
  folders : ∀ ns u, lookup t ns = some u → u.children ≠ [] →
    ∃ parts ∈ paths, ns <+: parts ∧ ns ≠ parts

theorem Holds.addPath {p : Platform} {t : FileTree} {paths : List (List QString)}
    (h : Holds p t paths) (path size : QString) :
    Holds p (addPath p t path size) (paths ++ [pathParts p path]) := by
  rw [addPath_eq_descend]
  refine ⟨distinct_descend _ _ h.distinct, ?_, ?_, ?_⟩
  · exact clean_descend _ (fun n hn => not_mem_of_mem_splitOn hn) h.clean
  · intro parts hparts
    cases List.mem_append.mp hparts with
    | inl hparts => exact (isSome_lookup_descend _ _ _ _).mpr (.inl (h.found parts hparts))
    | inr hparts =>
      rw [List.mem_singleton.mp hparts]
      exact (isSome_lookup_descend _ _ _ _).mpr (.inr (List.prefix_refl _))
  · intro ns u hu hne
    rcases children_lookup_descend _ _ hu hne with ⟨v, hv, hvne⟩ | hpre
    · obtain ⟨parts, hparts, hpre⟩ := h.folders ns v hv hvne
      exact ⟨parts, List.mem_append_left _ hparts, hpre⟩
    · exact ⟨_, List.mem_append_right _ (List.mem_singleton.mpr rfl), hpre⟩

theorem holds_build (p : Platform) (files : List (QString × QString)) :
    Holds p (build p files) (files.map fun f => pathParts p f.1) := by
  have hroot : Holds p rootItem [] := by
    refine ⟨everywhere_node.mpr ⟨?_, ?_⟩, everywhere_node.mpr ⟨?_, ?_⟩, ?_, ?_⟩
    case refine_6 =>
      intro ns u hu hne
      cases ns with
      | nil =>
        obtain rfl : rootItem = u := by simpa using hu
        exact absurd rfl hne
      | cons n ns => simp [rootItem, lookup_newItem] at hu
    all_goals simp [children]
  have hfold : ∀ (t : FileTree) (paths : List (List QString)), Holds p t paths →
      Holds p (files.foldl (fun t f => addPath p t f.1 f.2) t)
        (paths ++ files.map fun f => pathParts p f.1) := by
    induction files with
    | nil =>
      intro t paths h
      simpa using h
    | cons f files ih =>
      intro t paths h
      have hstep := ih _ _ (h.addPath f.1 f.2)
      simpa using hstep
  exact hfold rootItem [] hroot

theorem Holds.leaf {p : Platform} {t : FileTree} {paths : List (List QString)} (h : Holds p t paths)
    {parts : List QString} (hmem : parts ∈ paths)
    (hpre : ∀ q ∈ paths, parts <+: q → parts = q) :
    ∃ u, lookup t parts = some u ∧ u.children = [] := by
  obtain ⟨u, hu⟩ := Option.isSome_iff_exists.mp (h.found parts hmem)
  refine ⟨u, hu, ?_⟩
  by_contra hne
  obtain ⟨q, hq, hqpre, hqne⟩ := h.folders parts u hu hne
  exact hqne (hpre q hq hqpre)

/-! ### Clicks change no name -/

def eraseStates (t : FileTree) : FileTree := mapLabels (FileTreeItem.withState .checked) t

theorem withState_withState (s : CheckState) (i : FileTreeItem) :
    (i.withState s).withState .checked = i.withState .checked := rfl

theorem eraseStates_modify_setChecked (s : CheckState) (p : List Nat) (t : FileTree) :
    eraseStates (modify (setChecked s) p t) = eraseStates t := by
  apply mapLabels_modify
  intro u
  unfold setChecked
  split_ifs
  · exact mapLabels_mapRoot (withState_withState _) u
  · exact mapLabels_mapLabels (withState_withState s) u

theorem eraseStates_markPartial (t : FileTree) (p : List Nat) :
    eraseStates (markPartial t p) = eraseStates t := by
  have hfold : ∀ qs : List (List Nat), eraseStates
      (qs.foldl (fun t q => modify (setChecked .partiallyChecked) q t) t) = eraseStates t := by
    intro qs
    induction qs generalizing t with
    | nil => rfl
    | cons q qs ih => rw [List.foldl_cons, ih, eraseStates_modify_setChecked]
  exact hfold _

theorem eraseStates_toggle (t : FileTree) (a : Toggle) :
    eraseStates (toggle t a) = eraseStates t := by
  rw [toggle, setData]
  dsimp only
  split_ifs
  all_goals simp only [eraseStates_modify_setChecked, eraseStates_markPartial]

theorem children_eraseStates (u : FileTree) :
    (eraseStates u).children = u.children.map eraseStates := by
  obtain ⟨a, cs⟩ := u
  simp only [eraseStates, mapLabels, children, mapChildren_eq_map]
  rfl

theorem name_eraseStates (u : FileTree) : (eraseStates u).label.name = u.label.name := by
  obtain ⟨a, cs⟩ := u
  rfl

theorem lookup_eraseStates (t : FileTree) (ns : List QString) :
    lookup (eraseStates t) ns = (lookup t ns).map eraseStates := by
  induction ns generalizing t with
  | nil => simp
  | cons n ns ih =>
    simp only [lookup, children_eraseStates, List.find?_map, Function.comp_def, name_eraseStates]
    cases t.children.find? fun c => decide (c.label.name = n) with
    | none => rfl
    | some c => exact ih c

theorem holds_eraseStates {p : Platform} {t : FileTree} {paths : List (List QString)} :
    Holds p (eraseStates t) paths ↔ Holds p t paths := by
  have hdistinct : Distinct (eraseStates t) ↔ Distinct t := by
    apply everywhere_mapLabels
    intro u
    have hnames : (mapLabels (FileTreeItem.withState .checked) u).children =
        u.children.map eraseStates := children_eraseStates u
    simp only [hnames, List.map_map, Function.comp_def, name_eraseStates]
  have hclean : Clean p (eraseStates t) ↔ Clean p t := by
    apply everywhere_mapLabels
    intro u
    have hnames : (mapLabels (FileTreeItem.withState .checked) u).children =
        u.children.map eraseStates := children_eraseStates u
    simp only [hnames, List.forall_mem_map, name_eraseStates]
  constructor
  · intro h
    refine ⟨hdistinct.mp h.distinct, hclean.mp h.clean, ?_, ?_⟩
    · intro parts hparts
      simpa [lookup_eraseStates] using h.found parts hparts
    · intro ns u hu hne
      apply h.folders ns (eraseStates u)
      · rw [lookup_eraseStates, hu]
        rfl
      · simpa [children_eraseStates] using hne
  · intro h
    refine ⟨hdistinct.mpr h.distinct, hclean.mpr h.clean, ?_, ?_⟩
    · intro parts hparts
      simpa [lookup_eraseStates] using h.found parts hparts
    · intro ns u hu hne
      rw [lookup_eraseStates] at hu
      obtain ⟨v, hv, rfl⟩ := Option.map_eq_some_iff.mp hu
      apply h.folders ns v hv
      simpa [children_eraseStates] using hne

theorem holds_toggles {p : Platform} {t : FileTree} {paths : List (List QString)}
    (h : Holds p t paths) (as : List Toggle) : Holds p (Runs.final toggle t as) paths := by
  have hstep : ∀ (t : FileTree) (a : Toggle), Holds p t paths → Holds p (toggle t a) paths := by
    intro t a ht
    rw [← holds_eraseStates, eraseStates_toggle, holds_eraseStates]
    exact ht
  exact Runs.final_of_step (P := fun t => Holds p t paths) hstep h as

end FileTreeModel
end CuteTorrent
