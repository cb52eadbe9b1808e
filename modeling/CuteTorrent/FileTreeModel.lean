import Mathlib.Data.List.Infix
import CuteTorrent.Library.RoseTree
import CuteTorrent.Library.Runs
import CuteTorrent.Qt

/-! `FileTreeModel`: the tree of a torrent's files with its check boxes. An item
is addressed by the rows that lead to it from the root. -/
namespace CuteTorrent

inductive CheckState where
  | unchecked
  | partiallyChecked
  | checked
deriving DecidableEq, Repr

structure FileTreeItem where
  name : QString
  size : QString
  checkedState : CheckState
deriving DecidableEq

def FileTreeItem.withState (s : CheckState) (i : FileTreeItem) : FileTreeItem :=
  { i with checkedState := s }

abbrev FileTree := RoseTree FileTreeItem

namespace FileTreeModel
open RoseTree

/-- `FileTreeItem::setChecked`: only a partial check stays with the item. -/
def setChecked (s : CheckState) (t : FileTree) : FileTree :=
  if s = .partiallyChecked then mapRoot (FileTreeItem.withState s) t
  else mapLabels (FileTreeItem.withState s) t

def newItem (name size : QString) : FileTree := .node ⟨name, size, .checked⟩ []

/-- Empty texts stand for the translated headers; the path of a tree without files reads them. -/
def rootItem : FileTree := newItem [] []

def stateAt (t : FileTree) (p : List Nat) : Option CheckState :=
  (t.labelAt p).map FileTreeItem.checkedState

def childStates (t : FileTree) (p : List Nat) : List CheckState :=
  ((t.get? p).elim [] children).map fun c => c.label.checkedState

/-! ### Building -/

/-- The first path goes down the tree as a chain. -/
def chain (size : QString) : List QString → FileTree → FileTree
  | [], t => t
  | part :: parts, .node a cs =>
    .node a (cs ++ [chain size parts (newItem part (if parts = [] then size else []))])

/-- Every other path follows the items that exist and appends those that do not. -/
def descend (size : QString) : List QString → FileTree → FileTree
  | [], t => t
  | part :: parts, .node a cs =>
    match cs.findIdx? fun c => decide (c.label.name = part) with
    | some j => .node a (cs.modify j (descend size parts))
    | none => .node a (cs ++ [descend size parts (newItem part (if parts = [] then size else []))])

def pathParts (p : Platform) (path : QString) : List QString :=
  (p.toNativeSeparators path).splitOn p.separator

def addPath (p : Platform) (t : FileTree) (path size : QString) : FileTree :=
  if t.children = [] then chain size (pathParts p path) t
  else descend size (pathParts p path) t

def build (p : Platform) (files : List (QString × QString)) : FileTree :=
  files.foldl (fun t f => addPath p t f.1 f.2) rootItem

/-! ### Toggling -/

/-- The items from the one addressed up to the root's child, the loop
`while (parent != rootItem)`. -/
def ancestors (p : List Nat) : List (List Nat) := (p.inits.filter fun q => decide (q ≠ [])).reverse

def markPartial (t : FileTree) (p : List Nat) : FileTree :=
  (ancestors p).foldl (fun t q => modify (setChecked .partiallyChecked) q t) t

/-- `setData(index(row, 0, parent), state, Qt::CheckStateRole)` -/
def setData (t : FileTree) (parent : List Nat) (row : Nat) (state : CheckState) : FileTree × Bool :=
  if (t.get? (parent ++ [row])).isSome then
    let t := modify (setChecked state) (parent ++ [row]) t
    let allUnchecked := (childStates t parent).all fun s => decide (s = .unchecked)
    let allChecked := (childStates t parent).all fun s => decide (s = .checked)
    if allUnchecked then (modify (setChecked .unchecked) parent t, true)
    else if allChecked then
      let t := modify (setChecked .checked) parent t
      -- the root has no parent; an empty address drops nothing
      (if parent = [] then t else modify (setChecked .checked) parent.dropLast t, true)
    else (markPartial t parent, true)
  else (t, false)

structure Toggle where
  parent : List Nat
  row : Nat
  isChecked : Bool
deriving DecidableEq, Repr

namespace Toggle

def state (a : Toggle) : CheckState := if a.isChecked then .checked else .unchecked

def item (a : Toggle) : List Nat := a.parent ++ [a.row]

end Toggle

def toggle (t : FileTree) (a : Toggle) : FileTree := (setData t a.parent a.row a.state).1

/-! ### What one call does to every node -/

theorem getElem?_childStates (t : FileTree) (p : List Nat) (j : Nat) :
    (childStates t p)[j]? = stateAt t (p ++ [j]) := by
  rw [childStates, stateAt, labelAt, get?_append]
  cases t.get? p with
  | none => rfl
  | some u =>
    simp only [Option.elim, List.getElem?_map, Option.bind_some, get?_cons, get?_nil]
    cases u.children[j]? <;> rfl

theorem stateAt_modify_setChecked {s : CheckState} (hs : s ≠ .partiallyChecked) (t : FileTree)
    (p q : List Nat) : stateAt (modify (setChecked s) p t) q =
      if p <+: q then (stateAt t q).map fun _ => s else stateAt t q := by
  have hfun : setChecked s = mapLabels (FileTreeItem.withState s) := by
    funext u
    exact if_neg hs
  rw [hfun, stateAt, labelAt_modify_mapLabels, stateAt]
  split_ifs
  · cases t.labelAt q <;> rfl
  · rfl

theorem stateAt_modify_partial (t : FileTree) (p q : List Nat) :
    stateAt (modify (setChecked .partiallyChecked) p t) q =
      if q = p then (stateAt t q).map fun _ => .partiallyChecked else stateAt t q := by
  have hfun : setChecked .partiallyChecked = mapRoot (FileTreeItem.withState .partiallyChecked) := by
    funext u
    exact if_pos rfl
  rw [hfun, stateAt, labelAt_modify_mapRoot, stateAt]
  split_ifs
  · cases t.labelAt q <;> rfl
  · rfl

@[simp] theorem arityAt_modify_setChecked (s : CheckState) (t : FileTree) (p q : List Nat) :
    (modify (setChecked s) p t).arityAt q = t.arityAt q := by
  by_cases hs : s = .partiallyChecked
  · have hfun : setChecked s = mapRoot (FileTreeItem.withState s) := by
      funext u
      exact if_pos hs
    rw [hfun, arityAt_modify_mapRoot]
  · have hfun : setChecked s = mapLabels (FileTreeItem.withState s) := by
      funext u
      exact if_neg hs
    rw [hfun, arityAt_modify_mapLabels]

theorem mem_ancestors {p q : List Nat} : q ∈ ancestors p ↔ q ≠ [] ∧ q <+: p := by
  rw [ancestors, List.mem_reverse, List.mem_filter, List.mem_inits, decide_eq_true_eq]
  exact And.comm

theorem stateAt_foldl_partial (qs : List (List Nat)) (t : FileTree) (q : List Nat) :
    stateAt (qs.foldl (fun t p => modify (setChecked .partiallyChecked) p t) t) q =
      if q ∈ qs then (stateAt t q).map fun _ => .partiallyChecked else stateAt t q := by
  induction qs generalizing t with
  | nil => rfl
  | cons p qs ih =>
    rw [List.foldl_cons, ih, stateAt_modify_partial]
    by_cases hp : q = p
    · subst hp
      cases stateAt t q <;> simp
    · simp [hp]

theorem stateAt_markPartial (t : FileTree) (p q : List Nat) :
    stateAt (markPartial t p) q =
      if q ≠ [] ∧ q <+: p then (stateAt t q).map fun _ => .partiallyChecked else stateAt t q := by
  rw [markPartial, stateAt_foldl_partial]
  simp only [mem_ancestors]

@[simp] theorem arityAt_markPartial (t : FileTree) (p q : List Nat) :
    (markPartial t p).arityAt q = t.arityAt q := by
  have hfold : ∀ qs : List (List Nat),
      (qs.foldl (fun t p => modify (setChecked .partiallyChecked) p t) t).arityAt q =
        t.arityAt q := by
    intro qs
    induction qs generalizing t with
    | nil => rfl
    | cons p qs ih => rw [List.foldl_cons, ih, arityAt_modify_setChecked]
  exact hfold _

def allShow (t : FileTree) (a : Toggle) : Bool :=
  ((childStates t a.parent).set a.row a.state).all fun s => decide (s = a.state)

/-- The item whose whole subtree is written once the children agree: the parent
when they are unchecked, its parent when they are checked. -/
def scope (a : Toggle) : List Nat := if a.isChecked then a.parent.dropLast else a.parent

theorem Toggle.state_ne_partial (a : Toggle) : a.state ≠ .partiallyChecked := by
  unfold state
  split_ifs <;> decide

theorem scope_isPrefix (a : Toggle) : scope a <+: a.parent := by
  unfold scope
  split_ifs
  · exact List.dropLast_prefix _
  · exact List.prefix_refl _

theorem scope_isPrefix_item (a : Toggle) : scope a <+: a.item :=
  (scope_isPrefix a).trans (List.prefix_append _ _)

theorem not_isPrefix_child {v p : List Nat} {j : Nat} (hin : ¬ v <+: p) (hne : v ≠ p ++ [j]) :
    ¬ v <+: p ++ [j] := by
  intro h
  cases List.prefix_concat_iff.mp (by simpa using h) with
  | inl heq => exact hne (by simpa using heq)
  | inr h => exact hin h

theorem lt_length_childStates {t : FileTree} {v : List Nat} {i : Nat}
    (h : (t.get? (v ++ [i])).isSome) : i < (childStates t v).length := by
  by_contra hge
  have hnone : (childStates t v)[i]? = none := List.getElem?_eq_none (by omega)
  rw [getElem?_childStates, stateAt, labelAt] at hnone
  cases hi : t.get? (v ++ [i]) with
  | none => simp [hi] at h
  | some u => simp [hi] at hnone

theorem childStates_of_write {t t' : FileTree} {v : List Nat} {i : Nat} {s : CheckState}
    (hw : ∀ q, stateAt t' q =
      if v ++ [i] <+: q then (stateAt t q).map fun _ => s else stateAt t q) :
    childStates t' v = (childStates t v).set i s := by
  apply List.ext_getElem?
  intro j
  rw [getElem?_childStates, hw, List.getElem?_set, getElem?_childStates]
  by_cases hj : i = j
  · subst hj
    have hself : v ++ [i] <+: v ++ [i] := List.prefix_refl _
    rw [if_pos hself, if_pos rfl, ← getElem?_childStates]
    by_cases hlt : i < (childStates t v).length
    · simp [hlt]
    · simp [hlt]
  · have hne : ¬ v ++ [i] <+: v ++ [j] := by
      intro h
      exact hj (by simpa using h.eq_of_length (by simp))
    rw [if_neg hne, if_neg hj]

theorem childStates_modify_item {t : FileTree} {a : Toggle} :
    childStates (modify (setChecked a.state) a.item t) a.parent =
      (childStates t a.parent).set a.row a.state :=
  childStates_of_write fun q => stateAt_modify_setChecked a.state_ne_partial t a.item q

theorem stateAt_modify_modify {s : CheckState} (hs : s ≠ .partiallyChecked) {p r : List Nat}
    (hpr : p <+: r) (t : FileTree) (q : List Nat) :
    stateAt (modify (setChecked s) p (modify (setChecked s) r t)) q =
      if p <+: q then (stateAt t q).map fun _ => s else stateAt t q := by
  rw [stateAt_modify_setChecked hs, stateAt_modify_setChecked hs]
  by_cases hp : p <+: q
  · rw [if_pos hp, if_pos hp]
    split_ifs
    · cases stateAt t q <;> rfl
    · rfl
  · have hr : ¬ r <+: q := fun hr => hp (hpr.trans hr)
    rw [if_neg hp, if_neg hp, if_neg hr]

theorem all_eq_iff {l : List CheckState} {r s : CheckState} (hr : r ∈ l) :
    (l.all fun x => decide (x = s)) = true ↔ r = s ∧ (l.all fun x => decide (x = r)) = true := by
  constructor
  · intro h
    have hrs : r = s := by simpa using List.all_eq_true.mp h r hr
    exact ⟨hrs, hrs ▸ h⟩
  · rintro ⟨rfl, h⟩
    exact h

theorem mem_set_item {t : FileTree} {a : Toggle} (hitem : (t.get? a.item).isSome) :
    a.state ∈ (childStates t a.parent).set a.row a.state :=
  List.mem_set (lt_length_childStates hitem) _

theorem toggle_missing {t : FileTree} {a : Toggle} (hitem : ¬ (t.get? a.item).isSome) :
    toggle t a = t := by
  rw [toggle, setData]
  exact congrArg Prod.fst (if_neg hitem)

/-- The three ways a call goes: the children agree and the parent is written,
when they are checked its parent too, or they differ and the items above are
marked as partial. -/
theorem toggle_eq {t : FileTree} {a : Toggle} (hitem : (t.get? a.item).isSome) :
    toggle t a =
      if allShow t a then
        if a.isChecked = true ∧ a.parent ≠ [] then
          modify (setChecked a.state) a.parent.dropLast
            (modify (setChecked a.state) a.parent (modify (setChecked a.state) a.item t))
        else modify (setChecked a.state) a.parent (modify (setChecked a.state) a.item t)
      else markPartial (modify (setChecked a.state) a.item t) a.parent := by
  have hall : ∀ s, (((childStates t a.parent).set a.row a.state).all
      fun x => decide (x = s)) = true ↔ a.state = s ∧ allShow t a = true :=
    fun _ => all_eq_iff (mem_set_item hitem)
  have hitem' : (t.get? (a.parent ++ [a.row])).isSome = true := hitem
  have hchildren : childStates (modify (setChecked a.state) (a.parent ++ [a.row]) t) a.parent =
      (childStates t a.parent).set a.row a.state := childStates_modify_item
  rw [toggle, setData, if_pos hitem']
  simp only [hchildren, hall]
  by_cases h : allShow t a = true
  · cases ha : a.isChecked with
    | false =>
      have hstate : a.state = .unchecked := by simp [Toggle.state, ha]
      simp [h, hstate, Toggle.item]
    | true =>
      have hstate : a.state = .checked := by simp [Toggle.state, ha]
      by_cases hroot : a.parent = []
      · simp [h, hstate, hroot, Toggle.item]
      · simp [h, hstate, hroot, Toggle.item]
  · simp [h, Toggle.item]

theorem stateAt_toggle {t : FileTree} {a : Toggle} (hitem : (t.get? a.item).isSome) (q : List Nat) :
    stateAt (toggle t a) q =
      if allShow t a then
        if scope a <+: q then (stateAt t q).map fun _ => a.state else stateAt t q
      else if a.item <+: q then (stateAt t q).map fun _ => a.state
      else if q ≠ [] ∧ q <+: a.parent then (stateAt t q).map fun _ => .partiallyChecked
      else stateAt t q := by
  have hs := a.state_ne_partial
  have hsub : a.parent <+: a.item := List.prefix_append _ _
  rw [toggle_eq hitem]
  by_cases hall : allShow t a = true
  · rw [if_pos hall, if_pos hall]
    cases ha : a.isChecked with
    | false =>
      have hscope : scope a = a.parent := by simp [scope, ha]
      rw [if_neg (by simp), hscope]
      exact stateAt_modify_modify hs hsub t q
    | true =>
      have hscope : scope a = a.parent.dropLast := by simp [scope, ha]
      by_cases hroot : a.parent = []
      · rw [if_neg (by simp [hroot]), stateAt_modify_modify hs hsub, hscope, hroot]
        rfl
      · rw [if_pos ⟨rfl, hroot⟩, hscope, stateAt_modify_setChecked hs,
          stateAt_modify_modify hs hsub]
        have hdrop : a.parent.dropLast <+: a.parent := List.dropLast_prefix _
        by_cases hq : a.parent.dropLast <+: q
        · rw [if_pos hq, if_pos hq]
          split_ifs
          · cases stateAt t q <;> rfl
          · rfl
        · have hq' : ¬ a.parent <+: q := fun h => hq (hdrop.trans h)
          rw [if_neg hq, if_neg hq, if_neg hq']
  · rw [if_neg hall, if_neg hall, stateAt_markPartial, stateAt_modify_setChecked hs]
    by_cases hq : a.item <+: q
    · have hnot : ¬ (q ≠ [] ∧ q <+: a.parent) := fun h => not_concat_isPrefix (hq.trans h.2)
      rw [if_neg hnot, if_pos hq, if_pos hq]
    · rw [if_neg hq, if_neg hq]

theorem arityAt_toggle (t : FileTree) (a : Toggle) (q : List Nat) :
    (toggle t a).arityAt q = t.arityAt q := by
  rw [toggle, setData]
  dsimp only
  split_ifs
  all_goals simp only [arityAt_modify_setChecked, arityAt_markPartial]

/-! ### The leaves -/

def IsLeaf (t : FileTree) (q : List Nat) : Prop := t.arityAt q = some 0

instance (t : FileTree) (q : List Nat) : Decidable (IsLeaf t q) :=
  inferInstanceAs (Decidable (_ = _))

def TouchesOwnLeaves (t : FileTree) (a : Toggle) : Prop :=
  ∀ q, IsLeaf t q →
    stateAt (toggle t a) q = if a.item <+: q then some a.state else stateAt t q

/-- When the children of the parent come to agree, the leaves that are written
with them are in that state already. -/
def SiblingsAgree (t : FileTree) (a : Toggle) : Prop :=
  (t.get? a.item).isSome → allShow t a = true →
    ∀ q, IsLeaf t q → scope a <+: q → ¬ a.item <+: q → stateAt t q = some a.state

theorem IsLeaf.stateAt_isSome {t : FileTree} {q : List Nat} (h : IsLeaf t q) :
    ∃ s, stateAt t q = some s := by
  obtain ⟨u, hu, -⟩ := Option.map_eq_some_iff.mp h
  exact ⟨u.label.checkedState, by simp [stateAt, labelAt, hu]⟩

theorem IsLeaf.not_isPrefix {t : FileTree} {q p : List Nat} {i : Nat} (h : IsLeaf t q)
    (hp : (t.get? (p ++ [i])).isSome) : ¬ q <+: p := by
  rintro ⟨r, rfl⟩
  obtain ⟨u, hu, hlen⟩ := Option.map_eq_some_iff.mp h
  have hnil : u.children = [] := List.length_eq_zero_iff.mp hlen
  have hne : ∀ r' : List Nat, r' ≠ [] → u.get? r' = none := by
    intro r' hr'
    cases r' with
    | nil => exact absurd rfl hr'
    | cons j r' => simp [hnil]
  rw [List.append_assoc, get?_append, hu, Option.bind_some, hne _ (by simp)] at hp
  exact absurd hp (by decide)

theorem touchesOwnLeaves_iff (t : FileTree) (a : Toggle) :
    TouchesOwnLeaves t a ↔ SiblingsAgree t a := by
  by_cases hitem : (t.get? a.item).isSome
  · by_cases hall : allShow t a = true
    · have hstep : ∀ q, stateAt (toggle t a) q =
          if scope a <+: q then (stateAt t q).map fun _ => a.state else stateAt t q := by
        intro q
        rw [stateAt_toggle hitem, if_pos hall]
      constructor
      · intro h _ _ q hq hscope hout
        have hsame := h q hq
        rw [hstep, if_pos hscope, if_neg hout] at hsame
        obtain ⟨s, hs⟩ := hq.stateAt_isSome
        rw [← hsame, hs]
        rfl
      · intro h q hq
        obtain ⟨s, hs⟩ := hq.stateAt_isSome
        rw [hstep]
        by_cases hin : a.item <+: q
        · have hscope : scope a <+: q := (scope_isPrefix_item a).trans hin
          rw [if_pos hscope, if_pos hin, hs]
          rfl
        · rw [if_neg hin]
          split_ifs with hscope
          · rw [h hitem hall q hq hscope hin]
            rfl
          · rfl
    · constructor
      · intro _ _ h
        exact absurd h hall
      · intro _ q hq
        have habove : ¬ (q ≠ [] ∧ q <+: a.parent) := fun h => hq.not_isPrefix hitem h.2
        obtain ⟨s, hs⟩ := hq.stateAt_isSome
        rw [stateAt_toggle hitem, if_neg hall, if_neg habove, hs]
        rfl
  · constructor
    · intro _ h
      exact absurd h hitem
    · intro _ q hq
      have hout : ¬ a.item <+: q := by
        rintro ⟨r, rfl⟩
        obtain ⟨u, hu, -⟩ := Option.map_eq_some_iff.mp hq
        rw [get?_append] at hu
        cases hi : t.get? a.item with
        | none => simp [hi] at hu
        | some v => simp [hi] at hitem
      rw [toggle_missing hitem, if_neg hout]

/-- Over any run of clicks on a tree of paths, every click keeps to its own
leaves exactly when no click makes siblings agree above leaves that differ. -/
theorem toggles_touch_own_leaves_iff (p : Platform) (files : List (QString × QString))
    (as : List Toggle) : Runs.Along toggle TouchesOwnLeaves (build p files) as ↔
      Runs.Along toggle SiblingsAgree (build p files) as := by
  have hstep : ∀ t a, True → (TouchesOwnLeaves t a ↔ SiblingsAgree t a) := fun t a _ =>
    touchesOwnLeaves_iff t a
  exact Runs.along_iff_along hstep (fun _ _ _ _ => trivial) trivial as

def twoFolders : List (QString × QString) :=
  [("A/B/f1".toList, []), ("A/B/f2".toList, []), ("A/C/g".toList, [])]

/-- Clearing `g`, then clearing and setting `f1`, sets `g` again. -/
theorem toggle_touches_other_leaf : ¬ ∀ (p : Platform) (files : List (QString × QString))
    (as : List Toggle), Runs.Along toggle TouchesOwnLeaves (build p files) as := by
  intro h
  have hrun := h .unix twoFolders [⟨[0, 1], 0, false⟩, ⟨[0, 0], 0, false⟩, ⟨[0, 0], 0, true⟩]
  have hleaf := hrun.2.2.1 [0, 1, 0] (by decide +kernel)
  revert hleaf
  decide +kernel

/-! ### The folders -/

structure ShowsChildren (t : FileTree) (p : List Nat) : Prop where
  checked : stateAt t p = some .checked ↔ ∀ s ∈ childStates t p, s = .checked
  unchecked : stateAt t p = some .unchecked ↔ ∀ s ∈ childStates t p, s = .unchecked
  partiallyChecked : stateAt t p = some .partiallyChecked ↔
    ¬ (∀ s ∈ childStates t p, s = .checked) ∧ ¬ ∀ s ∈ childStates t p, s = .unchecked

def Truthful (t : FileTree) : Prop := ∀ p ≠ [], childStates t p ≠ [] → ShowsChildren t p

def aggregate (l : List CheckState) : CheckState :=
  if ∀ s ∈ l, s = .checked then .checked
  else if ∀ s ∈ l, s = .unchecked then .unchecked
  else .partiallyChecked

theorem stateAt_isSome_of_children {t : FileTree} {p : List Nat} (h : childStates t p ≠ []) :
    ∃ s, stateAt t p = some s := by
  cases hp : t.get? p with
  | none => simp [childStates, hp] at h
  | some u => exact ⟨u.label.checkedState, by simp [stateAt, labelAt, hp]⟩

theorem showsChildren_iff {t : FileTree} {p : List Nat} (h : childStates t p ≠ []) :
    ShowsChildren t p ↔ stateAt t p = some (aggregate (childStates t p)) := by
  obtain ⟨s, hs⟩ := stateAt_isSome_of_children h
  obtain ⟨r, hr⟩ := List.exists_mem_of_ne_nil _ h
  have hboth : (∀ s ∈ childStates t p, s = .checked) → ¬ ∀ s ∈ childStates t p, s = .unchecked := by
    intro hc hu
    have hrc := hc r hr
    rw [hu r hr] at hrc
    exact absurd hrc (by decide)
  constructor
  · intro hshow
    unfold aggregate
    split_ifs with hc hu
    · exact hshow.checked.mpr hc
    · exact hshow.unchecked.mpr hu
    · exact hshow.partiallyChecked.mpr ⟨hc, hu⟩
  · intro hagg
    unfold aggregate at hagg
    split_ifs at hagg with hc hu
    · refine ⟨?_, ?_, ?_⟩ <;> simp [hagg, eq_true hc, hboth hc]
    · refine ⟨?_, ?_, ?_⟩ <;> simp [hagg, hc, eq_true hu]
    · refine ⟨?_, ?_, ?_⟩ <;> simp [hagg, hc, hu]

theorem aggregate_eq_of_forall {l : List CheckState} {s : CheckState} (hs : s ≠ .partiallyChecked)
    (hne : l ≠ []) (h : ∀ x ∈ l, x = s) : aggregate l = s := by
  obtain ⟨r, hr⟩ := List.exists_mem_of_ne_nil _ hne
  cases s with
  | partiallyChecked => exact absurd rfl hs
  | checked => exact if_pos h
  | unchecked =>
    have hnot : ¬ ∀ x ∈ l, x = .checked := by
      intro hc
      have hrc := hc r hr
      rw [h r hr] at hrc
      exact absurd hrc (by decide)
    rw [aggregate, if_neg hnot, if_pos h]

theorem aggregate_eq_partial {l : List CheckState}
    (h : .partiallyChecked ∈ l ∨ ∃ s ∈ l, s ≠ .partiallyChecked ∧ ¬ ∀ x ∈ l, x = s) :
    aggregate l = .partiallyChecked := by
  have hnot : ∀ r ≠ .partiallyChecked, ¬ ∀ x ∈ l, x = r := by
    intro r hr hall
    rcases h with hp | ⟨s, hs, -, hne⟩
    · exact hr (hall _ hp).symm
    · exact hne (hall s hs ▸ hall)
  rw [aggregate, if_neg (hnot .checked (by decide)), if_neg (hnot .unchecked (by decide))]

/-- When the children of the parent come to agree, the folder above the subtree
that is written with them already shows what its children then show. -/
def AboveAgrees (t : FileTree) (a : Toggle) : Prop :=
  (t.get? a.item).isSome → allShow t a = true →
    ∀ v i, scope a = v ++ [i] → v ≠ [] →
      stateAt t v = some (aggregate ((childStates t v).set i a.state))

theorem get?_isSome_of_isPrefix {t : FileTree} {p q : List Nat} (hp : p <+: q)
    (hq : (t.get? q).isSome) : (t.get? p).isSome := by
  obtain ⟨r, rfl⟩ := hp
  rw [get?_append] at hq
  cases h : t.get? p with
  | none => simp [h] at hq
  | some u => rfl

theorem mem_childStates {t : FileTree} {p : List Nat} {s : CheckState} :
    s ∈ childStates t p ↔ ∃ j, stateAt t (p ++ [j]) = some s := by
  simp only [List.mem_iff_getElem?, getElem?_childStates]

theorem showsChildren_congr {t t' : FileTree} {p : List Nat} (hp : stateAt t' p = stateAt t p)
    (hchildren : ∀ j, stateAt t' (p ++ [j]) = stateAt t (p ++ [j])) :
    childStates t' p = childStates t p ∧ (ShowsChildren t' p ↔ ShowsChildren t p) := by
  have heq : childStates t' p = childStates t p := by
    apply List.ext_getElem?
    intro j
    rw [getElem?_childStates, getElem?_childStates, hchildren]
  refine ⟨heq, ?_⟩
  constructor
  · intro h
    exact ⟨by rw [← hp, ← heq]; exact h.checked, by rw [← hp, ← heq]; exact h.unchecked,
      by rw [← hp, ← heq]; exact h.partiallyChecked⟩
  · intro h
    exact ⟨by rw [hp, heq]; exact h.checked, by rw [hp, heq]; exact h.unchecked,
      by rw [hp, heq]; exact h.partiallyChecked⟩

section toggled
variable {t : FileTree} {a : Toggle}

theorem childStates_ne_nil_of_get? {p : List Nat} {i : Nat} (h : (t.get? (p ++ [i])).isSome) :
    childStates t p ≠ [] := by
  have hlt := lt_length_childStates h
  intro hnil
  rw [hnil] at hlt
  exact absurd hlt (Nat.not_lt_zero i)

theorem ne_nil_of_toggle {p : List Nat} (h : childStates (toggle t a) p ≠ []) :
    childStates t p ≠ [] := by
  have hlen : ∀ u : FileTree, (childStates u p).length = (u.arityAt p).getD 0 := by
    intro u
    cases hu : u.get? p <;> simp [childStates, arityAt, hu]
  have heq : (childStates (toggle t a) p).length = (childStates t p).length := by
    rw [hlen, hlen, arityAt_toggle]
  intro hnil
  rw [hnil, List.length_nil] at heq
  exact h (List.length_eq_zero_iff.mp heq)

theorem showsChildren_inside {t' : FileTree} {w p : List Nat} {s : CheckState}
    (hs : s ≠ .partiallyChecked) (hw : ∀ q, w <+: q → stateAt t' q = (stateAt t q).map fun _ => s)
    (hp : w <+: p) (hne : childStates t' p ≠ []) : ShowsChildren t' p := by
  obtain ⟨r, hr⟩ := stateAt_isSome_of_children hne
  have hown : stateAt t' p = some s := by
    have hmap := hw p hp
    rw [hr] at hmap
    obtain ⟨-, -, hsr⟩ := Option.map_eq_some_iff.mp hmap.symm
    rw [hr, ← hsr]
  have hchildren : ∀ x ∈ childStates t' p, x = s := by
    intro x hx
    obtain ⟨j, hj⟩ := mem_childStates.mp hx
    have hmap := hw (p ++ [j]) (hp.trans (List.prefix_append _ _))
    rw [hj] at hmap
    obtain ⟨-, -, hsx⟩ := Option.map_eq_some_iff.mp hmap.symm
    exact hsx.symm
  rw [showsChildren_iff hne, hown, aggregate_eq_of_forall hs hne hchildren]

/-- When the children agree, only the folder above the written subtree can be
left with a state that is not theirs. -/
theorem truthful_toggle_of_allShow (ht : Truthful t) (hitem : (t.get? a.item).isSome)
    (hall : allShow t a = true) : Truthful (toggle t a) ↔
      ∀ v i, scope a = v ++ [i] → v ≠ [] →
        stateAt t v = some (aggregate ((childStates t v).set i a.state)) := by
  have hstep : ∀ q, stateAt (toggle t a) q =
      if scope a <+: q then (stateAt t q).map fun _ => a.state else stateAt t q := by
    intro q
    rw [stateAt_toggle hitem, if_pos hall]
  have hscope : (t.get? (scope a)).isSome :=
    get?_isSome_of_isPrefix (scope_isPrefix_item a) hitem
  have hwrite : ∀ q, scope a <+: q → stateAt (toggle t a) q = (stateAt t q).map fun _ => a.state :=
    fun q hq => by rw [hstep, if_pos hq]
  have habove : ∀ v i, scope a = v ++ [i] → stateAt (toggle t a) v = stateAt t v ∧
      childStates (toggle t a) v = (childStates t v).set i a.state := by
    intro v i hv
    rw [hv] at hstep
    refine ⟨?_, childStates_of_write hstep⟩
    rw [hstep, if_neg not_concat_isPrefix]
  constructor
  · intro h v i hv hvne
    obtain ⟨hown, hchildren⟩ := habove v i hv
    have hne : childStates (toggle t a) v ≠ [] := by
      rw [hchildren]
      simpa using childStates_ne_nil_of_get? (hv ▸ hscope)
    have hshow := (showsChildren_iff hne).mp (h v hvne hne)
    rwa [hown, hchildren] at hshow
  · intro h p hp hne
    by_cases hin : scope a <+: p
    · exact showsChildren_inside a.state_ne_partial hwrite hin hne
    · by_cases hv : ∃ i, scope a = p ++ [i]
      · obtain ⟨i, hi⟩ := hv
        obtain ⟨hown, hchildren⟩ := habove p i hi
        rw [showsChildren_iff hne, hown, hchildren]
        exact h p i hi hp
      · have hsame : ∀ j, stateAt (toggle t a) (p ++ [j]) = stateAt t (p ++ [j]) := by
          intro j
          have hout : ¬ scope a <+: p ++ [j] := not_isPrefix_child hin fun heq => hv ⟨j, heq⟩
          rw [hstep, if_neg hout]
        have hcongr := showsChildren_congr (by rw [hstep, if_neg hin]) hsame
        exact hcongr.2.mpr (ht p hp (hcongr.1 ▸ hne))

section marked
variable {p : List Nat} (hitem : (t.get? a.item).isSome) (hall : ¬ allShow t a = true)
include hitem hall

theorem stateAt_toggle_marked (q : List Nat) : stateAt (toggle t a) q =
    if a.item <+: q then (stateAt t q).map fun _ => a.state
    else if q ≠ [] ∧ q <+: a.parent then (stateAt t q).map fun _ => .partiallyChecked
    else stateAt t q := by
  rw [stateAt_toggle hitem, if_neg hall]

theorem childStates_toggle_parent :
    childStates (toggle t a) a.parent = (childStates t a.parent).set a.row a.state := by
  rw [← childStates_modify_item]
  apply List.ext_getElem?
  intro j
  have hnot : ¬ (a.parent ++ [j] ≠ [] ∧ a.parent ++ [j] <+: a.parent) :=
    fun h => not_concat_isPrefix h.2
  rw [getElem?_childStates, getElem?_childStates, stateAt_toggle_marked hitem hall, if_neg hnot,
    stateAt_modify_setChecked a.state_ne_partial]

theorem showsChildren_above (hp : p ≠ []) (hup : p <+: a.parent)
    (hne : childStates (toggle t a) p ≠ []) : ShowsChildren (toggle t a) p := by
  have hin : ¬ a.item <+: p := fun h => not_concat_isPrefix (h.trans hup)
  have hown : stateAt (toggle t a) p = some .partiallyChecked := by
    obtain ⟨s, hs⟩ := stateAt_isSome_of_children (ne_nil_of_toggle hne)
    rw [stateAt_toggle_marked hitem hall, if_neg hin, if_pos ⟨hp, hup⟩, hs]
    rfl
  rw [showsChildren_iff hne, hown, aggregate_eq_partial]
  obtain ⟨r, hr⟩ := hup
  cases r with
  | nil =>
    obtain rfl : p = a.parent := by simpa using hr
    rw [childStates_toggle_parent hitem hall]
    refine .inr ⟨a.state, mem_set_item hitem, a.state_ne_partial, ?_⟩
    intro h
    exact hall (List.all_eq_true.mpr fun x hx => by simpa using h x hx)
  | cons j r =>
    refine .inl (mem_childStates.mpr ⟨j, ?_⟩)
    have hchild : p ++ [j] <+: a.parent := ⟨r, by simpa using hr⟩
    have hout : ¬ a.item <+: p ++ [j] := fun h => not_concat_isPrefix (h.trans hchild)
    have hsome : (t.get? (p ++ [j])).isSome :=
      get?_isSome_of_isPrefix (hchild.trans (List.prefix_append _ _)) hitem
    obtain ⟨u, hu⟩ := Option.isSome_iff_exists.mp hsome
    rw [stateAt_toggle_marked hitem hall, if_neg hout, if_pos ⟨by simp, hchild⟩, stateAt, labelAt,
      hu]
    rfl

theorem truthful_toggle_of_not_allShow (ht : Truthful t) : Truthful (toggle t a) := by
  intro p hp hne
  by_cases hin : a.item <+: p
  · have hwrite : ∀ q, a.item <+: q →
        stateAt (toggle t a) q = (stateAt t q).map fun _ => a.state :=
      fun q hq => by rw [stateAt_toggle_marked hitem hall, if_pos hq]
    exact showsChildren_inside a.state_ne_partial hwrite hin hne
  · by_cases hup : p <+: a.parent
    · exact showsChildren_above hitem hall hp hup hne
    · have hsame : ∀ j, stateAt (toggle t a) (p ++ [j]) = stateAt t (p ++ [j]) := by
        intro j
        have hout : ¬ a.item <+: p ++ [j] := not_isPrefix_child hin fun heq =>
          hup (List.append_inj_left' heq rfl ▸ List.prefix_refl _)
        have hnot : ¬ (p ++ [j] ≠ [] ∧ p ++ [j] <+: a.parent) := fun h =>
          hup ((List.prefix_append _ _).trans h.2)
        rw [stateAt_toggle_marked hitem hall, if_neg hout, if_neg hnot]
      have hown : stateAt (toggle t a) p = stateAt t p := by
        rw [stateAt_toggle_marked hitem hall, if_neg hin, if_neg fun h => hup h.2]
      have hcongr := showsChildren_congr hown hsame
      exact hcongr.2.mpr (ht p hp (hcongr.1 ▸ hne))

end marked

theorem truthful_toggle_iff (t : FileTree) (a : Toggle) (ht : Truthful t) :
    Truthful (toggle t a) ↔ AboveAgrees t a := by
  by_cases hitem : (t.get? a.item).isSome
  · by_cases hall : allShow t a = true
    · rw [truthful_toggle_of_allShow ht hitem hall]
      exact ⟨fun h _ _ => h, fun h => h hitem hall⟩
    · exact ⟨fun _ _ h => absurd h hall, fun _ => truthful_toggle_of_not_allShow hitem hall ht⟩
  · rw [toggle_missing hitem]
    exact ⟨fun _ h => absurd h hitem, fun _ => ht⟩

end toggled

/-! ### A new tree is checked throughout -/

def AllChecked (t : FileTree) : Prop := Everywhere (fun u => u.label.checkedState = .checked) t

theorem AllChecked.stateAt {t : FileTree} (h : AllChecked t) {q : List Nat} {s : CheckState}
    (hs : stateAt t q = some s) : s = .checked := by
  simp only [FileTreeModel.stateAt, labelAt, Option.map_map, Option.map_eq_some_iff] at hs
  obtain ⟨u, hu, rfl⟩ := hs
  exact h q u hu

theorem allChecked_newItem (name size : QString) : AllChecked (newItem name size) :=
  everywhere_node.mpr ⟨rfl, by simp⟩

theorem allChecked_chain (size : QString) (parts : List QString) {t : FileTree}
    (h : AllChecked t) : AllChecked (chain size parts t) := by
  induction parts generalizing t with
  | nil => exact h
  | cons part parts ih =>
    obtain ⟨a, cs⟩ := t
    obtain ⟨ha, hcs⟩ := everywhere_node.mp h
    refine everywhere_node.mpr ⟨ha, ?_⟩
    intro c hc
    cases List.mem_append.mp hc with
    | inl hc => exact hcs c hc
    | inr hc =>
      rw [List.mem_singleton.mp hc]
      exact ih (allChecked_newItem _ _)

theorem allChecked_descend (size : QString) (parts : List QString) {t : FileTree}
    (h : AllChecked t) : AllChecked (descend size parts t) := by
  induction parts generalizing t with
  | nil => exact h
  | cons part parts ih =>
    obtain ⟨a, cs⟩ := t
    obtain ⟨ha, hcs⟩ := everywhere_node.mp h
    rw [descend]
    split
    · refine everywhere_node.mpr ⟨ha, ?_⟩
      intro c hc
      rcases mem_modify_children hc with hc | ⟨d, hd, rfl⟩
      · exact hcs c hc
      · exact ih (hcs d hd)
    · refine everywhere_node.mpr ⟨ha, ?_⟩
      intro c hc
      cases List.mem_append.mp hc with
      | inl hc => exact hcs c hc
      | inr hc =>
        rw [List.mem_singleton.mp hc]
        exact ih (allChecked_newItem _ _)

theorem allChecked_build (p : Platform) (files : List (QString × QString)) :
    AllChecked (build p files) := by
  have hfold : ∀ t : FileTree, AllChecked t →
      AllChecked (files.foldl (fun t f => addPath p t f.1 f.2) t) := by
    induction files with
    | nil => exact fun t ht => ht
    | cons f files ih =>
      intro t ht
      have hadd : AllChecked (addPath p t f.1 f.2) := by
        unfold addPath
        split_ifs
        · exact allChecked_chain _ _ ht
        · exact allChecked_descend _ _ ht
      exact ih _ hadd
  exact hfold rootItem (allChecked_newItem _ _)

theorem truthful_of_allChecked {t : FileTree} (h : AllChecked t) : Truthful t := by
  intro p _ hne
  obtain ⟨s, hs⟩ := stateAt_isSome_of_children hne
  have hall : ∀ x ∈ childStates t p, x = .checked := by
    intro x hx
    obtain ⟨j, hj⟩ := mem_childStates.mp hx
    exact h.stateAt hj
  rw [showsChildren_iff hne, hs, h.stateAt hs, aggregate_eq_of_forall (by decide) hne hall]

/-- Over any run of clicks on a tree of paths, every folder shows its children in
every state exactly when each click that makes siblings agree leaves the folder
above them right. -/
theorem toggles_truthful_iff (p : Platform) (files : List (QString × QString)) (as : List Toggle) :
    Runs.Throughout toggle Truthful (build p files) as ↔
      Runs.Along toggle AboveAgrees (build p files) as :=
  Runs.throughout_iff_along truthful_toggle_iff (truthful_of_allChecked (allChecked_build p files)) as

/-- Clearing the only file of a folder clears the folder, but the folder around
it stays checked. -/
theorem toggle_leaves_folder_untruthful : ¬ ∀ (p : Platform) (files : List (QString × QString))
    (as : List Toggle), Runs.Throughout toggle Truthful (build p files) as := by
  intro h
  have hrun := h .unix [("A/C/f".toList, [])] [⟨[0, 0], 0, false⟩]
  have hfolder := (hrun.2 [0] (by decide) (by decide)).checked
  revert hfolder
  decide

end FileTreeModel
end CuteTorrent
