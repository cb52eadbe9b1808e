import Mathlib.Data.List.InsertIdx
import CuteTorrent.Library.Runs
import CuteTorrent.ApplicationSettings

/-! The groups and the search sources of `SettingsDialog`: each a list of named entries
and a widget with a row for each. -/
namespace CuteTorrent

structure SearchItem where
  name : QString
  pattern : QString
deriving DecidableEq

structure NamedList (ι : Type) where
  entries : List ι
  rows : List QString

namespace NamedList
variable {ι : Type} (name : ι → QString)

def foundRow (n : QString) (entries : List ι) : Option Nat :=
  entries.findIdx? fun a => decide (name a = n)

/-- The names are distinct, and row by row the widget shows them. -/
structure Keyed (l : NamedList ι) : Prop where
  nodup : (l.entries.map name).Nodup
  rows : l.rows = l.entries.map name

def replaced (n : QString) (a : ι) (entries : List ι) : List ι :=
  entries.map fun b => if name b = n then a else b

/-- The widget is filled without being cleared. -/
def refill (l : NamedList ι) (stored : List ι) : NamedList ι :=
  ⟨stored, l.rows ++ stored.map name⟩

variable {name} {n : QString} {entries : List ι} {i : Nat}

theorem foundRow_eq_none_iff : foundRow name n entries = none ↔ n ∉ entries.map name := by
  simp [foundRow, List.findIdx?_eq_none_iff]

theorem name_of_foundRow (h : foundRow name n entries = some i) :
    ∃ hi : i < entries.length, name entries[i] = n := by
  obtain ⟨hi, hname, -⟩ := List.findIdx?_eq_some_iff_getElem.mp h
  exact ⟨hi, of_decide_eq_true hname⟩

theorem head_ne_iff_foundRow :
    entries.head?.map name ≠ some n ↔ foundRow name n entries ≠ some 0 := by
  cases entries with
  | nil => simp [foundRow]
  | cons a entries => by_cases ha : name a = n <;> simp [foundRow, List.findIdx?_cons, ha]

theorem name_inj_iff {l : List ι} (hnodup : (l.map name).Nodup) {i j : Nat} (hi : i < l.length)
    (hj : j < l.length) : name l[i] = name l[j] ↔ i = j := by
  have hi' : i < (l.map name).length := by simpa using hi
  have hj' : j < (l.map name).length := by simpa using hj
  have hinj : (l.map name)[i] = (l.map name)[j] ↔ i = j := hnodup.getElem_inj_iff
  rwa [List.getElem_map, List.getElem_map] at hinj

theorem map_set_name {a : ι} (h : foundRow name (name a) entries = some i) :
    (entries.set i a).map name = entries.map name := by
  obtain ⟨hi, hname⟩ := name_of_foundRow h
  rw [List.map_set, ← hname, ← List.getElem_map name (h := by simpa using hi), List.set_getElem_self]

theorem set_eq_replaced {a : ι} (hnodup : (entries.map name).Nodup)
    (h : foundRow name n entries = some i) : entries.set i a = replaced name n a entries := by
  obtain ⟨hi, hname⟩ := name_of_foundRow h
  apply List.ext_getElem
  · simp [replaced]
  · intro j hj _
    rw [List.length_set] at hj
    have hij : name entries[j] = n ↔ i = j := by
      rw [← hname, name_inj_iff hnodup hj hi, eq_comm]
    simp only [replaced, List.getElem_set, List.getElem_map, hij]

theorem Keyed.append {l : NamedList ι} (h : l.Keyed name) {a : ι}
    (hnew : name a ∉ l.entries.map name) :
    (⟨l.entries ++ [a], l.rows ++ [name a]⟩ : NamedList ι).Keyed name := by
  constructor
  · rw [List.map_append, List.map_singleton, ← List.concat_eq_append]
    exact h.nodup.concat hnew
  · rw [h.rows, List.map_append, List.map_singleton]

theorem not_keyed_append {a : ι} {rows : List QString} (hold : name a ∈ entries.map name) :
    ¬ (⟨entries ++ [a], rows⟩ : NamedList ι).Keyed name := by
  intro h
  have hnodup := h.nodup
  rw [List.map_append, List.nodup_append] at hnodup
  exact hnodup.2.2 (name a) hold (name a) (by simp) rfl

theorem Keyed.set {l : NamedList ι} (h : l.Keyed name) {a : ι}
    (hfound : foundRow name (name a) l.entries = some i) :
    (⟨l.entries.set i a, l.rows⟩ : NamedList ι).Keyed name := by
  constructor
  · rw [map_set_name hfound]
    exact h.nodup
  · rw [map_set_name hfound]
    exact h.rows

theorem Keyed.eraseIdx {l : NamedList ι} (h : l.Keyed name) (i : Nat) :
    (⟨l.entries.eraseIdx i, l.rows.eraseIdx i⟩ : NamedList ι).Keyed name := by
  constructor
  · rw [← List.eraseIdx_map]
    exact h.nodup.eraseIdx i
  · rw [h.rows, List.eraseIdx_map]

theorem Keyed.foundRow_of_row {l : NamedList ι} (h : l.Keyed name) {row : Nat}
    (hrow : l.rows[row]? = some n) : foundRow name n l.entries = some row := by
  rw [h.rows, List.getElem?_map] at hrow
  obtain ⟨a, ha, hname⟩ := Option.map_eq_some_iff.mp hrow
  obtain ⟨hlt, rfl⟩ := List.getElem?_eq_some_iff.mp ha
  cases hfound : foundRow name n l.entries with
  | none =>
    refine absurd ?_ (foundRow_eq_none_iff.mp hfound)
    exact hname ▸ List.mem_map_of_mem (List.getElem_mem hlt)
  | some i =>
    obtain ⟨hi, hname'⟩ := name_of_foundRow hfound
    rw [(name_inj_iff h.nodup hi hlt).mp (hname'.trans hname.symm)]

theorem keyed_refill_iff {l : NamedList ι} (h : l.Keyed name) {stored : List ι}
    (hstored : (stored.map name).Nodup) : (l.refill name stored).Keyed name ↔ l.entries = [] := by
  constructor
  · intro hkeyed
    have hrows : l.rows = [] := List.append_left_eq_self.mp hkeyed.rows
    rw [h.rows] at hrows
    exact List.map_eq_nil_iff.mp hrows
  · intro hempty
    refine ⟨hstored, ?_⟩
    rw [refill, h.rows, hempty]
    rfl

end NamedList

structure StoredLists where
  filterGroups : List GroupForFileFiltering
  searchSources : List SearchItem
  groups_nodup : (filterGroups.map GroupForFileFiltering.name).Nodup
  sources_nodup : (searchSources.map SearchItem.name).Nodup

/-- `filterGroups` with `GroupsListWidget`, `searchSources` with `sourcesComboBox`. -/
structure NamedLists where
  groups : NamedList GroupForFileFiltering
  sources : NamedList SearchItem

namespace NamedLists
open NamedList

/-- `confirmed` is the user's answer where the name is found. -/
inductive Op where
  | addGroup (name extensions dir : QString) (dirExists confirmed : Bool)
  /-- With the row of the first selected item. -/
  | removeGroup (selected : Option Nat)
  | addSearchitem (name pattern : QString) (confirmed : Bool)
  /-- With `currentIndex()`. -/
  | removeSearchItem (index : Option Nat)
  /-- `changeEvent` with a change of the language. -/
  | changeLanguage

def addGroup (l : NamedList GroupForFileFiltering) (name extensions dir : QString)
    (dirExists confirmed : Bool) : NamedList GroupForFileFiltering :=
  if name = [] then l
  else if extensions = [] then l
  else if dir = [] then l
  else if !dirExists then l
  else
    let newfilterGroup := GroupForFileFiltering.ofText name extensions dir
    match foundRow GroupForFileFiltering.name name l.entries with
    | some row =>
      if !confirmed then l
      else if row > 0 then { l with entries := l.entries.set row newfilterGroup }
      else { l with entries := l.entries ++ [newfilterGroup] }
    | none => ⟨l.entries ++ [newfilterGroup], l.rows ++ [name]⟩

def removeGroup (l : NamedList GroupForFileFiltering) (selected : Option Nat) :
    NamedList GroupForFileFiltering :=
  match selected with
  | none => l
  | some row =>
    match l.rows[row]? with
    | none => l
    | some name =>
      match foundRow GroupForFileFiltering.name name l.entries with
      | none => l
      | some found => ⟨l.entries.eraseIdx found, l.rows.eraseIdx row⟩

def addSearchitem (l : NamedList SearchItem) (name pattern : QString) (confirmed : Bool) :
    NamedList SearchItem :=
  if name.length = 0 then l
  else if pattern.length = 0 then l
  else
    match foundRow SearchItem.name name l.entries with
    | some (index + 1) =>
      if !confirmed then l else { l with entries := l.entries.set (index + 1) ⟨name, pattern⟩ }
    | _ => ⟨l.entries ++ [⟨name, pattern⟩], l.rows ++ [name]⟩

def removeSearchItem (l : NamedList SearchItem) (index : Option Nat) : NamedList SearchItem :=
  match index with
  | none => l
  | some index => ⟨l.entries.eraseIdx index, l.rows.eraseIdx index⟩

/-- `FillFilteringGroups` and `FillSearchTab` -/
def fill (stored : StoredLists) (s : NamedLists) : NamedLists :=
  ⟨s.groups.refill GroupForFileFiltering.name stored.filterGroups,
    s.sources.refill SearchItem.name stored.searchSources⟩

def opened (stored : StoredLists) : NamedLists := fill stored ⟨⟨[], []⟩, ⟨[], []⟩⟩

def step (stored : StoredLists) (s : NamedLists) : Op → NamedLists
  | .addGroup name extensions dir dirExists confirmed =>
    { s with groups := addGroup s.groups name extensions dir dirExists confirmed }
  | .removeGroup selected => { s with groups := removeGroup s.groups selected }
  | .addSearchitem name pattern confirmed =>
    { s with sources := addSearchitem s.sources name pattern confirmed }
  | .removeSearchItem index => { s with sources := removeSearchItem s.sources index }
  | .changeLanguage => fill stored s

structure Keyed (s : NamedLists) : Prop where
  groups : s.groups.Keyed GroupForFileFiltering.name
  sources : s.sources.Keyed SearchItem.name

def GroupGiven (name extensions dir : QString) (dirExists : Bool) : Prop :=
  name ≠ [] ∧ extensions ≠ [] ∧ dir ≠ [] ∧ dirExists = true

/-- A name that is there already and that the user confirms gets the new data, and no
other entry changes. -/
def Replaces (stored : StoredLists) (s : NamedLists) : Op → Prop
  | .addGroup name extensions dir dirExists confirmed =>
    GroupGiven name extensions dir dirExists → confirmed = true →
      name ∈ s.groups.entries.map GroupForFileFiltering.name →
        (s.step stored (.addGroup name extensions dir dirExists confirmed)).groups.entries =
          replaced GroupForFileFiltering.name name (.ofText name extensions dir) s.groups.entries
  | .addSearchitem name pattern confirmed =>
    name ≠ [] → pattern ≠ [] → confirmed = true →
      name ∈ s.sources.entries.map SearchItem.name →
        (s.step stored (.addSearchitem name pattern confirmed)).sources.entries =
          replaced SearchItem.name name ⟨name, pattern⟩ s.sources.entries
  | _ => True

/-- No name is added that the first entry has, and the language changes only while both
lists are empty. -/
def NotFirst (s : NamedLists) : Op → Prop
  | .addGroup name extensions dir dirExists confirmed =>
    GroupGiven name extensions dir dirExists → confirmed = true →
      s.groups.entries.head?.map GroupForFileFiltering.name ≠ some name
  | .addSearchitem name pattern _ =>
    name ≠ [] → pattern ≠ [] → s.sources.entries.head?.map SearchItem.name ≠ some name
  | .changeLanguage => s.groups.entries = [] ∧ s.sources.entries = []
  | _ => True

section
variable {l : NamedList GroupForFileFiltering} {name extensions dir : QString}
  {dirExists confirmed : Bool}

theorem addGroup_refused (h : ¬ GroupGiven name extensions dir dirExists) :
    addGroup l name extensions dir dirExists confirmed = l := by
  rw [addGroup]
  split_ifs with hname hext hdir hexists <;>
    first
      | rfl
      | exact absurd ⟨hname, hext, hdir, by simpa using hexists⟩ h

theorem addGroup_given (h : GroupGiven name extensions dir dirExists) :
    addGroup l name extensions dir dirExists confirmed =
      match foundRow GroupForFileFiltering.name name l.entries with
      | some row =>
        if !confirmed then l
        else if row > 0 then
          { l with entries := l.entries.set row (.ofText name extensions dir) }
        else { l with entries := l.entries ++ [.ofText name extensions dir] }
      | none => ⟨l.entries ++ [.ofText name extensions dir], l.rows ++ [name]⟩ := by
  obtain ⟨hname, hext, hdir, hexists⟩ := h
  rw [addGroup, if_neg hname, if_neg hext, if_neg hdir, if_neg (by simp [hexists])]

/-- A group keeps its list keyed by name unless it is appended beside the first entry. -/
theorem keyed_addGroup_iff (h : l.Keyed GroupForFileFiltering.name) :
    ((addGroup l name extensions dir dirExists confirmed).Keyed GroupForFileFiltering.name ∧
      (GroupGiven name extensions dir dirExists → confirmed = true →
        name ∈ l.entries.map GroupForFileFiltering.name →
          (addGroup l name extensions dir dirExists confirmed).entries =
            replaced GroupForFileFiltering.name name (.ofText name extensions dir) l.entries)) ↔
      (GroupGiven name extensions dir dirExists → confirmed = true →
        l.entries.head?.map GroupForFileFiltering.name ≠ some name) := by
  by_cases hgiven : GroupGiven name extensions dir dirExists
  · rw [addGroup_given hgiven, head_ne_iff_foundRow]
    cases hfound : foundRow GroupForFileFiltering.name name l.entries with
    | none =>
      have hnew := foundRow_eq_none_iff.mp hfound
      refine iff_of_true ⟨h.append hnew, fun _ _ hold => absurd hold hnew⟩ fun _ _ => ?_
      exact (Option.some_ne_none 0).symm
    | some row =>
      cases confirmed with
      | false =>
        refine iff_of_true ⟨h, fun _ hno => ?_⟩ fun _ hno => ?_ <;>
          exact absurd hno Bool.false_ne_true
      | true =>
        simp only [Bool.not_true, Bool.false_eq_true, if_false]
        obtain ⟨hrow, hname⟩ := name_of_foundRow hfound
        cases row with
        | zero =>
          have hold : name ∈ l.entries.map GroupForFileFiltering.name :=
            List.mem_map.mpr ⟨_, List.getElem_mem hrow, hname⟩
          refine iff_of_false (fun hkeyed => ?_) fun hne => hne hgiven trivial rfl
          exact not_keyed_append (a := GroupForFileFiltering.ofText name extensions dir) hold hkeyed.1
        | succ row =>
          rw [if_pos (Nat.succ_pos row)]
          refine iff_of_true ⟨h.set (a := .ofText name extensions dir) hfound, fun _ _ _ => ?_⟩ ?_
          · exact set_eq_replaced h.nodup hfound
          · exact fun _ _ hzero => absurd (Option.some.inj hzero) (Nat.succ_ne_zero row)
  · rw [addGroup_refused hgiven]
    exact iff_of_true ⟨h, fun hyes => absurd hyes hgiven⟩ fun hyes => absurd hyes hgiven

theorem keyed_removeGroup (h : l.Keyed GroupForFileFiltering.name) (selected : Option Nat) :
    (removeGroup l selected).Keyed GroupForFileFiltering.name := by
  cases selected with
  | none => exact h
  | some row =>
    rw [removeGroup]
    cases hrow : l.rows[row]? with
    | none => exact h
    | some name =>
      simp only [h.foundRow_of_row hrow]
      exact h.eraseIdx row

end

section
variable {l : NamedList SearchItem} {name pattern : QString} {confirmed : Bool}

theorem addSearchitem_refused (h : ¬ (name ≠ [] ∧ pattern ≠ [])) :
    addSearchitem l name pattern confirmed = l := by
  simp only [addSearchitem, List.length_eq_zero_iff]
  by_cases hname : name = []
  · rw [if_pos hname]
  · have hpattern : pattern = [] := by
      by_contra hne
      exact h ⟨hname, hne⟩
    rw [if_neg hname, if_pos hpattern]

theorem addSearchitem_given (h : name ≠ [] ∧ pattern ≠ []) :
    addSearchitem l name pattern confirmed =
      match foundRow SearchItem.name name l.entries with
      | some (index + 1) =>
        if !confirmed then l else { l with entries := l.entries.set (index + 1) ⟨name, pattern⟩ }
      | _ => ⟨l.entries ++ [⟨name, pattern⟩], l.rows ++ [name]⟩ := by
  simp only [addSearchitem, List.length_eq_zero_iff]
  rw [if_neg h.1, if_neg h.2]

theorem keyed_addSearchitem_iff (h : l.Keyed SearchItem.name) :
    ((addSearchitem l name pattern confirmed).Keyed SearchItem.name ∧
      (name ≠ [] → pattern ≠ [] → confirmed = true → name ∈ l.entries.map SearchItem.name →
        (addSearchitem l name pattern confirmed).entries =
          replaced SearchItem.name name ⟨name, pattern⟩ l.entries)) ↔
      (name ≠ [] → pattern ≠ [] → l.entries.head?.map SearchItem.name ≠ some name) := by
  by_cases hgiven : name ≠ [] ∧ pattern ≠ []
  · rw [addSearchitem_given hgiven, head_ne_iff_foundRow]
    cases hfound : foundRow SearchItem.name name l.entries with
    | none =>
      have hnew := foundRow_eq_none_iff.mp hfound
      refine iff_of_true ⟨h.append hnew, fun _ _ _ hold => absurd hold hnew⟩ fun _ _ => ?_
      exact (Option.some_ne_none 0).symm
    | some index =>
      obtain ⟨hindex, hat⟩ := name_of_foundRow hfound
      cases index with
      | zero =>
        have hold : name ∈ l.entries.map SearchItem.name :=
          List.mem_map.mpr ⟨_, List.getElem_mem hindex, hat⟩
        refine iff_of_false (fun hkeyed => ?_) fun hne => hne hgiven.1 hgiven.2 rfl
        exact not_keyed_append (a := SearchItem.mk name pattern) hold hkeyed.1
      | succ index =>
        have hsucc : ¬ (some (index + 1) = some 0) := by simp
        cases confirmed with
        | false =>
          exact iff_of_true ⟨h, fun _ _ hno => absurd hno Bool.false_ne_true⟩ fun _ _ => hsucc
        | true =>
          refine iff_of_true ⟨h.set (a := ⟨name, pattern⟩) hfound, fun _ _ _ _ => ?_⟩
            fun _ _ => hsucc
          exact set_eq_replaced h.nodup hfound
  · rw [addSearchitem_refused hgiven]
    refine iff_of_true ⟨h, fun hname hpattern => ?_⟩ fun hname hpattern => ?_ <;>
      exact (hgiven ⟨hname, hpattern⟩).elim

theorem keyed_removeSearchItem (h : l.Keyed SearchItem.name) (index : Option Nat) :
    (removeSearchItem l index).Keyed SearchItem.name := by
  cases index with
  | none => exact h
  | some index => exact h.eraseIdx index

end

section
variable (stored : StoredLists)

theorem keyed_fill_iff {s : NamedLists} (h : Keyed s) :
    Keyed (fill stored s) ↔ s.groups.entries = [] ∧ s.sources.entries = [] := by
  rw [← keyed_refill_iff h.groups stored.groups_nodup,
    ← keyed_refill_iff h.sources stored.sources_nodup]
  exact ⟨fun hfill => ⟨hfill.groups, hfill.sources⟩, fun hfill => ⟨hfill.1, hfill.2⟩⟩

theorem keyed_opened : Keyed (opened stored) :=
  ⟨⟨stored.groups_nodup, rfl⟩, ⟨stored.sources_nodup, rfl⟩⟩

theorem keyed_step {s : NamedLists} (h : Keyed s) (op : Op) :
    (Keyed (s.step stored op) ∧ Replaces stored s op) ↔ NotFirst s op := by
  cases op with
  | addGroup name extensions dir dirExists confirmed =>
    refine Iff.trans ?_ (keyed_addGroup_iff h.groups)
    exact and_congr_left fun _ => ⟨fun hnew => hnew.groups, fun hnew => ⟨hnew, h.sources⟩⟩
  | removeGroup selected =>
    exact iff_of_true ⟨⟨keyed_removeGroup h.groups selected, h.sources⟩, trivial⟩ trivial
  | addSearchitem name pattern confirmed =>
    refine Iff.trans ?_ (@keyed_addSearchitem_iff _ name pattern confirmed h.sources)
    exact and_congr_left fun _ => ⟨fun hnew => hnew.sources, fun hnew => ⟨h.groups, hnew⟩⟩
  | removeSearchItem index =>
    exact iff_of_true ⟨⟨h.groups, keyed_removeSearchItem h.sources index⟩, trivial⟩ trivial
  | changeLanguage => exact (and_iff_left trivial).trans (keyed_fill_iff stored h)

/-- In every run of the dialog its named lists stay keyed by name and a name that is
there is replaced, exactly when no name of a first entry is added and the language
changes only while both lists are empty. -/
theorem named_lists_keyed_iff (ops : List Op) :
    (Runs.Throughout (step stored) Keyed (opened stored) ops ∧
        Runs.Along (step stored) (Replaces stored) (opened stored) ops) ↔
      Runs.Along (step stored) NotFirst (opened stored) ops := by
  rw [Runs.throughout_iff_along (P := Keyed) (C := fun s op => Keyed (s.step stored op))
    (fun _ _ _ => Iff.rfl) (keyed_opened stored), ← Runs.along_and]
  exact Runs.along_iff_along (I := Keyed) (fun _ op h => keyed_step stored h op)
    (fun _ _ _ hstep => hstep.1) (keyed_opened stored) ops

end

theorem first_group_doubled :
    ¬ ∀ (stored : StoredLists) (ops : List Op),
      Runs.Throughout (step stored) Keyed (opened stored) ops ∧
        Runs.Along (step stored) (Replaces stored) (opened stored) ops := by
  intro h
  have hlast := (h ⟨[.ofText "a".toList "avi".toList "/a".toList], [], by decide, by decide⟩
    [.addGroup "a".toList "mkv".toList "/a".toList true true]).1.last.groups.nodup
  revert hlast
  decide +kernel

end NamedLists
end CuteTorrent
