import Mathlib.Data.List.Dedup
import CuteTorrent.ApplicationSettings
import CuteTorrent.PlaceMarkers

/-! The groups of file filters once they are saved and read again. -/
namespace CuteTorrent

namespace GroupForFileFiltering

structure Made (g : GroupForFileFiltering) : Prop where
  nodup : g.extensions.Nodup
  plain : ∀ e ∈ g.extensions, e ≠ [] ∧ '|' ∉ e

/-- The two groups cannot be told apart; the extensions are a set. -/
def Same (g g' : GroupForFileFiltering) : Prop :=
  g.name = g'.name ∧ g.path = g'.path ∧ ∀ e, e ∈ g.extensions ↔ e ∈ g'.extensions

/-- The path has no place marker up to two, and `split` cuts neither it nor an
extension. -/
structure Storable (g : GroupForFileFiltering) : Prop where
  marks : ∀ n ∈ argMarks 0 g.path, 2 < n
  path : Unsplit (g.path ++ [';'])
  extensions : ∀ e ∈ g.extensions, Unsplit e

theorem mem_ofText {name extensions path e : QString} :
    e ∈ (ofText name extensions path).extensions ↔ e ∈ extensions.splitOn '|' ∧ e ≠ [] := by
  simp [ofText]

theorem made_ofText (name extensions path : QString) : (ofText name extensions path).Made :=
  ⟨List.nodup_dedup _, fun _ he =>
    ⟨(mem_ofText.mp he).2, not_mem_of_mem_splitOn (mem_ofText.mp he).1⟩⟩

theorem splitOn_flatMap_bar {l : List QString} (h : ∀ e ∈ l, '|' ∉ e) :
    (l.flatMap fun e => e ++ ['|']).splitOn '|' = l ++ [[]] := by
  induction l with
  | nil => rfl
  | cons e l ih =>
    rw [List.flatMap_cons, List.append_assoc, List.singleton_append,
      List.splitOn_append_cons_self_of_not_mem (h e List.mem_cons_self),
      ih fun d hd => h d (List.mem_cons_of_mem e hd), List.cons_append]

section
variable [QtHash] {g : GroupForFileFiltering}

theorem mem_setOrder (s : List QString) (e : QString) : e ∈ QtHash.setOrder s ↔ e ∈ s :=
  (QtHash.setOrder_perm s).mem_iff

theorem mem_ofText_extensionsText (h : g.Made) (name path e : QString) :
    e ∈ (ofText name g.extensionsText path).extensions ↔ e ∈ g.extensions := by
  have hplain : ∀ e ∈ QtHash.setOrder g.extensions, '|' ∉ e :=
    fun e he => (h.plain e ((mem_setOrder _ e).mp he)).2
  rw [mem_ofText, extensionsText, splitOn_flatMap_bar hplain, List.mem_append, mem_setOrder]
  constructor
  · rintro ⟨he | he, hne⟩
    · exact he
    · exact absurd (List.mem_singleton.mp he) hne
  · exact fun he => ⟨.inl he, (h.plain e he).1⟩

theorem unsplit_extensionsText (h : ∀ e ∈ g.extensions, Unsplit e) : Unsplit g.extensionsText := by
  have hall : ∀ l : List QString, (∀ e ∈ l, Unsplit e) → Unsplit (l.flatMap fun e => e ++ ['|']) := by
    intro l hl
    induction l with
    | nil => decide
    | cons e l ih =>
      have he := hl e List.mem_cons_self
      have hrest := ih fun d hd => hl d (List.mem_cons_of_mem e hd)
      rw [unsplit_iff_isChain] at he hrest ⊢
      rw [List.flatMap_cons]
      refine List.isChain_append.mpr ⟨List.isChain_append.mpr ⟨he, List.isChain_singleton _, ?_⟩,
        hrest, ?_⟩
      · rintro x - y hy ⟨-, rfl⟩
        exact absurd hy (by decide)
      · rintro x hx y - ⟨rfl, -⟩
        rw [List.getLast?_append] at hx
        cases hx
  exact hall _ fun e he => h e ((mem_setOrder _ e).mp he)

theorem extensionsText_nil_or : g.extensionsText = [] ∨ g.extensionsText.getLast? = some '|' := by
  rw [extensionsText]
  rcases List.eq_nil_or_concat (QtHash.setOrder g.extensions) with hnil | ⟨l, e, he⟩
  · exact .inl (by rw [hnil, List.flatMap_nil])
  · refine .inr ?_
    rw [he, List.concat_eq_append, List.flatMap_append, List.flatMap_singleton, ← List.append_assoc,
      List.getLast?_concat]

end
end GroupForFileFiltering

namespace QApplicationSettings
open GroupForFileFiltering

def groupText [QtHash] (g : GroupForFileFiltering) : QString :=
  arg (arg "savepath;;%1;;extensions;;%2".toList g.path) g.extensionsText

theorem arg_path (path : QString) : arg "savepath;;%1;;extensions;;%2".toList path =
    "savepath".toList ++ ';' :: ';' :: (path ++ ';' :: ";extensions;;%2".toList) := by
  rfl

theorem argMarks_path (path : QString) : argMarks 0 (arg "savepath;;%1;;extensions;;%2".toList path) =
    argMarks 0 path ++ [2] := by
  rw [arg_path, argMarks_append, argMarks_plain rfl, argMarks_append]
  rfl

theorem replaceMarks_path (mark : Nat) (a path : QString) :
    replaceMarks mark a 0 (arg "savepath;;%1;;extensions;;%2".toList path) = "savepath".toList ++
      ';' :: ';' :: (replaceMarks mark a 0 path ++ ';' :: replaceMarks mark a 0 ";extensions;;%2".toList) := by
  rw [arg_path, replaceMarks_append, replaceMarks_plain rfl, replaceMarks_append]
  rfl

section
variable [QtHash] {g : GroupForFileFiltering}

/-- With a marker up to two in the path, the extensions go into the path. -/
theorem groupText_of_mark {n : Nat} (hn : n ∈ argMarks 0 g.path) (hle : n ≤ 2) :
    ∃ mark ∈ argMarks 0 g.path, ∃ rest, groupText g = "savepath".toList ++
      ';' :: ';' :: (replaceMarks mark g.extensionsText 0 g.path ++ ';' :: ';' :: rest) := by
  cases hmin : (argMarks 0 g.path ++ [2]).min? with
  | none => simp at hmin
  | some mark =>
    obtain ⟨hmem, hleast⟩ := List.min?_eq_some_iff.mp hmin
    have hmark : mark ∈ argMarks 0 g.path := by
      rcases List.mem_append.mp hmem with h | h
      · exact h
      · have hmn := hleast n (List.mem_append_left _ hn)
        obtain rfl := List.mem_singleton.mp h
        exact (le_antisymm hle hmn) ▸ hn
    refine ⟨mark, hmark, replaceMarks mark g.extensionsText 0 "extensions;;%2".toList, ?_⟩
    rw [groupText, arg.eq_def, argMarks_path, hmin]
    exact replaceMarks_path mark g.extensionsText g.path

theorem groupText_of_no_mark (h : ∀ n ∈ argMarks 0 g.path, 2 < n) : groupText g = "savepath".toList ++
    ';' :: ';' :: (g.path ++ ';' :: ';' :: ("extensions".toList ++ ';' :: ';' :: g.extensionsText)) := by
  have hmin : (argMarks 0 g.path ++ [2]).min? = some 2 := by
    refine List.min?_eq_some_iff.mpr ⟨by simp, fun n hn => ?_⟩
    rcases List.mem_append.mp hn with h' | h'
    · exact (h n h').le
    · exact (List.mem_singleton.mp h').ge
  have htwo : (2 : Nat) ∉ argMarks 0 g.path := fun hmem => absurd (h 2 hmem) (by decide)
  rw [groupText, arg.eq_def, argMarks_path, hmin]
  refine (replaceMarks_path 2 g.extensionsText g.path).trans ?_
  rw [replaceMarks_of_not_mem 2 g.extensionsText htwo]
  simp [replaceMarks, argMark, decimalValue]

end

/-! ### Reading one key -/

def BreaksOff (val : QVariant) : Prop :=
  (splitText ";;".toList 0 [] val.toString).head? = some "savepath".toList ∧
    (splitText ";;".toList 0 [] val.toString).length < 4

instance (val : QVariant) : Decidable (BreaksOff val) := inferInstanceAs (Decidable (_ ∧ _))

theorem filterGroup_ok_iff (name : QString) (val : QVariant) :
    (∃ group, filterGroup name val = .ok group) ↔ ¬ BreaksOff val := by
  rw [filterGroup, BreaksOff]
  generalize splitText ";;".toList 0 [] val.toString = parts
  by_cases hskip : parts.head? ≠ some "savepath".toList ∧ parts.length < 4
  · rw [if_pos hskip]
    exact iff_of_true ⟨none, rfl⟩ fun h => hskip.1 h.1
  · rw [if_neg hskip]
    match parts with
    | [] => simp at hskip
    | [a] => exact iff_of_false (by simp) fun h => h ⟨by_contra fun hne => hskip ⟨hne, by simp⟩, by simp⟩
    | [a, b] => exact iff_of_false (by simp) fun h => h ⟨by_contra fun hne => hskip ⟨hne, by simp⟩, by simp⟩
    | [a, b, c] =>
      exact iff_of_false (by simp) fun h => h ⟨by_contra fun hne => hskip ⟨hne, by simp⟩, by simp⟩
    | a :: b :: c :: d :: parts => exact iff_of_true ⟨_, rfl⟩ (by simp)

theorem filterGroup_some_iff {name : QString} {val : QVariant} {g : GroupForFileFiltering} :
    filterGroup name val = .ok (some g) ↔ ∃ mark path label extensions rest,
      splitText ";;".toList 0 [] val.toString = mark :: path :: label :: extensions :: rest ∧
      g = .ofText name extensions path := by
  rw [filterGroup]
  generalize splitText ";;".toList 0 [] val.toString = parts
  by_cases hshort : parts.length < 4
  · refine iff_of_false (fun h => ?_) ?_
    · split_ifs at h
      · cases h
      · split at h
        · simp only [List.length_cons] at hshort
          omega
        · cases h
    · rintro ⟨_, _, _, _, _, rfl, -⟩
      simp only [List.length_cons] at hshort
      omega
  · rw [if_neg fun h => hshort h.2]
    obtain ⟨a, b, c, d, parts, rfl⟩ : ∃ a b c d rest, parts = a :: b :: c :: d :: rest := by
      rcases parts with _ | ⟨a, _ | ⟨b, _ | ⟨c, _ | ⟨d, parts⟩⟩⟩⟩
      · exact absurd (by simp) hshort
      · exact absurd (by simp) hshort
      · exact absurd (by simp) hshort
      · exact absurd (by simp) hshort
      · exact ⟨a, b, c, d, parts, rfl⟩
    constructor
    · intro h
      exact ⟨a, b, c, d, parts, rfl, (Option.some.inj (Except.ok.inj h)).symm⟩
    · rintro ⟨_, _, _, _, _, h, rfl⟩
      cases h
      rfl

/-! ### The whole section -/

theorem filterGroups_ok_iff (entries : List (QString × QVariant)) :
    (∃ res, filterGroups entries = .ok res) ↔ ∀ e ∈ entries, ¬ BreaksOff e.2 := by
  induction entries with
  | nil => exact iff_of_true ⟨[], rfl⟩ (by simp)
  | cons e entries ih =>
    obtain ⟨name, val⟩ := e
    rw [List.forall_mem_cons, ← ih, ← filterGroup_ok_iff name val, filterGroups]
    constructor
    · rintro ⟨res, h⟩
      obtain ⟨group, hgroup, h⟩ := bind_eq_ok h
      obtain ⟨rest, hrest, -⟩ := bind_eq_ok h
      exact ⟨⟨group, hgroup⟩, rest, hrest⟩
    · rintro ⟨⟨group, hgroup⟩, rest, hrest⟩
      exact ⟨group.toList ++ rest, by rw [hgroup, hrest]; rfl⟩

theorem mem_of_filterGroups {entries : List (QString × QVariant)} {res : List GroupForFileFiltering}
    (h : filterGroups entries = .ok res) (g : GroupForFileFiltering) :
    g ∈ res ↔ ∃ e ∈ entries, filterGroup e.1 e.2 = .ok (some g) := by
  induction entries generalizing res with
  | nil =>
    obtain rfl := Except.ok.inj h
    simp
  | cons e entries ih =>
    obtain ⟨name, val⟩ := e
    rw [filterGroups] at h
    obtain ⟨group, hgroup, h⟩ := bind_eq_ok h
    obtain ⟨rest, hrest, h⟩ := bind_eq_ok h
    obtain rfl := Except.ok.inj h
    rw [List.mem_append, ih hrest, List.exists_mem_cons_iff, hgroup]
    cases group <;> simp [eq_comm]

/-! ### A group that is saved -/

theorem parts_of_same {g g' : GroupForFileFiltering} {w : QString}
    (hread : filterGroup g.name (.string ("savepath".toList ++
      ';' :: ';' :: w)) = .ok (some g')) (hsame : g.Same g') :
    (∃ rest, w = g.path ++ ';' :: ';' :: rest ∧ Unsplit (g.path ++ [';'])) ∧
      ∀ e ∈ g.extensions, Unsplit e := by
  obtain ⟨mark, path, label, extensions, rest, hparts, rfl⟩ := filterGroup_some_iff.mp hread
  obtain ⟨-, hpath, hset⟩ := hsame
  change splitText [';', ';'] 0 [] ("savepath".toList ++ ';' :: ';' :: w) = _ at hparts
  have hmem : extensions ∈ splitText [';', ';'] 0 [] ("savepath".toList ++ ';' :: ';' :: w) := by
    rw [hparts]
    simp
  constructor
  · rw [splitText_append (by decide)] at hparts
    have hw := (List.cons.inj hparts).2
    rcases unsplit_or_split w with hun | ⟨v, rest', rfl, hv⟩
    · rw [splitText_of_unsplit hun] at hw
      cases hw
    · rw [splitText_append hv] at hw
      obtain rfl : v = g.path := (List.cons.inj hw).1.trans hpath.symm
      exact ⟨rest', rfl, hv⟩
  · intro e he
    have he' := (mem_ofText.mp ((hset e).mp he)).1
    exact (unsplit_of_mem_splitText hmem).part (infix_of_mem_splitOn he')

section
variable [QtHash] {g : GroupForFileFiltering}

theorem no_mark_of_same {g' : GroupForFileFiltering}
    (hread : filterGroup g.name (.string (groupText g)) = .ok (some g')) (hsame : g.Same g') :
    ∀ n ∈ argMarks 0 g.path, 2 < n := by
  intro n hn
  by_contra hle
  obtain ⟨mark, hmark, after, htext⟩ := groupText_of_mark hn (not_lt.mp hle)
  rw [htext] at hread
  obtain ⟨⟨rest, hw, hpath⟩, hexts⟩ := parts_of_same hread hsame
  have hcount : 0 < (argMarks 0 g.path).count mark := List.count_pos_iff.mpr hmark
  rcases extensionsText_nil_or (g := g) with hnil | hlast
  · -- the path has become shorter, and the cut comes too early
    rw [hnil] at hw
    have hshort := length_replaceMarks_nil mark g.path
    generalize replaceMarks mark [] 0 g.path = q at hw hshort
    have hpre : q ++ [';', ';'] <+: g.path ++ ';' :: ';' :: rest := ⟨after, by rw [← hw]; simp⟩
    have hpart : q ++ [';', ';'] <+: g.path :=
      List.prefix_of_prefix_length_le hpre (List.prefix_append _ _) (by
        rw [List.length_append]
        simp only [List.length_cons, List.length_nil]
        omega)
    exact hpath ((List.suffix_append q _).isInfix.trans
      (hpart.trans (List.prefix_append g.path [';'])).isInfix)
  · -- the extensions begin as a marker does, and their bars are too many
    have hne : g.extensionsText ≠ [] := by
      intro hnil
      rw [hnil] at hlast
      cases hlast
    have hhead := head_of_agree hmark hne hw.symm
    have hq : Unsplit ([] ++ (replaceMarks mark g.extensionsText 0 g.path ++ [';'])) :=
      unsplit_replaceMarks (unsplit_extensionsText hexts) hhead hlast hpath
    have hsplit := congrArg (splitText [';', ';'] 0 []) hw
    rw [splitText_append hpath, List.nil_append] at hsplit
    rw [List.nil_append] at hq
    rw [splitText_append hq, List.nil_append] at hsplit
    have hbars := count_replaceMarks (c := '|') mark g.extensionsText (by decide) g.path
    rw [(List.cons.inj hsplit).1] at hbars
    have hpos : 0 < g.extensionsText.count '|' :=
      List.count_pos_iff.mpr (List.mem_of_getLast? hlast)
    have hmul := Nat.mul_pos hcount hpos
    omega

theorem same_group_iff (hg : g.Made) :
    (∃ g', filterGroup g.name (.string (groupText g)) = .ok (some g') ∧ g.Same g') ↔ g.Storable := by
  constructor
  · rintro ⟨g', hread, hsame⟩
    have hmarks := no_mark_of_same hread hsame
    rw [groupText_of_no_mark hmarks] at hread
    obtain ⟨⟨_, -, hpath⟩, hexts⟩ := parts_of_same hread hsame
    exact ⟨hmarks, hpath, hexts⟩
  · rintro ⟨hmarks, hpath, hexts⟩
    refine ⟨.ofText g.name g.extensionsText g.path, filterGroup_some_iff.mpr
      ⟨"savepath".toList, g.path, "extensions".toList, g.extensionsText, [], ?_, rfl⟩, rfl, rfl,
      fun e => (mem_ofText_extensionsText hg g.name g.path e).symm⟩
    rw [groupText_of_no_mark hmarks]
    change splitText [';', ';'] 0 [] ("savepath".toList ++ ';' :: ';' :: (g.path ++ ';' :: ';' ::
      ("extensions".toList ++ ';' :: ';' :: g.extensionsText))) = _
    rw [splitText_append (by decide), splitText_append hpath, splitText_append (by decide),
      splitText_of_unsplit (unsplit_extensionsText hexts)]
    rfl

structure Savable (gs : List GroupForFileFiltering) : Prop where
  made : ∀ g ∈ gs, g.Made
  distinct : (gs.map GroupForFileFiltering.name).Nodup
  keys : ∀ g ∈ gs, g.name ≠ [] ∧ '/' ∉ g.name ∧ '\\' ∉ g.name

def SameGroups (gs res : List GroupForFileFiltering) : Prop :=
  (∀ g ∈ gs, ∃ g' ∈ res, g.Same g') ∧ ∀ g' ∈ res, ∃ g ∈ gs, g.Same g'

def filterSection (s : Settings) : List (QString × QVariant) := (Assoc.find fileFiltering s).getD []

theorem filterSection_saved (s : Settings) {gs : List GroupForFileFiltering} (h : Savable gs) :
    (filterSection (saveFilterGropups s gs)).Perm (gs.map fun g => (g.name, .string (groupText g))) := by
  have hfold : filterSection (saveFilterGropups s gs) =
      (gs.map fun g => (g.name, QVariant.string (groupText g))).foldl
        (fun m p => Assoc.insert p.1 p.2 m) [] := by
    rw [filterSection, saveFilterGropups, Assoc.find_insert_self, Option.getD_some, List.foldl_map]
    rfl
  have hkeys : (Assoc.keys ((gs.map fun g => (g.name, QVariant.string (groupText g))) ++ [])).Nodup := by
    rw [List.append_nil, Assoc.keys, List.map_map]
    exact h.distinct
  rw [hfold]
  simpa using Assoc.foldl_insert_perm hkeys

theorem groups_survive_iff (s : Settings) {gs : List GroupForFileFiltering} (h : Savable gs) :
    (∃ res, getFileFilterGroups (saveFilterGropups s gs) = .ok res ∧ SameGroups gs res) ↔
      ∀ g ∈ gs, g.Storable := by
  have hmem : ∀ e, e ∈ filterSection (saveFilterGropups s gs) ↔
      ∃ g ∈ gs, (g.name, QVariant.string (groupText g)) = e := by
    intro e
    rw [(filterSection_saved s h).mem_iff, List.mem_map]
  constructor
  · rintro ⟨res, hres, hsame, -⟩ g hg
    obtain ⟨g', hg', hgg'⟩ := hsame g hg
    obtain ⟨e, he, hread⟩ := (mem_of_filterGroups hres g').mp hg'
    obtain ⟨k, hk, rfl⟩ := (hmem e).mp he
    obtain ⟨_, _, _, _, _, -, hof⟩ := filterGroup_some_iff.mp hread
    have hname : k.name = g.name := by
      rw [hgg'.1, hof]
      rfl
    obtain rfl : k = g := List.inj_on_of_nodup_map h.distinct hk hg hname
    exact (same_group_iff (h.made k hk)).mp ⟨g', hread, hgg'⟩
  · intro hall
    have hread : ∀ g ∈ gs, ∃ g', filterGroup g.name (.string (groupText g)) = .ok (some g') ∧
        g.Same g' := fun g hg => (same_group_iff (h.made g hg)).mpr (hall g hg)
    obtain ⟨res, hres⟩ := (filterGroups_ok_iff (filterSection (saveFilterGropups s gs))).mpr (by
      intro e he
      obtain ⟨g, hg, rfl⟩ := (hmem e).mp he
      obtain ⟨g', hok, -⟩ := hread g hg
      exact (filterGroup_ok_iff g.name _).mp ⟨_, hok⟩)
    refine ⟨res, hres, fun g hg => ?_, fun g' hg' => ?_⟩
    · obtain ⟨g', hok, hsame⟩ := hread g hg
      exact ⟨g', (mem_of_filterGroups hres g').mpr ⟨_, (hmem _).mpr ⟨g, hg, rfl⟩, hok⟩, hsame⟩
    · obtain ⟨e, he, hok⟩ := (mem_of_filterGroups hres g').mp hg'
      obtain ⟨g, hg, rfl⟩ := (hmem e).mp he
      obtain ⟨g'', hok', hsame⟩ := hread g hg
      obtain rfl := Option.some.inj (Except.ok.inj (hok.symm.trans hok'))
      exact ⟨g, hg, hsame⟩

/-- Saved groups survive where they are storable, and a section is read without a
fault where no value breaks off. -/
theorem filter_groups_iff (s t : Settings) {gs : List GroupForFileFiltering} (h : Savable gs) :
    ((∃ res, getFileFilterGroups (saveFilterGropups s gs) = .ok res ∧ SameGroups gs res) ↔
        ∀ g ∈ gs, g.Storable) ∧
      ((∃ res, getFileFilterGroups t = .ok res) ↔ ∀ e ∈ filterSection t, ¬ BreaksOff e.2) :=
  ⟨groups_survive_iff s h, filterGroups_ok_iff (filterSection t)⟩

end

def oneGroup (path : String) : List GroupForFileFiltering :=
  [.ofText "films".toList "avi|mkv".toList path.toList]

theorem savable_oneGroup (path : String) : Savable (oneGroup path) where
  made g hg := by
    obtain rfl := List.mem_singleton.mp hg
    exact made_ofText _ _ _
  distinct := List.nodup_singleton _
  keys g hg := by
    obtain rfl := List.mem_singleton.mp hg
    show "films".toList ≠ [] ∧ '/' ∉ "films".toList ∧ '\\' ∉ "films".toList
    decide

def twoGroups : List GroupForFileFiltering :=
  [.ofText "films".toList "avi|mkv".toList "/films".toList,
    .ofText "музыка".toList "mp3".toList "/музыка 1".toList]

theorem savable_twoGroups : Savable twoGroups where
  made := List.forall_mem_cons.mpr ⟨made_ofText _ _ _, List.forall_mem_singleton.mpr (made_ofText _ _ _)⟩
  distinct := by decide
  keys := by decide

theorem storable_twoGroups : ∀ g ∈ twoGroups, g.Storable := by
  refine List.forall_mem_cons.mpr ⟨⟨by decide, by decide, by decide⟩, List.forall_mem_singleton.mpr ?_⟩
  exact ⟨by decide, by decide, by decide⟩

def damagedSettings : Settings := [(fileFiltering, [("films".toList, .string "savepath".toList)])]

theorem films_survive : let _ := plainHash
    (∃ res, getFileFilterGroups (saveFilterGropups damagedSettings twoGroups) = .ok res ∧
        SameGroups twoGroups res) ∧
      ¬ ∃ res, getFileFilterGroups damagedSettings = .ok res := by
  let _ := plainHash
  obtain ⟨hsaved, hread⟩ := filter_groups_iff damagedSettings damagedSettings savable_twoGroups
  refine ⟨hsaved.mpr storable_twoGroups, fun h => ?_⟩
  have hbreaks := hread.mp h ("films".toList, .string "savepath".toList) (List.mem_singleton_self _)
  exact hbreaks (by decide)

/-- A percent sign and a one in the path are lost, and a value that is only
"savepath" is read beyond its end. -/
theorem marked_path_lost : let _ := plainHash
    Savable (oneGroup "/films %1") ∧
      (¬ ∃ res, getFileFilterGroups (saveFilterGropups [] (oneGroup "/films %1")) = .ok res ∧
        SameGroups (oneGroup "/films %1") res) ∧
      getFileFilterGroups damagedSettings = .error .indexOutOfRange := by
  let _ := plainHash
  refine ⟨savable_oneGroup _, fun h => ?_, rfl⟩
  have hstorable := (groups_survive_iff [] (savable_oneGroup "/films %1")).mp h
  exact absurd ((hstorable _ List.mem_cons_self).marks 1 (by decide)) (by decide)

end QApplicationSettings
end CuteTorrent
