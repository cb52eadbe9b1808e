import CuteTorrent.Library.Runs
import CuteTorrent.StaticHelpers

/-! `MediaController`, the player of downloaded media: the play list of the folder of
the file played, and the way through it. -/
namespace CuteTorrent

/-- What Qt tells of the file system at the time of a call. `entryList` without filters
lists everything. -/
structure MediaFolders where
  fileExists : QString → Bool
  absoluteDir : QString → QString
  entryList : QString → List QString → List QString
  name_ne_nil : ∀ dir filters, [] ∉ entryList dir filters

inductive MediaSource where
  | file (path : QString)
  | url (address : QString)
deriving DecidableEq, Repr

structure MediaController where
  m_playList : List QString
  m_playListPosition : Int
  m_LastDir : QString
  currentSource : Option MediaSource
deriving DecidableEq, Repr

namespace MediaController

/-- The constructor leaves the position as it finds it. -/
def initial (position : Int) : MediaController := ⟨[], position, [], none⟩

def namefilters : List QString :=
  ["*.mkv", "*.avi", "*.mp4", "*.m2ts", "*.mpg", "*.mpeg", "*.mp3", "*.aac", "*.ac3", "*.aiff",
    "*.flac", "*.m4a", "*.mpc", "*.nsf", "*.oga", "*.ogg", "*.wav", "*.wma"].map String.toList

/-- `QStringList::indexOf` -/
def indexOf (l : List QString) (s : QString) : Int := if s ∈ l then (l.idxOf s : Int) else -1

/-- `m_playList[position]` -/
def entry (s : MediaController) (position : Int) : Option QString :=
  if position < 0 then none else s.m_playList[position.toNat]?

def moved (s : MediaController) (position : Int) : MediaController :=
  { s with m_playListPosition := position }

section
variable (p : Platform) (fs : MediaFolders)

/-- A name that is no file goes on from the folder of the one before. -/
def resolved (s : MediaController) (file : QString) : QString :=
  if !fs.fileExists file then s.m_LastDir ++ p.separator :: file else file

/-- The list of a folder that is entered with the file, and the position in it. -/
def entered (s : MediaController) (file dir : QString) : MediaController :=
  let m_playList := fs.entryList dir namefilters
  let m_playListPosition := indexOf m_playList (p.fileName file)
  if m_playListPosition < 0 then
    { s with
      m_LastDir := dir
      m_playList := fs.entryList dir []
      m_playListPosition := indexOf (fs.entryList dir []) file }
  else { s with m_LastDir := dir, m_playList, m_playListPosition }

def playFile (s : MediaController) (file : QString) : MediaController :=
  if file.isEmpty then s
  else
    let file := resolved p fs s file
    let dir := fs.absoluteDir file
    let s := if s.m_LastDir ≠ dir then entered p fs s file dir else s
    { s with currentSource := some (.file file) }

/-- The same once more, for the file that the dialog returns. -/
def openFile (s : MediaController) (file : QString) : MediaController := playFile p fs s file

/-- `none` is a dialog that was cancelled. -/
def openURL (s : MediaController) (url : Option QString) : MediaController :=
  match url with
  | some url => if url.isEmpty then s else { s with currentSource := some (.url url) }
  | none => s

def next (s : MediaController) : Int :=
  if s.m_playListPosition + 1 < s.m_playList.length then s.m_playListPosition + 1 else 0

def previous (s : MediaController) : Int :=
  if s.m_playListPosition - 1 ≥ 0 then s.m_playListPosition - 1 else s.m_playList.length - 1

def playAt (s : MediaController) (position : Int) : Except Fault MediaController :=
  match s.entry position with
  | some file => .ok (playFile p fs (s.moved position) file)
  | none => .error .indexOutOfRange

def forvard (s : MediaController) : Except Fault MediaController := playAt p fs s s.next

def reverse (s : MediaController) : Except Fault MediaController := playAt p fs s s.previous

end

/-- The calls of the player; that a file is about to finish is `forvard`. -/
inductive Call where
  | openFile (fs : MediaFolders) (file : QString)
  | playFile (fs : MediaFolders) (file : QString)
  | openURL (url : Option QString)
  | forvard (fs : MediaFolders)
  | reverse (fs : MediaFolders)

section
variable (p : Platform)

def step (s : MediaController) : Call → Except Fault MediaController
  | .openFile fs file => .ok (openFile p fs s file)
  | .playFile fs file => .ok (MediaController.playFile p fs s file)
  | .openURL url => .ok (s.openURL url)
  | .forvard fs => MediaController.forvard p fs s
  | .reverse fs => MediaController.reverse p fs s

/-- While a file plays that is in the list, the position is where its name stands, and from
there the way forth and back leads to the neighbours, around the ends. -/
def AtFile (s : MediaController) : Prop :=
  ∀ file, s.currentSource = some (.file file) → p.fileName file ∈ s.m_playList →
    ∃ i : Nat, s.m_playListPosition = i ∧ s.m_playList[i]? = some (p.fileName file) ∧
      s.next = ((i + 1) % s.m_playList.length : Nat) ∧
      s.previous = ((i + (s.m_playList.length - 1)) % s.m_playList.length : Nat)

/-- The file comes from another folder, and its name is among the media there, or nowhere in
the folder, or all of its path; or it comes from the folder of the file before, and the
position is already at its name, unless that is not in the list. -/
def Found (fs : MediaFolders) (s : MediaController) (file : QString) : Prop :=
  let file := resolved p fs s file
  let dir := fs.absoluteDir file
  if s.m_LastDir ≠ dir then
    p.fileName file ∈ fs.entryList dir namefilters ∨ p.fileName file ∉ fs.entryList dir [] ∨
      p.fileName file = file
  else p.fileName file ∈ s.m_playList → s.entry s.m_playListPosition = some (p.fileName file)

structure WF (s : MediaController) : Prop where
  position : s.m_playList = [] ∨ -1 ≤ s.m_playListPosition ∧ s.m_playListPosition < s.m_playList.length
  name_ne_nil : [] ∉ s.m_playList

end

theorem wf_initial (position : Int) : (initial position).WF := ⟨.inl rfl, List.not_mem_nil⟩

theorem indexOf_bounds (l : List QString) (s : QString) :
    l = [] ∨ -1 ≤ indexOf l s ∧ indexOf l s < l.length := by
  unfold indexOf
  split_ifs with hs
  · have hlt := List.idxOf_lt_length_of_mem hs
    exact .inr ⟨by omega, by omega⟩
  · cases l with
    | nil => exact .inl rfl
    | cons a l => exact .inr ⟨le_refl _, by rw [List.length_cons]; omega⟩

theorem indexOf_neg_iff {l : List QString} {s : QString} : indexOf l s < 0 ↔ s ∉ l := by
  unfold indexOf
  split_ifs with hs
  · exact iff_of_false (by omega) (not_not.mpr hs)
  · exact iff_of_true (by decide) hs

theorem entry_eq_some_iff {s : MediaController} {position : Int} {name : QString} :
    s.entry position = some name ↔ ∃ i : Nat, position = i ∧ s.m_playList[i]? = some name := by
  unfold entry
  split_ifs with hneg
  · refine iff_of_false (by simp) ?_
    rintro ⟨i, rfl, -⟩
    omega
  · constructor
    · intro h
      exact ⟨position.toNat, by omega, h⟩
    · rintro ⟨i, rfl, h⟩
      exact h

theorem entry_indexOf {s : MediaController} {name file : QString} :
    s.entry (indexOf s.m_playList file) = some name ↔ file ∈ s.m_playList ∧ name = file := by
  unfold indexOf
  split_ifs with hmem
  · rw [entry, if_neg (by omega), Int.toNat_natCast, List.getElem?_idxOf hmem]
    simp [hmem, eq_comm]
  · simp [entry, hmem]

theorem next_previous {s : MediaController} {i : Nat} {name : QString}
    (hi : s.m_playListPosition = i) (hname : s.m_playList[i]? = some name) :
    s.next = ((i + 1) % s.m_playList.length : Nat) ∧
      s.previous = ((i + (s.m_playList.length - 1)) % s.m_playList.length : Nat) := by
  obtain ⟨hlt, -⟩ := List.getElem?_eq_some_iff.mp hname
  constructor
  · unfold next
    rw [hi]
    split_ifs with hlast
    · rw [Nat.mod_eq_of_lt (by omega)]
      rfl
    · have hend : i + 1 = s.m_playList.length := by omega
      rw [hend, Nat.mod_self]
      rfl
  · unfold previous
    rw [hi]
    split_ifs with hfirst
    · have hwrap : i + (s.m_playList.length - 1) = (i - 1) + s.m_playList.length := by omega
      rw [hwrap, Nat.add_mod_right, Nat.mod_eq_of_lt (by omega)]
      omega
    · have hzero : i = 0 := by omega
      rw [hzero, Nat.zero_add, Nat.mod_eq_of_lt (by omega)]
      omega

theorem atFile_iff {p : Platform} {s : MediaController} : s.AtFile p ↔
    ∀ file, s.currentSource = some (.file file) → p.fileName file ∈ s.m_playList →
      s.entry s.m_playListPosition = some (p.fileName file) := by
  refine forall_congr' fun file => forall_congr' fun _ => forall_congr' fun _ => ?_
  rw [entry_eq_some_iff]
  constructor
  · rintro ⟨i, hi, hname, -⟩
    exact ⟨i, hi, hname⟩
  · rintro ⟨i, hi, hname⟩
    exact ⟨i, hi, hname, next_previous hi hname⟩

theorem moved_bounds {s : MediaController} (h : s.WF) (hne : s.m_playList ≠ []) :
    (0 ≤ s.next ∧ s.next < s.m_playList.length) ∧
      0 ≤ s.previous ∧ s.previous < s.m_playList.length := by
  obtain ⟨hlow, hhigh⟩ := h.position.resolve_left hne
  have hlen := List.length_pos_iff.mpr hne
  unfold next previous
  constructor
  · split_ifs <;> omega
  · split_ifs <;> omega

section
variable {p : Platform} {fs : MediaFolders}

theorem wf_entered {s : MediaController} (file dir : QString) : (entered p fs s file dir).WF := by
  unfold entered
  dsimp only
  split_ifs
  · exact ⟨indexOf_bounds _ _, fs.name_ne_nil _ _⟩
  · exact ⟨indexOf_bounds _ _, fs.name_ne_nil _ _⟩

theorem wf_playFile {s : MediaController} (h : s.WF) (file : QString) : (playFile p fs s file).WF := by
  unfold playFile
  dsimp only
  split_ifs
  · exact h
  · have hentered : (entered p fs s (resolved p fs s file)
        (fs.absoluteDir (resolved p fs s file))).WF := wf_entered _ _
    exact ⟨hentered.position, hentered.name_ne_nil⟩
  · exact ⟨h.position, h.name_ne_nil⟩

/-- In a folder that is entered the position is at the file, if its name is among the media
of the folder, or nowhere there, or all of its path. -/
theorem entry_entered_iff {s : MediaController} {file dir : QString} :
    (p.fileName file ∈ (entered p fs s file dir).m_playList →
      (entered p fs s file dir).entry (entered p fs s file dir).m_playListPosition =
        some (p.fileName file)) ↔
    p.fileName file ∈ fs.entryList dir namefilters ∨ p.fileName file ∉ fs.entryList dir [] ∨
      p.fileName file = file := by
  by_cases hmem : p.fileName file ∈ fs.entryList dir namefilters
  · have hpos : ¬ indexOf (fs.entryList dir namefilters) (p.fileName file) < 0 :=
      fun hneg => indexOf_neg_iff.mp hneg hmem
    rw [entered, if_neg hpos]
    exact iff_of_true (fun _ => entry_indexOf.mpr ⟨hmem, rfl⟩) (.inl hmem)
  · rw [entered, if_pos (indexOf_neg_iff.mpr hmem), entry_indexOf]
    constructor
    · intro h
      by_cases hall : p.fileName file ∈ fs.entryList dir []
      · exact .inr (.inr (h hall).2)
      · exact .inr (.inl hall)
    · rintro (hmem' | hall | hfile) hlisted
      · exact absurd hmem' hmem
      · exact absurd hlisted hall
      · exact ⟨hfile ▸ hlisted, hfile⟩

theorem atFile_playFile {s : MediaController} {file : QString} (hne : file ≠ []) :
    (playFile p fs s file).AtFile p ↔ Found p fs s file := by
  have hempty : ¬ file.isEmpty = true := by simpa using hne
  rw [atFile_iff, playFile, if_neg hempty]
  unfold Found
  dsimp only
  have honly : ∀ {P : QString → Prop} {f : QString},
      (∀ file, some (MediaSource.file f) = some (.file file) → P file) ↔ P f := by
    intro P f
    constructor
    · exact fun h => h f rfl
    · intro h file hfile
      cases hfile
      exact h
  rw [honly]
  split_ifs with hdir
  · exact entry_entered_iff
  · exact Iff.rfl

theorem playAt_eq {s : MediaController} {position : Int} {file : QString}
    (h : s.entry position = some file) :
    playAt p fs s position = .ok (playFile p fs (s.moved position) file) := by
  rw [playAt, h]

theorem playAt_of_none {s : MediaController} {position : Int} (h : s.entry position = none) :
    playAt p fs s position = .error .indexOutOfRange := by
  rw [playAt, h]

theorem wf_playAt {s s' : MediaController} {position : Int} (h : s.WF)
    (hbounds : s.m_playList ≠ [] → 0 ≤ position ∧ position < s.m_playList.length)
    (hplay : playAt p fs s position = .ok s') : s'.WF := by
  cases hfile : s.entry position with
  | none =>
    rw [playAt_of_none hfile] at hplay
    cases hplay
  | some file =>
    rw [playAt_eq hfile] at hplay
    cases hplay
    have hmoved : (s.moved position).WF := by
      refine ⟨?_, h.name_ne_nil⟩
      by_cases hne : s.m_playList = []
      · exact .inl hne
      · obtain ⟨hlow, hhigh⟩ := hbounds hne
        exact .inr ⟨Int.le_trans (by decide) hlow, hhigh⟩
    exact wf_playFile hmoved file

theorem atFile_playAt {s : MediaController} {position : Int} (h : s.WF)
    (hbounds : s.m_playList ≠ [] → 0 ≤ position ∧ position < s.m_playList.length) :
    (∃ s', playAt p fs s position = .ok s' ∧ s'.AtFile p) ↔
      s.m_playList ≠ [] ∧ ∀ file, s.entry position = some file →
        Found p fs (s.moved position) file := by
  cases hfile : s.entry position with
  | none =>
    rw [playAt_of_none hfile]
    refine iff_of_false ?_ ?_
    · rintro ⟨s', hok, -⟩
      cases hok
    · rintro ⟨hne, -⟩
      obtain ⟨hlow, hhigh⟩ := hbounds hne
      rw [entry, if_neg (by omega), List.getElem?_eq_none_iff] at hfile
      omega
  | some file =>
    obtain ⟨i, -, hi⟩ := entry_eq_some_iff.mp hfile
    have hmem : file ∈ s.m_playList := List.mem_of_getElem? hi
    have hne : file ≠ [] := fun hnil => h.name_ne_nil (hnil ▸ hmem)
    rw [playAt_eq hfile]
    constructor
    · rintro ⟨s', hok, hat⟩
      cases hok
      refine ⟨List.ne_nil_of_mem hmem, fun file' hfile' => ?_⟩
      cases hfile'
      exact (atFile_playFile hne).mp hat
    · rintro ⟨-, hfound⟩
      exact ⟨_, rfl, (atFile_playFile hne).mpr (hfound file rfl)⟩

end

/-- What has to hold of a call, in the state before it: the way forth and back starts from a
list that is not empty, and the file played is found. -/
def Keeps (p : Platform) (s : MediaController) : Call → Prop
  | .openFile fs file => file ≠ [] → Found p fs s file
  | .playFile fs file => file ≠ [] → Found p fs s file
  | .openURL _ => True
  | .forvard fs => s.m_playList ≠ [] ∧ ∀ file, s.entry s.next = some file →
      Found p fs (s.moved s.next) file
  | .reverse fs => s.m_playList ≠ [] ∧ ∀ file, s.entry s.previous = some file →
      Found p fs (s.moved s.previous) file

section
variable {p : Platform}

theorem wf_step {s s' : MediaController} {call : Call} (h : s.WF) (hstep : step p s call = .ok s') :
    s'.WF := by
  cases call with
  | openFile fs file =>
    cases hstep
    exact wf_playFile h file
  | playFile fs file =>
    cases hstep
    exact wf_playFile h file
  | openURL url =>
    cases hstep
    unfold openURL
    split
    · split_ifs
      · exact h
      · exact ⟨h.position, h.name_ne_nil⟩
    · exact h
  | forvard fs => exact wf_playAt h (fun hne => (moved_bounds h hne).1) hstep
  | reverse fs => exact wf_playAt h (fun hne => (moved_bounds h hne).2) hstep

theorem atFile_playFile_iff {fs : MediaFolders} {s : MediaController} (hat : s.AtFile p)
    (file : QString) : (∃ s', Except.ok (ε := Fault) (playFile p fs s file) = .ok s' ∧ s'.AtFile p) ↔
      (file ≠ [] → Found p fs s file) := by
  have hsome : (∃ s', Except.ok (ε := Fault) (playFile p fs s file) = .ok s' ∧ s'.AtFile p) ↔
      (playFile p fs s file).AtFile p := by
    constructor
    · rintro ⟨s', hs', h⟩
      cases hs'
      exact h
    · exact fun h => ⟨_, rfl, h⟩
  rw [hsome]
  by_cases hne : file = []
  · subst hne
    exact iff_of_true hat fun h => absurd rfl h
  · rw [atFile_playFile hne]
    exact ⟨fun h _ => h, fun h => h hne⟩

theorem atFile_openURL {s : MediaController} (hat : s.AtFile p) (url : Option QString) :
    (s.openURL url).AtFile p := by
  unfold openURL
  split
  · split_ifs
    · exact hat
    · intro file hfile
      cases hfile
  · exact hat

end

/-- The position is true as long as every call keeps it so. -/
theorem atFile_iff_keeps (p : Platform) (position : Int) (calls : List Call) :
    Runs.ThroughoutOk (step p) (AtFile p) (initial position) calls ↔
      Runs.AlongOk (step p) (Keeps p) (initial position) calls := by
  refine Runs.throughoutOk_iff_alongOk (I := WF) (fun s call s' => wf_step) ?_ (wf_initial _) ?_ _
  · intro s call h hat
    cases call with
    | openFile fs file => exact atFile_playFile_iff hat file
    | playFile fs file => exact atFile_playFile_iff hat file
    | openURL url => exact iff_of_true ⟨_, rfl, atFile_openURL hat url⟩ trivial
    | forvard fs => exact atFile_playAt h fun hne => (moved_bounds h hne).1
    | reverse fs => exact atFile_playAt h fun hne => (moved_bounds h hne).2
  · intro file hfile
    cases hfile

/-- The neighbour that `forvard` or `reverse` plays is found, if its bare name leads nowhere
else and the folder of the list is still where it was. -/
theorem found_neighbour {p : Platform} {fs : MediaFolders} {s : MediaController} {position : Int}
    {name : QString} (h : s.entry position = some name) (hname : p.fileName name = name)
    (hexists : fs.fileExists name = false)
    (hdir : fs.absoluteDir (s.m_LastDir ++ p.separator :: name) = s.m_LastDir) :
    Found p fs (s.moved position) name := by
  have hresolved : resolved p fs (s.moved position) name = s.m_LastDir ++ p.separator :: name := by
    rw [resolved, hexists]
    rfl
  have hsame : ¬ (s.moved position).m_LastDir ≠ s.m_LastDir := not_not.mpr rfl
  rw [Found, hresolved, hdir, if_neg hsame, Platform.fileName_below, hname]
  exact fun _ => h

def sampleFolders : MediaFolders where
  fileExists _ := true
  absoluteDir _ := "/v".toList
  entryList _ _ := ["a.avi".toList, "b.avi".toList]
  name_ne_nil _ _ := by decide

theorem forvard_after_url : ¬ ∀ (p : Platform) (position : Int) (calls : List Call),
    Runs.ThroughoutOk (step p) (AtFile p) (initial position) calls := by
  intro h
  obtain ⟨-, s, hs, -, s', hs', -⟩ := h .unix 0
    [.openURL (some "http://host/film.avi".toList), .forvard sampleFolders]
  cases hs
  cases hs'

/-- The second film of a folder leaves the position at the first. -/
example : (openFile .unix sampleFolders (openFile .unix sampleFolders (initial 0)
    "/v/a.avi".toList) "/v/b.avi".toList).m_playListPosition = 0 := by decide

end MediaController
end CuteTorrent
