import CuteTorrent.Library.QList
import CuteTorrent.Qt

/-! `CreateTorrentDialog::BeginCreate`: the lists of trackers and web seeds of a new
torrent are what its loops leave of the lines of two text fields. -/
namespace CuteTorrent

namespace CreateTorrentDialog

/-- The loop that removes the empty lines by value. The iterator is an index that
`removeOne` does not touch, and nothing may be read outside the list. -/
def removeEmptyLines : Nat → QListData QString → Nat → Option (Except Fault (QListData QString))
  | 0, _, _ => none
  | fuel + 1, lines, i =>
    if i = lines.stop then some (.ok lines)
    else if lines.start ≤ i ∧ i < lines.stop then
      if lines.array i = [] then removeEmptyLines fuel (lines.removeOne (lines.array i)) (i + 1)
      else removeEmptyLines fuel lines (i + 1)
    else some (.error .readPastEnd)

def typed (lines : List QString) : List QString := lines.filter fun line => decide (line ≠ [])

def KeepsTyped (fuel : Nat) (lines : QListData QString) (i : Nat) : Prop :=
  ∃ left, removeEmptyLines fuel lines i = some (.ok left) ∧
    left.toList = lines.before i ++ typed (lines.after i)

/-- With `kept` lines in front, each empty line has at most as many kept lines in front
of it as there are lines behind it, or a line follows it that is not empty. -/
def Removable (kept : Nat) (lines : List QString) : Prop :=
  ∀ front behind, lines = front ++ [] :: behind →
    kept + (typed front).length ≤ behind.length ∨ ∃ next ∈ behind.head?, next ≠ []

theorem typed_cons_of_ne {line : QString} (h : line ≠ []) (lines : List QString) :
    typed (line :: lines) = line :: typed lines :=
  List.filter_cons_of_pos (decide_eq_true h)

theorem typed_cons_nil (lines : List QString) : typed ([] :: lines) = typed lines := rfl

theorem removable_nil (kept : Nat) : Removable kept [] := by
  intro front behind h
  exact absurd h.symm (by simp)

theorem removable_cons_of_ne {line : QString} (h : line ≠ []) (kept : Nat) (lines : List QString) :
    Removable kept (line :: lines) ↔ Removable (kept + 1) lines := by
  constructor
  · intro hall front behind hsplit
    have hnext := hall (line :: front) behind (by rw [hsplit, List.cons_append])
    rwa [typed_cons_of_ne h, List.length_cons, ← Nat.add_assoc, Nat.add_right_comm] at hnext
  · intro hall front behind hsplit
    cases front with
    | nil => exact absurd (List.cons.inj hsplit).1 h
    | cons first front =>
      obtain ⟨rfl, hrest⟩ := List.cons.inj hsplit
      rw [typed_cons_of_ne h, List.length_cons, ← Nat.add_assoc, Nat.add_right_comm]
      exact hall front behind hrest

theorem removable_cons_nil (kept : Nat) (lines : List QString) :
    Removable kept ([] :: lines) ↔
      (kept ≤ lines.length ∨ ∃ next ∈ lines.head?, next ≠ []) ∧ Removable kept lines := by
  constructor
  · intro hall
    refine ⟨hall [] lines rfl, fun front behind hsplit => ?_⟩
    exact hall ([] :: front) behind (by rw [hsplit, List.cons_append])
  · rintro ⟨hfirst, hrest⟩ front behind hsplit
    cases front with
    | nil =>
      obtain ⟨-, rfl⟩ := List.cons.inj hsplit
      exact hfirst
    | cons first front =>
      obtain ⟨rfl, hbehind⟩ := List.cons.inj hsplit
      exact hrest front behind hbehind

section loop
variable {fuel i : Nat} {l : QListData QString}

theorem removeEmptyLines_stop (fuel : Nat) (l : QListData QString) :
    removeEmptyLines (fuel + 1) l l.stop = some (.ok l) := by rw [removeEmptyLines, if_pos rfl]

theorem removeEmptyLines_empty (h : l.start ≤ i ∧ i < l.stop) (hline : l.array i = []) :
    removeEmptyLines (fuel + 1) l i = removeEmptyLines fuel (l.removeOne []) (i + 1) := by
  rw [removeEmptyLines, if_neg (by omega), if_pos h, if_pos hline, hline]

theorem removeEmptyLines_typed (h : l.start ≤ i ∧ i < l.stop) (hline : l.array i ≠ []) :
    removeEmptyLines (fuel + 1) l i = removeEmptyLines fuel l (i + 1) := by
  rw [removeEmptyLines, if_neg (by omega), if_pos h, if_neg hline]

theorem removeEmptyLines_over (h : l.stop < i) :
    removeEmptyLines (fuel + 1) l i = some (.error .readPastEnd) := by
  rw [removeEmptyLines, if_neg (by omega), if_neg (by omega)]

theorem removeEmptyLines_over_ne_ok (h : l.stop < i) (left : QListData QString) :
    removeEmptyLines fuel l i ≠ some (.ok left) := by
  cases fuel with
  | zero => exact (Option.some_ne_none _).symm
  | succ fuel => simp [removeEmptyLines_over h]

theorem mem_erase_append_singleton {line : QString} {lines : List QString} (h : line ∈ lines) :
    line ∈ (lines ++ [line]).erase line := by
  rw [List.erase_append_left _ h]
  exact List.mem_append_right _ (List.mem_singleton_self _)

/-- An empty line that the iterator has passed takes the place of every empty line
that is removed later. -/
theorem empty_stays (hin : l.start ≤ i ∧ i ≤ l.stop) (hempty : [] ∈ l.before i)
    {left : QListData QString} (hrun : removeEmptyLines fuel l i = some (.ok left)) :
    [] ∈ left.toList := by
  induction fuel generalizing l i with
  | zero => exact absurd hrun.symm (Option.some_ne_none _)
  | succ fuel ih =>
    by_cases hstop : i = l.stop
    · subst hstop
      rw [removeEmptyLines_stop] at hrun
      cases hrun
      exact hempty
    · have hlt : l.start ≤ i ∧ i < l.stop := by omega
      by_cases hline : l.array i = []
      · rw [removeEmptyLines_empty hlt hline] at hrun
        have hmem : [] ∈ (l.before (i + 1)).erase [] := by
          rw [QListData.before_succ hlt.1, hline]
          exact mem_erase_append_singleton hempty
        have hat := QListData.removeOne_at hlt
        rw [hline] at hat
        obtain ⟨-, hstart', hstop', hbefore, -⟩ | ⟨-, hstart', hstop', hbefore, -⟩ := hat
        · exact ih (by omega) (hbefore ▸ hmem) hrun
        · by_cases hlast : i + 1 = l.stop
          · exact absurd hrun (removeEmptyLines_over_ne_ok (by omega) left)
          · refine ih (by omega) ?_ hrun
            rw [QListData.before_succ (by omega), hbefore]
            exact List.mem_append_left _ hmem
      · rw [removeEmptyLines_typed hlt hline] at hrun
        refine ih (by omega) ?_ hrun
        rw [QListData.before_succ hlt.1]
        exact List.mem_append_left _ hempty

theorem not_mem_typed (lines : List QString) : [] ∉ typed lines := by
  intro h
  exact of_decide_eq_true (List.mem_filter.mp h).2 rfl

theorem removeOne_empty (h : l.start ≤ i ∧ i < l.stop) (hline : l.array i = [])
    (hkept : [] ∉ l.before i) :
    (2 * (i - l.start) < l.stop - l.start ∧
      (l.removeOne []).start = l.start + 1 ∧ (l.removeOne []).stop = l.stop ∧
      (l.removeOne []).before (i + 1) = l.before i ∧
      (l.removeOne []).after (i + 1) = l.after (i + 1)) ∨
    (¬ 2 * (i - l.start) < l.stop - l.start ∧
      (l.removeOne []).start = l.start ∧ (l.removeOne []).stop = l.stop - 1 ∧
      (l.removeOne []).before i = l.before i ∧ (l.removeOne []).after i = l.after (i + 1)) := by
  have hat := QListData.removeOne_at h
  have hidx : (l.before i ++ [[]]).idxOf [] = i - l.start := by
    rw [List.idxOf_append, if_neg hkept, List.idxOf_cons_self, Nat.zero_add, l.length_before]
  have herase : (l.before i ++ [[]]).erase [] = l.before i := by
    rw [List.erase_append_right _ hkept, List.erase_cons_head, List.append_nil]
  rwa [QListData.before_succ h.1, hline, hidx, herase] at hat

theorem keepsTyped_back (h : l.start ≤ i ∧ i < l.stop) (hline : l.array i = [])
    (hkept : [] ∉ l.before i) (hback : ¬ 2 * (i - l.start) < l.stop - l.start)
    (ih : ∀ l' : QListData QString, l'.start ≤ i + 1 ∧ i + 1 ≤ l'.stop →
      l'.stop = l.stop - 1 → [] ∉ l'.before (i + 1) →
      (KeepsTyped fuel l' (i + 1) ↔
        Removable (l'.before (i + 1)).length (l'.after (i + 1)))) :
    KeepsTyped (fuel + 1) l i ↔ Removable (l.before i).length ([] :: l.after (i + 1)) := by
  obtain ⟨hfront, -⟩ | ⟨-, hstart', hstop', hbefore, hafter⟩ := removeOne_empty h hline hkept
  · exact absurd hfront hback
  have hlen : ¬ (l.before i).length ≤ (l.after (i + 1)).length := by
    rw [l.length_before, l.length_after]
    omega
  rw [KeepsTyped, removeEmptyLines_empty h hline, l.after_of_lt h.2, hline, typed_cons_nil,
    removable_cons_nil, or_iff_right hlen]
  by_cases hlast : i + 1 = l.stop
  · refine iff_of_false ?_ ?_
    · rintro ⟨left, hrun, -⟩
      exact removeEmptyLines_over_ne_ok (by omega) left hrun
    · rintro ⟨⟨next, hnext, -⟩, -⟩
      rw [hlast, l.after_stop] at hnext
      exact absurd hnext (by simp)
  · have hlt' : (l.removeOne []).start ≤ i ∧ i < (l.removeOne []).stop := by omega
    rw [← hafter, QListData.after_of_lt hlt'.2, List.head?_cons]
    by_cases hnext : (l.removeOne []).array i = []
    · refine iff_of_false ?_ ?_
      · rintro ⟨left, hrun, hleft⟩
        have hmem : [] ∈ left.toList := by
          refine empty_stays (by omega) ?_ hrun
          rw [QListData.before_succ hlt'.1, hnext]
          exact List.mem_append_right _ (List.mem_singleton_self _)
        rw [hleft] at hmem
        exact (List.mem_append.mp hmem).elim hkept (not_mem_typed _)
      · rintro ⟨⟨next, heq, hne⟩, -⟩
        exact hne (Option.some.inj heq ▸ hnext)
    · have hbefore' : (l.removeOne []).before (i + 1) = l.before i ++ [(l.removeOne []).array i] := by
        rw [QListData.before_succ hlt'.1, hbefore]
      have hkept' : [] ∉ (l.removeOne []).before (i + 1) := by
        rw [hbefore']
        simp [hkept, Ne.symm hnext]
      have hih := ih (l.removeOne []) (by omega) hstop' hkept'
      rw [hbefore', List.length_append, KeepsTyped, hbefore', List.append_assoc] at hih
      rw [typed_cons_of_ne hnext, removable_cons_of_ne hnext]
      exact hih.trans (and_iff_right ⟨_, rfl, hnext⟩).symm

/-- With only kept lines in front of the iterator, the loop does what it should exactly
when the rest is removable. -/
theorem keepsTyped_iff (hin : l.start ≤ i ∧ i ≤ l.stop) (hkept : [] ∉ l.before i)
    (hfuel : l.stop - i < fuel) :
    KeepsTyped fuel l i ↔ Removable (l.before i).length (l.after i) := by
  induction fuel generalizing l i with
  | zero => exact absurd hfuel (Nat.not_lt_zero _)
  | succ fuel ih =>
    by_cases hstop : i = l.stop
    · subst hstop
      rw [l.after_stop]
      refine iff_of_true ⟨l, removeEmptyLines_stop fuel l, ?_⟩ (removable_nil _)
      rw [l.before_stop, l.after_stop]
      exact (List.append_nil _).symm
    · have hlt : l.start ≤ i ∧ i < l.stop := by omega
      by_cases hline : l.array i = []
      · rw [l.after_of_lt hlt.2, hline]
        by_cases hside : 2 * (i - l.start) < l.stop - l.start
        · obtain ⟨-, hstart', hstop', hbefore, hafter⟩ | ⟨hback, -⟩ :=
            removeOne_empty hlt hline hkept
          · have hih := ih (l := l.removeOne []) (i := i + 1) (by omega) (hbefore ▸ hkept) (by omega)
            have hlen : (l.before i).length ≤ (l.after (i + 1)).length := by
              rw [l.length_before, l.length_after]
              omega
            rw [KeepsTyped, hbefore, hafter] at hih
            rw [removable_cons_nil, and_iff_right (.inl hlen), KeepsTyped,
              removeEmptyLines_empty hlt hline, l.after_of_lt hlt.2, hline, typed_cons_nil]
            exact hih
          · exact absurd hside hback
        · apply keepsTyped_back hlt hline hkept hside
          intro l' hin' hstop' hkept'
          exact ih hin' hkept' (by omega)
      · have hkeeps : KeepsTyped (fuel + 1) l i ↔ KeepsTyped fuel l (i + 1) := by
          rw [KeepsTyped, KeepsTyped, removeEmptyLines_typed hlt hline, QListData.before_succ hlt.1,
            l.after_of_lt hlt.2, typed_cons_of_ne hline, List.append_assoc, List.singleton_append]
        rw [hkeeps, l.after_of_lt hlt.2, removable_cons_of_ne hline]
        have hnext : [] ∉ l.before (i + 1) := by
          rw [QListData.before_succ hlt.1]
          simp [hkept, Ne.symm hline]
        rw [ih (by omega) hnext (by omega), QListData.before_succ hlt.1, List.length_append]
        rfl

end loop

/-! ### What `BeginCreate` creates -/

def removeEmpty (lines : List QString) : Option (Except Fault (List QString)) :=
  (removeEmptyLines (lines.length + 1) (QListData.ofList lines) (QListData.ofList lines).start).map
    fun left => left.map QListData.toList

theorem keepsTyped_start (lines : QListData QString) (fuel : Nat)
    (hfuel : lines.toList.length < fuel) :
    KeepsTyped fuel lines lines.start ↔ Removable 0 lines.toList := by
  have hlen : lines.stop - lines.start < fuel := by simpa [QListData.toList] using hfuel
  have hkept : [] ∉ lines.before lines.start := by simp [lines.before_start]
  rw [keepsTyped_iff ⟨le_rfl, lines.start_le⟩ hkept hlen, lines.before_start, lines.after_start,
    List.length_nil]

theorem removeEmpty_iff (lines : List QString) :
    removeEmpty lines = some (.ok (typed lines)) ↔ Removable 0 lines := by
  have hloop := keepsTyped_start (QListData.ofList lines) (lines.length + 1)
    (by rw [QListData.toList_ofList]; exact Nat.lt_succ_self _)
  rw [QListData.toList_ofList] at hloop
  rw [← hloop, removeEmpty, KeepsTyped, QListData.before_start, QListData.after_start,
    QListData.toList_ofList, List.nil_append]
  constructor
  · intro h
    obtain ⟨result, hrun, hresult⟩ := Option.map_eq_some_iff.mp h
    cases result with
    | error f => exact absurd hresult (by simp [Except.map])
    | ok left => exact ⟨left, hrun, Except.ok.inj hresult⟩
  · rintro ⟨left, hrun, hleft⟩
    rw [hrun, ← hleft]
    rfl

/-- What is asked of the path: `listFolder` is the size of all files below it. -/
structure QFileInfo where
  isDir : Bool
  isFile : Bool
  size : Nat
  listFolder : Nat

structure Creation where
  path : QString
  save_path : QString
  filter : QString
  trackers : List QString
  webseeds : List QString
  discribtion : QString
  isPrivate : Bool
  pieceSize : Nat
deriving DecidableEq

inductive Outcome where
  | emptyDir
  | noFileOrFolderName
  | noTrackers
  | notSaved
  | create (creation : Creation)
deriving DecidableEq

end CreateTorrentDialog

structure CreateTorrentDialog where
  pathEdit : QString
  filterEdit : QString
  trackerEdit : QString
  webSeedEdit : QString
  discribtionEdit : QString
  privateCheckBox : Bool
  piceSizeComboBox : Int

namespace CreateTorrentDialog

def autoPiceSize (pieceSize : Nat) : Nat :=
  if pieceSize < 32 * 1024 then 32
  else if pieceSize < 64 * 1024 then 64
  else if pieceSize < 128 * 1024 then 128
  else if pieceSize < 256 * 1024 then 256
  else if pieceSize < 512 * 1024 then 512
  else if pieceSize < 1024 * 1024 then 1024
  else if pieceSize < 2 * 1024 * 1024 then 2048
  else if pieceSize < 4 * 1024 * 1024 then 4096
  else if pieceSize < 8 * 1024 * 1024 then 8 * 1024
  else 16 * 1024

def getPiceSize (d : CreateTorrentDialog) (info : QFileInfo) : Nat :=
  match d.piceSizeComboBox with
  | 0 =>
    autoPiceSize
      (if info.isDir then info.listFolder / 1000 else if info.isFile then info.size / 1000 else 0)
  | 1 => 16 * 1024
  | 2 => 8 * 1024
  | 3 => 4 * 1024
  | 4 => 2 * 1024
  | 5 => 1024
  | 6 => 512
  | 7 => 256
  | 8 => 128
  | 9 => 64
  | _ => 4 * 1024

def trackerLines (d : CreateTorrentDialog) : List QString := d.trackerEdit.splitOn '\n'

def webSeedLines (d : CreateTorrentDialog) : List QString := d.webSeedEdit.splitOn '\n'

def creation (d : CreateTorrentDialog) (info : QFileInfo) (save_path : QString)
    (trackers webseeds : List QString) : Creation :=
  ⟨d.pathEdit, save_path, d.filterEdit, trackers, webseeds, d.discribtionEdit, d.privateCheckBox,
    d.getPiceSize info * 1024⟩

/-- `answer` is whether the user goes on without trackers, `save_path` what they choose. -/
def BeginCreate (d : CreateTorrentDialog) (info : QFileInfo) (answer : Bool)
    (save_path : QString) : Option (Except Fault Outcome) :=
  if (info.isDir ∧ info.listFolder = 0) ∨ (¬ info.isDir ∧ info.size = 0) then some (.ok .emptyDir)
  else if d.pathEdit.length = 0 then some (.ok .noFileOrFolderName)
  else
    match removeEmpty d.trackerLines with
    | none => none
    | some (.error f) => some (.error f)
    | some (.ok trackers) =>
      if trackers.length = 0 ∧ answer = false then some (.ok .noTrackers)
      else
        match removeEmpty d.webSeedLines with
        | none => none
        | some (.error f) => some (.error f)
        | some (.ok webseeds) =>
          if save_path ≠ [] then some (.ok (.create (d.creation info save_path trackers webseeds)))
          else some (.ok .notSaved)

/-- A creation that the user does not give up gets the lines that are not empty,
exactly when both fields are removable. -/
theorem beginCreate_eq_create_iff (d : CreateTorrentDialog) (info : QFileInfo) (answer : Bool)
    (save_path : QString) (hsize : (if info.isDir then info.listFolder else info.size) ≠ 0)
    (hpath : d.pathEdit ≠ []) (hanswer : typed d.trackerLines = [] → answer = true)
    (hsave : save_path ≠ []) :
    d.BeginCreate info answer save_path =
        some (.ok (.create
          (d.creation info save_path (typed d.trackerLines) (typed d.webSeedLines)))) ↔
      Removable 0 d.trackerLines ∧ Removable 0 d.webSeedLines := by
  have hfound : ¬ ((info.isDir ∧ info.listFolder = 0) ∨ (¬ info.isDir ∧ info.size = 0)) := by
    cases hdir : info.isDir <;> simpa [hdir] using hsize
  have hlength : d.pathEdit.length ≠ 0 := by simpa using hpath
  rw [← removeEmpty_iff, ← removeEmpty_iff, BeginCreate, if_neg hfound, if_neg hlength]
  cases removeEmpty d.trackerLines with
  | none => simp
  | some result =>
    cases result with
    | error f => simp
    | ok trackers =>
      by_cases hstop : trackers.length = 0 ∧ answer = false
      · have hne : trackers ≠ typed d.trackerLines := by
          rintro rfl
          exact absurd (hanswer (List.length_eq_zero_iff.mp hstop.1)) (by simp [hstop.2])
        simp [hstop, hne]
      · simp only [if_neg hstop]
        cases removeEmpty d.webSeedLines with
        | none => simp
        | some result =>
          cases result with
          | error f => simp
          | ok webseeds => simp [hsave, creation]

theorem removeEmptyLines_leaves_iff (text : QString) (lines : QListData QString)
    (hlines : lines.toList = text.splitOn '\n') (fuel : Nat)
    (hfuel : (text.splitOn '\n').length < fuel) :
    (∃ left, removeEmptyLines fuel lines lines.start = some (.ok left) ∧
        left.toList = typed (text.splitOn '\n')) ↔
      Removable 0 (text.splitOn '\n') := by
  rw [← hlines] at hfuel ⊢
  have hloop := keepsTyped_start lines fuel hfuel
  rwa [KeepsTyped, lines.before_start, lines.after_start, List.nil_append] at hloop

theorem removeEmptyLines_two_leaves :
    ∃ left, removeEmptyLines 4 (QListData.ofList [[], ['a'], ['b']]) 0 = some (.ok left) ∧
      left.toList = typed ("\na\nb".toList.splitOn '\n') := by
  have hsplit : "\na\nb".toList.splitOn '\n' = [[], ['a'], ['b']] := by decide +kernel
  have hremovable : Removable 0 ("\na\nb".toList.splitOn '\n') := by
    rw [hsplit, removable_cons_nil, removable_cons_of_ne (by simp), removable_cons_of_ne (by simp)]
    exact ⟨.inl (Nat.zero_le _), removable_nil _⟩
  exact (removeEmptyLines_leaves_iff "\na\nb".toList (QListData.ofList [[], ['a'], ['b']])
    (by decide +kernel) 4 (by decide +kernel)).mpr hremovable

/-- The line break behind the only tracker takes the iterator past the end. -/
theorem trailing_break_read_past_end :
    removeEmptyLines 3 (QListData.ofList ("a\n".toList.splitOn '\n')) 0 =
        some (.error .readPastEnd) ∧
      ¬ ∃ left, removeEmptyLines 3 (QListData.ofList ("a\n".toList.splitOn '\n')) 0 =
        some (.ok left) ∧ left.toList = typed ("a\n".toList.splitOn '\n') := by
  have hsplit : "a\n".toList.splitOn '\n' = [['a'], []] := by decide +kernel
  have hrun : removeEmptyLines 3 (QListData.ofList ("a\n".toList.splitOn '\n')) 0 =
      some (.error .readPastEnd) := by
    rw [hsplit]
    rfl
  refine ⟨hrun, ?_⟩
  rintro ⟨left, hleft, -⟩
  rw [hrun] at hleft
  exact absurd hleft (by simp)

end CreateTorrentDialog
end CuteTorrent
