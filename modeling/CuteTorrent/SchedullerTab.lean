import Mathlib.Data.List.InsertIdx
import Mathlib.Data.List.Perm.Basic
import CuteTorrent.CheckTasks
import CuteTorrent.SettingsDialog

/-! The scheduler tab of `SettingsDialog`, row by row: the combo box keeps the order of
the user's edits, the queue the order in which it is written. -/
namespace CuteTorrent
namespace Scheduling
open Scheduller (sorted)

def Aligned (d : SettingsDialog) : Prop :=
  d.tasksComboBox.map QueuedTask.task = d.tasks.map QueuedTask.task

instance (d : SettingsDialog) : Decidable (Aligned d) := inferInstanceAs (Decidable (_ = _))

instance (l m : List QueuedTask) : Decidable (SameTasks l m) :=
  inferInstanceAs (Decidable (List.Perm _ _))

def ShowsTasks (s : Scheduling) : Prop := ∀ d ∈ s.dialog, Aligned d

/-- The tasks of the file are shown once more. -/
theorem showsTasks_setupSchedullerTab (s : Scheduling) {d : SettingsDialog} (h : Aligned d) :
    ShowsTasks (s.setupSchedullerTab d) ↔ d.tasks = [] := by
  have hrows : d.tasksComboBox = [] ↔ d.tasks = [] := by
    rw [← List.map_eq_nil_iff (f := QueuedTask.task), h, List.map_eq_nil_iff]
  rw [← hrows]
  simp [ShowsTasks, setupSchedullerTab, Aligned]

section
variable [QtAlgorithms]

/-- `DeleteTask` takes from the file the task that is shown at the index, and nothing
where none is. -/
def DeletesShown (s : Scheduling) (op : Op) : Prop :=
  s.scheduller.fault = none →
    match op, s.dialog with
    | .deleteTask index, some d =>
      SameTasks (d.tasksComboBox[index]?.toList ++ (s.step op).scheduller.saved) s.scheduller.saved
    | _, _ => True

theorem DeletesShown.sameTasks {s : Scheduling} {d : SettingsDialog} {index : Nat}
    (h : DeletesShown s (.deleteTask index)) (hd : s.dialog = some d)
    (hfault : s.scheduller.fault = none) :
    SameTasks (d.tasksComboBox[index]?.toList ++ (s.step (.deleteTask index)).scheduller.saved)
      s.scheduller.saved := by
  have hsame := h hfault
  rw [hd] at hsame
  exact hsame

def Unmoved (tasks : List QueuedTask) : Prop :=
  (sorted tasks).map QueuedTask.task = tasks.map QueuedTask.task

/-- What is saved is in the order of the sort already; a task is deleted while the file
holds the dialog's queue, and the language changes while that queue is empty. -/
def InOrder (s : Scheduling) (op : Op) : Prop :=
  s.scheduller.fault = none →
    match op, s.dialog with
    | .addTask task _, some d =>
      task.iType ≠ .unknown → task.name ≠ [] →
        Unmoved (d.tasks ++ [⟨s.scheduller.queued, task⟩])
    | .deleteTask index, some d =>
      Unmoved (d.tasks.eraseIdx index) ∧ SameTasks d.tasks s.scheduller.saved
    | .changeLanguage, some d => d.tasks = []
    | _, _ => True

theorem Unmoved.byStart {tasks : List QueuedTask} (h : Unmoved tasks) : Scheduller.ByStart tasks := by
  have hsorted := Scheduller.sorted_pairwise tasks
  have hmap : ((sorted tasks).map QueuedTask.task).Pairwise fun a b => a.startTime ≤ b.startTime :=
    List.pairwise_map.mpr hsorted
  rw [h, List.pairwise_map] at hmap
  exact hmap

theorem unmoved_iff_byStart {tasks : List QueuedTask} (h : (tasks.map QueuedTask.startTime).Nodup) :
    Unmoved tasks ↔ Scheduller.ByStart tasks := by
  refine ⟨Unmoved.byStart, fun hstart => ?_⟩
  have hperm := Scheduller.sorted_perm tasks
  have heq : sorted tasks = tasks := by
    refine List.Perm.eq_of_pairwise ?_ (Scheduller.sorted_pairwise tasks) hstart hperm
    intro a b ha hb hab hba
    exact List.inj_on_of_nodup_map h (hperm.mem_iff.mp ha) hb (le_antisymm hab hba)
  rw [Unmoved, heq]

theorem tasksChanged_dialog (elapsed connections : Nat) (s : Scheduling) :
    (tasksChanged elapsed connections s).dialog = s.dialog := by
  induction connections generalizing s with
  | zero => rfl
  | succ n ih => exact ih _

theorem showsTasks_addTask {s : Scheduling} {d : SettingsDialog} (hd : s.dialog = some d)
    (h : Aligned d) (task : SchedulerTask) (elapsed : Nat) :
    ShowsTasks (s.addTask d task elapsed) ↔
      (task.iType ≠ .unknown → task.name ≠ [] →
        Unmoved (d.tasks ++ [⟨s.scheduller.queued, task⟩])) := by
  have hkept : ShowsTasks s := by
    intro d' hd'
    rw [hd] at hd'
    cases hd'
    exact h
  rw [addTask]
  split_ifs with htype hname
  · exact ⟨fun _ hne => absurd htype hne, fun _ => hkept⟩
  · exact ⟨fun _ _ hne => absurd hname hne, fun _ => hkept⟩
  · have hshows : ShowsTasks (tasksChanged elapsed d.connections (saveDialogQueue
        { s with
          scheduller := { s.scheduller with queued := s.scheduller.queued + 1 }
          added := s.added ++ [task] }
        { d with
          tasks := d.tasks ++ [⟨s.scheduller.queued, task⟩]
          tasksComboBox := d.tasksComboBox ++ [⟨s.scheduller.queued, task⟩] })) ↔
        Unmoved (d.tasks ++ [⟨s.scheduller.queued, task⟩]) := by
      rw [ShowsTasks, tasksChanged_dialog, Unmoved, List.map_append, ← h, ← List.map_append, eq_comm]
      simp [saveDialogQueue, Aligned]
    exact ⟨fun hnew _ _ => hshows.mp hnew, fun hnew => hshows.mpr (hnew htype hname)⟩

theorem showsTasks_deleteTask (s : Scheduling) {d : SettingsDialog} (h : Aligned d) (index : Nat) :
    ShowsTasks (s.deleteTask d index) ↔ Unmoved (d.tasks.eraseIdx index) := by
  have hrows : (d.tasksComboBox.eraseIdx index).map QueuedTask.task =
      (d.tasks.eraseIdx index).map QueuedTask.task := by
    rw [← List.eraseIdx_map, ← List.eraseIdx_map, h]
  rw [Unmoved, ← hrows, eq_comm]
  simp [ShowsTasks, deleteTask, saveDialogQueue, Aligned]

/-- What `DeleteTask` saves and the task shown at the index are the dialog's queue. -/
theorem shown_and_saved_perm {d : SettingsDialog} (h : Aligned d) (index : Nat) :
    SameTasks (d.tasksComboBox[index]?.toList ++ sorted (d.tasks.eraseIdx index)) d.tasks := by
  have hshown : (d.tasksComboBox[index]?.toList).map QueuedTask.task =
      (d.tasks[index]?.toList).map QueuedTask.task := by
    have hget := congrArg (fun l => l[index]?) h
    simp only [List.getElem?_map] at hget
    rw [← Option.toList_map, hget, Option.toList_map]
  rw [SameTasks, List.map_append, hshown, ← List.map_append]
  refine List.Perm.map _ ?_
  refine ((Scheduller.sorted_perm _).append_left _).trans ?_
  cases hget : d.tasks[index]? with
  | none =>
    rw [List.eraseIdx_of_length_le (List.getElem?_eq_none_iff.mp hget)]
    exact List.Perm.refl _
  | some t =>
    obtain ⟨hlt, rfl⟩ := List.getElem?_eq_some_iff.mp hget
    exact List.getElem_cons_eraseIdx_perm hlt

theorem deletes_shown_iff {s : Scheduling} {d : SettingsDialog} (h : Aligned d) (index : Nat) :
    SameTasks (d.tasksComboBox[index]?.toList ++ (s.deleteTask d index).scheduller.saved)
        s.scheduller.saved ↔ SameTasks d.tasks s.scheduller.saved := by
  have hperm := shown_and_saved_perm h index
  exact ⟨fun hsame => hperm.symm.trans hsame, fun hsame => hperm.trans hsame⟩

theorem showsTasks_step {s : Scheduling} (h : ShowsTasks s) (op : Op) :
    (ShowsTasks (s.step op) ∧ DeletesShown s op) ↔ InOrder s op := by
  unfold DeletesShown InOrder step
  split_ifs with hfault
  · have hnot : s.scheduller.fault ≠ none := Option.isSome_iff_ne_none.mp hfault
    exact ⟨fun _ hnone => absurd hnone hnot, fun _ => ⟨h, fun hnone => absurd hnone hnot⟩⟩
  · have hnone : s.scheduller.fault = none := Option.not_isSome_iff_eq_none.mp hfault
    simp only [hnone, true_implies]
    cases op with
    | advance elapsed => exact ⟨fun _ => trivial, fun _ => ⟨h, trivial⟩⟩
    | timerEvent timerId elapsed => exact ⟨fun _ => trivial, fun _ => ⟨h, trivial⟩⟩
    | closeDialog =>
      exact ⟨fun _ => trivial, fun _ => ⟨fun d hd => absurd hd (Option.not_mem_none d), trivial⟩⟩
    | openDialog =>
      cases hd : s.dialog with
      | none =>
        have hopen : ShowsTasks (s.setupSchedullerTab ⟨[], [], 0⟩) :=
          (showsTasks_setupSchedullerTab s (d := ⟨[], [], 0⟩) rfl).mpr rfl
        exact ⟨fun _ => trivial, fun _ => ⟨hopen, trivial⟩⟩
      | some d => exact ⟨fun _ => trivial, fun _ => ⟨h, trivial⟩⟩
    | changeLanguage =>
      cases hd : s.dialog with
      | none => exact ⟨fun _ => trivial, fun _ => ⟨h, trivial⟩⟩
      | some d => exact (and_iff_left trivial).trans (showsTasks_setupSchedullerTab s (h d hd))
    | addTask task elapsed =>
      cases hd : s.dialog with
      | none => exact ⟨fun _ => trivial, fun _ => ⟨h, trivial⟩⟩
      | some d => exact (and_iff_left trivial).trans (showsTasks_addTask hd (h d hd) task elapsed)
    | deleteTask index =>
      cases hd : s.dialog with
      | none => exact ⟨fun _ => trivial, fun _ => ⟨h, trivial⟩⟩
      | some d =>
        exact and_congr (showsTasks_deleteTask s (h d hd) index) (deletes_shown_iff (h d hd) index)

/-- In every run the dialog shows its queue and deletes what it shows, exactly when all
that it saves is in the order of the sort, it deletes while the file holds its queue,
and it changes the language while that queue is empty. -/
theorem tab_shows_tasks_iff (queue : List SchedulerTask) (now timerID elapsed : Nat)
    (ops : List Op) :
    (Runs.Throughout step ShowsTasks (start queue now timerID elapsed) ops ∧
        Runs.Along step DeletesShown (start queue now timerID elapsed) ops) ↔
      Runs.Along step InOrder (start queue now timerID elapsed) ops := by
  have hstart : ShowsTasks (start queue now timerID elapsed) := fun d hd => absurd hd (by simp [start])
  rw [Runs.throughout_iff_along (P := ShowsTasks) (C := fun s op => ShowsTasks (s.step op))
    (fun _ _ _ => Iff.rfl) hstart, ← Runs.along_and]
  exact Runs.along_iff_along (I := ShowsTasks) (fun _ op h => showsTasks_step h op)
    (fun _ _ _ hstep => hstep.1) hstart ops

end

section sample
local instance sorting : QtAlgorithms := insertionSorting

def pause (name : String) (startTime : Int) : SchedulerTask := ⟨.pauseAll, name.toList, 0, startTime⟩

def twoTasks : List Op :=
  [.openDialog, .addTask (pause "late" 20) 0, .addTask (pause "early" 10) 0]

/-- The first row shows the one task, the other one is deleted. -/
theorem other_task_deleted :
    ¬ ∀ (_ : QtAlgorithms) (queue : List SchedulerTask) (now timerID elapsed : Nat) (ops : List Op),
      Runs.Throughout step ShowsTasks (start queue now timerID elapsed) ops ∧
        Runs.Along step DeletesShown (start queue now timerID elapsed) ops := by
  intro h
  have hdeleted := (h sorting [] 0 0 0 (twoTasks ++ [.deleteTask 0])).right
  rw [Runs.along_append, Runs.Along] at hdeleted
  have hother : ∀ d ∈ (Runs.final step (start [] 0 0 0) twoTasks).dialog, ¬ SameTasks
      (d.tasksComboBox[0]?.toList ++
        (Runs.final step (start [] 0 0 0) (twoTasks ++ [.deleteTask 0])).scheduller.saved)
      (Runs.final step (start [] 0 0 0) twoTasks).scheduller.saved := by
    decide +kernel
  have hopen : (Runs.final step (start [] 0 0 0) twoTasks).dialog.isSome = true := by decide +kernel
  have hfault : (Runs.final step (start [] 0 0 0) twoTasks).scheduller.fault = none := by
    decide +kernel
  obtain ⟨d, hd⟩ := Option.isSome_iff_exists.mp hopen
  exact hother d hd (hdeleted.right.left.sameTasks hd hfault)

end sample
end Scheduling
end CuteTorrent
