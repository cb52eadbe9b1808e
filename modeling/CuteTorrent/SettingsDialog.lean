import CuteTorrent.Scheduller

/-! The scheduler tab of `SettingsDialog`: the user's edits of the queue, the
scheduler's own copy of it, and the file both write. -/
namespace CuteTorrent

/-- The dialog's copy of the queue, the tasks of its combo box, row by row, and how
often `tasksChanged` is connected to `UpdateTasks`. -/
structure SettingsDialog where
  tasks : List QueuedTask
  tasksComboBox : List QueuedTask
  connections : Nat

/-- The client, with a record of the tasks the user adds and deletes and of those
that are dropped as past, each with the time of that. -/
structure Scheduling where
  scheduller : Scheduller
  dialog : Option SettingsDialog
  added : List SchedulerTask
  deleted : List SchedulerTask
  expired : List (SchedulerTask × Nat)

namespace Scheduling
open Scheduller (sorted numbered)

inductive Op where
  | advance (elapsed : Nat)
  | timerEvent (timerId elapsed : Nat)
  | openDialog
  | closeDialog
  /-- `changeEvent` with a change of the language. -/
  | changeLanguage
  | addTask (task : SchedulerTask) (elapsed : Nat)
  | deleteTask (index : Nat)

section
variable [QtAlgorithms]

def updateTasks (s : Scheduling) (elapsed : Nat) : Scheduling :=
  let scheduller := s.scheduller.step (.updateTasks elapsed)
  let dropped := s.scheduller.saved.diff scheduller.saved
  { s with
    scheduller := scheduller
    expired := s.expired ++ dropped.map fun t => (t.task, s.scheduller.now) }

def tasksChanged (elapsed : Nat) : Nat → Scheduling → Scheduling
  | 0, s => s
  | connections + 1, s => tasksChanged elapsed connections (s.updateTasks elapsed)

/-- `SaveSchedullerQueue` on the dialog's copy, which it sorts. -/
def saveDialogQueue (s : Scheduling) (d : SettingsDialog) : Scheduling :=
  { s with
    scheduller := { s.scheduller with saved := sorted d.tasks }
    dialog := some { d with tasks := sorted d.tasks } }

def setupSchedullerTab (s : Scheduling) (d : SettingsDialog) : Scheduling :=
  { s with dialog := some ⟨s.scheduller.saved, d.tasksComboBox ++ s.scheduller.saved, d.connections + 1⟩ }

def addTask (s : Scheduling) (d : SettingsDialog) (task : SchedulerTask) (elapsed : Nat) : Scheduling :=
  if task.iType = .unknown then s
  else if task.name = [] then s
  else
    let newTask : QueuedTask := ⟨s.scheduller.queued, task⟩
    let s := { s with
      scheduller := { s.scheduller with queued := s.scheduller.queued + 1 }
      added := s.added ++ [task] }
    let s := s.saveDialogQueue { d with
      tasks := d.tasks ++ [newTask]
      tasksComboBox := d.tasksComboBox ++ [newTask] }
    tasksChanged elapsed d.connections s

/-- The user deletes the task the combo box shows; without one there is no row to
remove. -/
def deleteTask (s : Scheduling) (d : SettingsDialog) (index : Nat) : Scheduling :=
  let s := { s with deleted := s.deleted ++ (d.tasksComboBox[index]?.map QueuedTask.task).toList }
  s.saveDialogQueue { d with
    tasks := d.tasks.eraseIdx index
    tasksComboBox := d.tasksComboBox.eraseIdx index }

def step (s : Scheduling) (op : Op) : Scheduling :=
  if s.scheduller.fault.isSome then s
  else
    match op, s.dialog with
    | .advance elapsed, _ => { s with scheduller := s.scheduller.wait elapsed }
    | .timerEvent timerId elapsed, _ =>
      { s with scheduller := s.scheduller.step (.timerEvent timerId elapsed) }
    | .openDialog, none => s.setupSchedullerTab ⟨[], [], 0⟩
    | .closeDialog, _ => { s with dialog := none }
    | .changeLanguage, some d => s.setupSchedullerTab d
    | .addTask task elapsed, some d => s.addTask d task elapsed
    | .deleteTask index, some d => s.deleteTask d index
    | _, _ => s

def start (queue : List SchedulerTask) (now timerID elapsed : Nat) : Scheduling :=
  let scheduller := Scheduller.start queue now timerID elapsed
  let dropped := (numbered 0 queue).diff scheduller.saved
  ⟨scheduller, none, queue, [], dropped.map fun t => (t.task, now)⟩

end

def SameTasks (l m : List QueuedTask) : Prop := (l.map QueuedTask.task).Perm (m.map QueuedTask.task)

def Past (e : SchedulerTask × Nat) : Prop := 1000 * e.1.startTime < e.2

instance (e : SchedulerTask × Nat) : Decidable (Past e) := inferInstanceAs (Decidable (_ < _))

/-- Every task added is in the file, deleted, performed or expired, and only one
of these. -/
structure Conserved (s : Scheduling) : Prop where
  balance : (s.scheduller.saved.map QueuedTask.task ++ s.deleted ++
    s.scheduller.performed.map (fun e => e.1.task) ++ s.expired.map Prod.fst).Perm s.added
  past : ∀ e ∈ s.expired, Past e

/-- Whoever writes the file has in its copy the queue of the file; the dialog also
removes the task that is shown. -/
def UpToDate (s : Scheduling) (op : Op) : Prop :=
  s.scheduller.fault = none →
    match op, s.dialog with
    | .timerEvent timerId _, _ =>
      s.scheduller.due timerId = true → timerId = s.scheduller.cuurentTimerID →
        s.scheduller.tasks ≠ [] → SameTasks s.scheduller.tasks s.scheduller.saved
    | .addTask task _, some d =>
      task.iType ≠ .unknown → task.name ≠ [] → SameTasks d.tasks s.scheduller.saved
    | .deleteTask index, some d =>
      SameTasks (d.tasksComboBox[index]?.toList ++ d.tasks.eraseIdx index) s.scheduller.saved
    | _, _ => True

def tally (l : List QueuedTask) (a : SchedulerTask) : Nat := (l.map QueuedTask.task).count a

theorem tally_cons (t : QueuedTask) (l : List QueuedTask) (a : SchedulerTask) :
    tally (t :: l) a = tally l a + if t.task = a then 1 else 0 := by
  rw [tally, List.map_cons, List.count_cons]
  simp [tally]

theorem tally_append (l m : List QueuedTask) (a : SchedulerTask) :
    tally (l ++ m) a = tally l a + tally m a := by
  rw [tally, List.map_append, List.count_append]
  rfl

theorem tally_perm {l m : List QueuedTask} (h : l.Perm m) (a : SchedulerTask) : tally l a = tally m a :=
  (h.map _).count_eq a

theorem sameTasks_iff (l m : List QueuedTask) : SameTasks l m ↔ ∀ a, tally l a = tally m a :=
  List.perm_iff_count

def gone (s : Scheduling) (a : SchedulerTask) : Nat :=
  s.deleted.count a + (s.scheduller.performed.map fun e => e.1.task).count a +
    (s.expired.map Prod.fst).count a

theorem conserved_iff (s : Scheduling) : Conserved s ↔
    (∀ a, tally s.scheduller.saved a + s.gone a = s.added.count a) ∧
      ∀ e ∈ s.expired, Past e := by
  have hcount : ∀ a, (s.scheduller.saved.map QueuedTask.task ++ s.deleted ++
      s.scheduller.performed.map (fun e => e.1.task) ++ s.expired.map Prod.fst).count a =
      tally s.scheduller.saved a + s.gone a := by
    intro a
    simp only [List.count_append, tally, gone]
    omega
  constructor
  · intro h
    refine ⟨fun a => ?_, h.past⟩
    rw [← hcount]
    exact h.balance.count_eq a
  · rintro ⟨hbalance, hpast⟩
    refine ⟨List.perm_iff_count.mpr fun a => ?_, hpast⟩
    rw [hcount]
    exact hbalance a

theorem map_task_numbered (n : Nat) (ts : List SchedulerTask) :
    (numbered n ts).map QueuedTask.task = ts := by
  induction ts generalizing n with
  | nil => rfl
  | cons t ts ih => rw [numbered, List.map_cons, ih]

theorem diff_perm {l m d : List QueuedTask} (h : l.Perm (m ++ d)) : (l.diff m).Perm d := by
  have hdiff : (m ++ d).diff m = d := by
    clear h
    induction m with
    | nil => rfl
    | cons t m ih => rwa [List.cons_append, List.diff_cons, List.erase_cons_head]
  rw [← hdiff]
  exact h.diff_right m

section
variable [QtAlgorithms]

theorem conserved_updateTasks (s : Scheduling) (elapsed : Nat) :
    Conserved (s.updateTasks elapsed) ↔ Conserved s := by
  obtain ⟨hperformed, dropped, hperm, hdropped⟩ := s.scheduller.step_updateTasks elapsed
  have hdiff := diff_perm hperm
  have hpast : ∀ e ∈ (s.scheduller.saved.diff (s.updateTasks elapsed).scheduller.saved).map
      (fun t => (t.task, s.scheduller.now)), Past e := by
    intro e he
    obtain ⟨t, ht, rfl⟩ := List.mem_map.mp he
    exact hdropped t (hdiff.mem_iff.mp ht)
  rw [conserved_iff, conserved_iff]
  apply and_congr
  · apply forall_congr'
    intro a
    have hsaved := tally_perm hperm a
    have hgone : (s.updateTasks elapsed).gone a = s.gone a + tally dropped a := by
      have hcount : ((s.scheduller.saved.diff (s.scheduller.step (.updateTasks elapsed)).saved).map
          (fun t => (t.task, s.scheduller.now))).map Prod.fst =
          (s.scheduller.saved.diff (s.scheduller.step (.updateTasks elapsed)).saved).map
            QueuedTask.task := by
        rw [List.map_map]
        rfl
      have hdrop := tally_perm hdiff a
      rw [tally] at hdrop
      simp only [gone, updateTasks, hperformed, List.map_append, List.count_append, hcount, hdrop]
      omega
    rw [tally_append] at hsaved
    have hadded : (s.updateTasks elapsed).added = s.added := rfl
    rw [hgone, hadded, hsaved]
    change tally (s.scheduller.step (.updateTasks elapsed)).saved a + _ = _ ↔ _
    omega
  · constructor
    · intro h e he
      exact h e (List.mem_append_left _ he)
    · intro h e he
      cases List.mem_append.mp he with
      | inl he => exact h e he
      | inr he => exact hpast e he

theorem conserved_tasksChanged (elapsed connections : Nat) (s : Scheduling) :
    Conserved (tasksChanged elapsed connections s) ↔ Conserved s := by
  induction connections generalizing s with
  | zero => exact Iff.rfl
  | succ n ih => exact (ih _).trans (conserved_updateTasks s elapsed)

theorem conserved_saveDialogQueue (s : Scheduling) (d : SettingsDialog) :
    Conserved (s.saveDialogQueue d) ↔
      (∀ a, tally d.tasks a + s.gone a = s.added.count a) ∧
        ∀ e ∈ s.expired, Past e := by
  rw [conserved_iff]
  have hsaved : ∀ a, tally (s.saveDialogQueue d).scheduller.saved a = tally d.tasks a :=
    fun a => tally_perm (Scheduller.sorted_perm d.tasks) a
  simp only [hsaved]
  exact Iff.rfl

theorem conserved_addTask {s : Scheduling} (h : Conserved s) (d : SettingsDialog)
    (task : SchedulerTask) (elapsed : Nat) :
    Conserved (s.addTask d task elapsed) ↔
      (task.iType ≠ .unknown → task.name ≠ [] → SameTasks d.tasks s.scheduller.saved) := by
  obtain ⟨hbalance, hpast⟩ := (conserved_iff s).mp h
  rw [addTask]
  split_ifs with htype hname
  · exact ⟨fun _ hne => absurd htype hne, fun _ => h⟩
  · exact ⟨fun _ _ hne => absurd hname hne, fun _ => h⟩
  · rw [conserved_tasksChanged, conserved_saveDialogQueue, sameTasks_iff]
    simp only [htype, hname, ne_eq, not_false_eq_true, true_implies]
    constructor
    · rintro ⟨hnew, -⟩ a
      have hold := hbalance a
      have hone := hnew a
      rw [tally_append, List.count_append] at hone
      simp only [tally_cons, List.count_singleton, gone] at hone hold
      simp only [tally, List.map_nil, List.count_nil, beq_iff_eq] at hone hold ⊢
      omega
    · intro hsame
      refine ⟨fun a => ?_, hpast⟩
      have hold := hbalance a
      have hone := hsame a
      rw [tally_append, List.count_append]
      simp only [tally_cons, List.count_singleton, gone] at hold ⊢
      simp only [tally, List.map_nil, List.count_nil, beq_iff_eq] at hone hold ⊢
      omega

theorem conserved_deleteTask {s : Scheduling} (h : Conserved s) (d : SettingsDialog) (index : Nat) :
    Conserved (s.deleteTask d index) ↔
      SameTasks (d.tasksComboBox[index]?.toList ++ d.tasks.eraseIdx index) s.scheduller.saved := by
  obtain ⟨hbalance, hpast⟩ := (conserved_iff s).mp h
  rw [deleteTask, conserved_saveDialogQueue, sameTasks_iff]
  have hshown : ∀ a, ((d.tasksComboBox[index]?.map QueuedTask.task).toList).count a =
      tally (d.tasksComboBox[index]?.toList) a := by
    intro a
    cases d.tasksComboBox[index]? <;> rfl
  simp only [tally_append, gone, List.count_append, hshown] at hbalance ⊢
  constructor
  · rintro ⟨hrest, -⟩ a
    have hold := hbalance a
    have hnew := hrest a
    omega
  · intro hsame
    refine ⟨fun a => ?_, hpast⟩
    have hold := hbalance a
    have hone := hsame a
    omega

/-- The scheduler performs its own first task and writes the rest of its own copy. -/
theorem conserved_timerEvent {s : Scheduling} (h : Conserved s) (hfault : s.scheduller.fault = none)
    (timerId elapsed : Nat) :
    Conserved { s with scheduller := s.scheduller.step (.timerEvent timerId elapsed) } ↔
      (s.scheduller.due timerId = true → timerId = s.scheduller.cuurentTimerID →
        s.scheduller.tasks ≠ [] → SameTasks s.scheduller.tasks s.scheduller.saved) := by
  obtain ⟨hbalance, hpast⟩ := (conserved_iff s).mp h
  obtain ⟨hnone, hsaved, hperformed⟩ | ⟨hdue, hid, first, rest, htasks, hsaved, hperformed⟩ :=
    Scheduller.step_timerEvent hfault timerId elapsed
  · have hkept : Conserved { s with scheduller := s.scheduller.step (.timerEvent timerId elapsed) } := by
      rw [conserved_iff]
      simp only [gone, hsaved, hperformed]
      exact ⟨hbalance, hpast⟩
    exact ⟨fun _ hdue hid hne => absurd (hnone hdue hid) hne, fun _ => hkept⟩
  · rw [conserved_iff, sameTasks_iff]
    simp only [tally_perm hsaved, gone, hperformed, htasks, List.map_append, List.map_cons,
      List.map_nil, List.count_append, List.count_singleton, tally_cons, beq_iff_eq] at hbalance ⊢
    constructor
    · rintro ⟨hrest, -⟩ _ _ _ a
      have hold := hbalance a
      have hnew := hrest a
      omega
    · intro hsame
      refine ⟨fun a => ?_, hpast⟩
      have hold := hbalance a
      have hone := hsame hdue hid (by simp) a
      omega

/-- A step keeps the balance exactly when whoever writes the file has its queue. -/
theorem conserved_step {s : Scheduling} (h : Conserved s) (op : Op) :
    Conserved (s.step op) ↔ UpToDate s op := by
  unfold step
  split_ifs with hfault
  · have hnot : s.scheduller.fault ≠ none := Option.isSome_iff_ne_none.mp hfault
    exact ⟨fun _ hnone => absurd hnone hnot, fun _ => h⟩
  · have hnone : s.scheduller.fault = none := Option.not_isSome_iff_eq_none.mp hfault
    simp only [UpToDate, hnone, true_implies]
    cases op with
    | advance elapsed => exact ⟨fun _ => trivial, fun _ => ⟨h.balance, h.past⟩⟩
    | timerEvent timerId elapsed => exact conserved_timerEvent h hnone timerId elapsed
    | closeDialog => exact ⟨fun _ => trivial, fun _ => ⟨h.balance, h.past⟩⟩
    | openDialog =>
      cases s.dialog with
      | none => exact ⟨fun _ => trivial, fun _ => ⟨h.balance, h.past⟩⟩
      | some d => exact ⟨fun _ => trivial, fun _ => h⟩
    | changeLanguage =>
      cases s.dialog with
      | none => exact ⟨fun _ => trivial, fun _ => h⟩
      | some d => exact ⟨fun _ => trivial, fun _ => ⟨h.balance, h.past⟩⟩
    | addTask task elapsed =>
      cases s.dialog with
      | none => exact ⟨fun _ => trivial, fun _ => h⟩
      | some d => exact conserved_addTask h d task elapsed
    | deleteTask index =>
      cases s.dialog with
      | none => exact ⟨fun _ => trivial, fun _ => h⟩
      | some d => exact conserved_deleteTask h d index

theorem start_saved (queue : List SchedulerTask) (now timerID elapsed : Nat) :
    (Scheduller.start queue now timerID elapsed).performed = [] ∧
      ∃ dropped, (numbered 0 queue).Perm
          ((Scheduller.start queue now timerID elapsed).saved ++ dropped) ∧
        ∀ t ∈ dropped, 1000 * t.startTime < now := by
  let s := Scheduller.unconstructed queue now timerID
  rw [Scheduller.start]
  cases hrun : s.construct elapsed with
  | error f => exact ⟨rfl, [], by simp [Scheduller.settle, Scheduller.unconstructed], by simp⟩
  | ok s' =>
    obtain ⟨tasks, hp, hs'⟩ := Scheduller.construct_eq hrun
    obtain ⟨dropped, hperm, hdropped⟩ := Scheduller.prune_perm hp
    have hqueue : (numbered 0 queue).Perm (sorted tasks ++ dropped) :=
      hperm.trans ((Scheduller.sorted_perm tasks).symm.append_right dropped)
    cases hs' with
    | inl hnone =>
      obtain ⟨hs, rfl⟩ := hnone
      exact ⟨rfl, dropped, hs ▸ hqueue, hdropped⟩
    | inr hfirst =>
      obtain ⟨first, rest, hs, rfl⟩ := hfirst
      refine ⟨?_, dropped, ?_, hdropped⟩
      · simp only [Scheduller.settle, Scheduller.startTimer_performed]
        rfl
      · simp only [Scheduller.settle, Scheduller.startTimer_saved]
        exact hs ▸ hqueue

theorem conserved_start (queue : List SchedulerTask) (now timerID elapsed : Nat) :
    Conserved (start queue now timerID elapsed) := by
  obtain ⟨hperformed, dropped, hperm, hdropped⟩ := start_saved queue now timerID elapsed
  have hdiff := diff_perm hperm
  refine (conserved_iff _).mpr ⟨fun a => ?_, ?_⟩
  · have hsaved := tally_perm hperm a
    have hdrop := tally_perm hdiff a
    have hqueue : tally (numbered 0 queue) a = queue.count a := by
      rw [tally, map_task_numbered]
    have hgone : (start queue now timerID elapsed).gone a = tally dropped a := by
      rw [← hdrop]
      simp [gone, start, hperformed, tally, Function.comp_def]
    rw [tally_append] at hsaved
    rw [hgone]
    exact hsaved.symm.trans hqueue
  · intro e he
    obtain ⟨t, ht, rfl⟩ := List.mem_map.mp he
    exact hdropped t (hdiff.mem_iff.mp ht)

/-- The file follows the user's edits exactly as long as whoever writes it has the
queue of the file in its own copy. -/
theorem queue_follows_edits_iff (queue : List SchedulerTask) (now timerID elapsed : Nat)
    (ops : List Op) :
    Runs.Throughout step Conserved (start queue now timerID elapsed) ops ↔
      Runs.Along step UpToDate (start queue now timerID elapsed) ops :=
  Runs.throughout_iff_along (P := Conserved) (C := UpToDate) (fun _ op h => conserved_step h op)
    (conserved_start queue now timerID elapsed) ops

end

/-- The user deletes the only task, and the scheduler performs it in its time. -/
theorem deleted_task_performed :
    ¬ ∀ (_ : QtAlgorithms) (queue : List SchedulerTask) (now timerID elapsed : Nat) (ops : List Op),
      Runs.Throughout step Conserved (start queue now timerID elapsed) ops := by
  intro h
  have hlast := (h insertionSorting [Scheduller.pauseAt 10] 5000 0 0
    [.openDialog, .deleteTask 0, .advance 5000, .timerEvent 1 0]).last.balance
  revert hlast
  decide +kernel

end Scheduling
end CuteTorrent
