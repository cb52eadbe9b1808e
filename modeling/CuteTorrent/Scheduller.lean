import CuteTorrent.Library.Runs
import CuteTorrent.Qt

/-! `Scheduller`: the queue of tasks, its file and the timer for the first task.
Times of tasks are in seconds, the clock is in milliseconds. -/
namespace CuteTorrent

inductive TaskType where
  | pauseAll
  | startAll
  | limitUpload
  | limitDownload
  | unknown
deriving DecidableEq, Repr

structure SchedulerTask where
  iType : TaskType
  name : QString
  limit : Int
  startTime : Int
deriving DecidableEq

/-- A task of a queue; the number tells it from every other task ever queued. -/
structure QueuedTask where
  number : Nat
  task : SchedulerTask
deriving DecidableEq

def QueuedTask.startTime (t : QueuedTask) : Int := t.task.startTime

/-- `QDateTime::toTime_t`, with `uint(-1)` for what it cannot count. -/
def toTimeT (seconds : Int) : Int :=
  if 0 ≤ seconds ∧ seconds < 2 ^ 32 - 1 then seconds else 2 ^ 32 - 1

structure Scheduller where
  now : Nat
  tasks : List QueuedTask
  /-- schedulertasks.xml -/
  saved : List QueuedTask
  /-- The timers that run, each with the time before which it does not fire. -/
  timers : List (Nat × Nat)
  cuurentTimerID : Nat
  lastTimerID : Nat
  queued : Nat
  performed : List (QueuedTask × Nat)
  fault : Option Fault

namespace Scheduller

/-- The loop of `checkTasks`. `QList::erase` moves the shorter side of the list:
the iterator ends up before the next task, or on it, which `++i` then skips. -/
def prune (now : Nat) : List QueuedTask → List QueuedTask → Except Fault (List QueuedTask)
  | kept, [] => .ok kept
  | kept, t :: rest =>
    if 1000 * t.startTime < now then
      if 2 * kept.length < kept.length + 1 + rest.length then prune now kept rest
      else
        match rest with
        | [] => .error .readPastEnd
        | skipped :: rest => prune now (kept ++ [skipped]) rest
    else prune now (kept ++ [t]) rest

/-- The argument of `startTimer`: a difference of `uint`s in seconds, times 1000,
taken as an `int`. -/
def interval (t : QueuedTask) (now : Nat) : Int :=
  (1000 * (toTimeT t.startTime - toTimeT (now / 1000))).bmod (2 ^ 32)

/-- A negative interval starts no timer and gives the id 0. -/
def startTimer (s : Scheduller) (msec : Int) : Scheduller :=
  if msec < 0 then { s with cuurentTimerID := 0 }
  else
    { s with
      timers := s.timers ++ [(s.lastTimerID + 1, s.now + msec.toNat)]
      cuurentTimerID := s.lastTimerID + 1
      lastTimerID := s.lastTimerID + 1 }

def killTimer (s : Scheduller) (id : Nat) : Scheduller :=
  { s with timers := s.timers.filter fun t => decide (t.1 ≠ id) }

section frame
variable (s : Scheduller) (msec : Int)

@[simp] theorem startTimer_tasks : (s.startTimer msec).tasks = s.tasks := by
  rw [startTimer]
  split_ifs <;> rfl

@[simp] theorem startTimer_saved : (s.startTimer msec).saved = s.saved := by
  rw [startTimer]
  split_ifs <;> rfl

@[simp] theorem startTimer_queued : (s.startTimer msec).queued = s.queued := by
  rw [startTimer]
  split_ifs <;> rfl

@[simp] theorem startTimer_performed : (s.startTimer msec).performed = s.performed := by
  rw [startTimer]
  split_ifs <;> rfl

end frame

def numbered (n : Nat) : List SchedulerTask → List QueuedTask
  | [] => []
  | t :: ts => ⟨n, t⟩ :: numbered (n + 1) ts

section
variable [QtAlgorithms]

def sorted (tasks : List QueuedTask) : List QueuedTask :=
  QtAlgorithms.qSort (fun a b => decide (a.startTime < b.startTime)) tasks

/-- The list is sorted in place and written. -/
def saveSchedullerQueue (s : Scheduller) : Scheduller :=
  { s with tasks := sorted s.tasks, saved := sorted s.tasks }

def checkTasks (s : Scheduller) : Except Fault Scheduller := do
  let tasks ← prune s.now [] s.tasks
  return saveSchedullerQueue { s with tasks := tasks }

def wait (s : Scheduller) (elapsed : Nat) : Scheduller := { s with now := s.now + elapsed }

def construct (s : Scheduller) (elapsed : Nat) : Except Fault Scheduller := do
  let s ← checkTasks { s with tasks := s.saved }
  let s := s.wait elapsed
  match s.tasks with
  | [] => return s
  | first :: _ => return s.startTimer (interval first s.now)

def updateTasks (s : Scheduller) (elapsed : Nat) : Except Fault Scheduller := do
  let s ← checkTasks { s with tasks := s.saved }
  let s := (s.killTimer s.cuurentTimerID).wait elapsed
  match s.tasks with
  | [] => .error .indexOutOfRange
  | first :: _ => return s.startTimer (interval first s.now)

/-- `first` is the copy of the task just performed, also where the interval to
the next one is computed. -/
def timerEvent (s : Scheduller) (timerId elapsed : Nat) : Except Fault Scheduller :=
  if timerId = s.cuurentTimerID then
    match s.tasks with
    | [] => .error .indexOutOfRange
    | first :: rest =>
      let s := { s with performed := s.performed ++ [(first, s.now)], tasks := rest }
      let s := (s.wait elapsed).killTimer s.cuurentTimerID
      let s := if rest = [] then s else s.startTimer (interval first s.now)
      .ok s.saveSchedullerQueue
  else .ok s

inductive Op where
  | advance (elapsed : Nat)
  /-- The file is written by others: some of its tasks stay, others are added. -/
  | saveQueue (keep : QueuedTask → Bool) (added : List SchedulerTask)
  | updateTasks (elapsed : Nat)
  | timerEvent (timerId elapsed : Nat)

def settle (s : Scheduller) : Except Fault Scheduller → Scheduller
  | .ok s' => s'
  | .error f => { s with fault := some f }

/-- A timer fires when it is due, never before. -/
def due (s : Scheduller) (timerId : Nat) : Bool :=
  s.timers.any fun t => decide (t.1 = timerId ∧ t.2 ≤ s.now)

def step (s : Scheduller) (op : Op) : Scheduller :=
  if s.fault.isSome then s
  else
    match op with
    | .advance elapsed => s.wait elapsed
    | .saveQueue keep added =>
      { s with
        saved := s.saved.filter keep ++ numbered s.queued added
        queued := s.queued + added.length }
    | .updateTasks elapsed => s.settle (s.updateTasks elapsed)
    | .timerEvent timerId elapsed =>
      if s.due timerId then s.settle (s.timerEvent timerId elapsed) else s

/-- The object before its constructor runs; the timer id is not initialised. -/
def unconstructed (queue : List SchedulerTask) (now timerID : Nat) : Scheduller :=
  ⟨now, [], numbered 0 queue, [], timerID, 0, queue.length, [], none⟩

def start (queue : List SchedulerTask) (now timerID elapsed : Nat) : Scheduller :=
  (unconstructed queue now timerID).settle ((unconstructed queue now timerID).construct elapsed)

end
/-- Every task was performed in its second or later, and none twice. -/
structure OnTime (s : Scheduller) : Prop where
  not_early : ∀ e ∈ s.performed, e.1.startTime ≤ (e.2 / 1000 : Nat)
  once : (s.performed.map fun e => e.1.number).Nodup

/-- The distance in milliseconds from now to the start of `basis`, modulo `2 ^ 32`,
counts as negative or reaches the start of `head`. -/
def ReachesStart (basis head : QueuedTask) (now : Nat) : Prop :=
  (1000 * (toTimeT basis.startTime - toTimeT (now / 1000))) % 2 ^ 32 < 2 ^ 31 →
    1000 * head.startTime ≤ now + (1000 * (toTimeT basis.startTime - toTimeT (now / 1000))) % 2 ^ 32

instance (basis head : QueuedTask) (now : Nat) : Decidable (ReachesStart basis head now) :=
  inferInstanceAs (Decidable (_ → _))

/-! ### What the functions leave of a queue -/

theorem prune_of_past {now : Nat} {t : QueuedTask} (ht : 1000 * t.startTime < now)
    {kept rest : List QueuedTask} (hfront : 2 * kept.length < kept.length + 1 + rest.length) :
    prune now kept (t :: rest) = prune now kept rest := by
  cases rest with
  | nil => simp only [prune, if_pos ht, if_pos hfront]
  | cons u rest => simp only [prune, if_pos ht, if_pos hfront]

theorem prune_of_future {now : Nat} {t : QueuedTask} (ht : ¬ 1000 * t.startTime < now)
    (kept rest : List QueuedTask) :
    prune now kept (t :: rest) = prune now (kept ++ [t]) rest := by
  cases rest with
  | nil => simp only [prune, if_neg ht]
  | cons u rest => simp only [prune, if_neg ht]

theorem prune_sublist {now : Nat} {kept tasks pruned : List QueuedTask}
    (h : prune now kept tasks = .ok pruned) : pruned.Sublist (kept ++ tasks) := by
  induction kept, tasks using prune.induct now with
  | case1 kept =>
    rw [prune] at h
    obtain rfl := Except.ok.inj h
    rw [List.append_nil]
  | case2 kept t rest hpast hfront ih =>
    rw [prune_of_past hpast hfront] at h
    exact (ih h).trans ((List.sublist_cons_self t rest).append_left kept)
  | case3 kept t hpast hback =>
    rw [prune, if_pos hpast, if_neg hback] at h
    exact absurd h (by simp)
  | case4 kept t hpast skipped rest hback ih =>
    rw [prune, if_pos hpast, if_neg hback] at h
    have hsub := ih h
    rw [List.append_assoc] at hsub
    exact hsub.trans ((List.sublist_cons_self t _).append_left kept)
  | case5 kept t rest hpast ih =>
    rw [prune_of_future hpast] at h
    simpa using ih h

theorem prune_perm {now : Nat} {kept tasks pruned : List QueuedTask}
    (h : prune now kept tasks = .ok pruned) :
    ∃ dropped, (kept ++ tasks).Perm (pruned ++ dropped) ∧
      ∀ t ∈ dropped, 1000 * t.startTime < now := by
  induction kept, tasks using prune.induct now with
  | case1 kept =>
    rw [prune] at h
    obtain rfl := Except.ok.inj h
    exact ⟨[], .refl _, by simp⟩
  | case2 kept t rest hpast hfront ih =>
    rw [prune_of_past hpast hfront] at h
    obtain ⟨dropped, hperm, hdropped⟩ := ih h
    refine ⟨t :: dropped, ?_, List.forall_mem_cons.mpr ⟨hpast, hdropped⟩⟩
    exact List.perm_middle.trans ((hperm.cons t).trans List.perm_middle.symm)
  | case3 kept t hpast hback =>
    rw [prune, if_pos hpast, if_neg hback] at h
    exact absurd h (by simp)
  | case4 kept t hpast skipped rest hback ih =>
    rw [prune, if_pos hpast, if_neg hback] at h
    obtain ⟨dropped, hperm, hdropped⟩ := ih h
    refine ⟨t :: dropped, ?_, List.forall_mem_cons.mpr ⟨hpast, hdropped⟩⟩
    rw [List.append_assoc, List.singleton_append] at hperm
    exact List.perm_middle.trans ((hperm.cons t).trans List.perm_middle.symm)
  | case5 kept t rest hpast ih =>
    rw [prune_of_future hpast] at h
    simpa using ih h

/-! ### The timer -/

theorem interval_of_nonneg {t : QueuedTask} {now : Nat} (h : ¬ interval t now < 0) :
    interval t now = (1000 * (toTimeT t.startTime - toTimeT (now / 1000))) % 2 ^ 32 ∧
      (1000 * (toTimeT t.startTime - toTimeT (now / 1000))) % 2 ^ 32 < 2 ^ 31 := by
  rw [interval, Int.bmod_def] at h ⊢
  split_ifs at h ⊢ with hlt
  · exact ⟨rfl, by omega⟩
  · have hmod := Int.emod_lt_of_pos (1000 * (toTimeT t.startTime - toTimeT (now / 1000)))
      (show (0 : Int) < 2 ^ 32 by decide)
    omega

theorem killTimer_timers {s : Scheduller} (h : ∀ t ∈ s.timers, t.1 = s.cuurentTimerID) :
    (s.killTimer s.cuurentTimerID).timers = [] := by
  simp only [killTimer, List.filter_eq_nil_iff]
  intro t ht
  simp [h t ht]

/-- The timer that runs has the current id, and is due when the first task may
start. -/
structure Armed (s : Scheduller) : Prop where
  not_early : ∀ e ∈ s.performed, e.1.startTime ≤ (e.2 / 1000 : Nat)
  timer_id : ∀ t ∈ s.timers, t.1 = s.cuurentTimerID
  covers : ∀ t ∈ s.timers, ∃ first rest, s.tasks = first :: rest ∧ 1000 * first.startTime ≤ t.2

theorem armed_of_no_timer {s : Scheduller}
    (hearly : ∀ e ∈ s.performed, e.1.startTime ≤ (e.2 / 1000 : Nat)) (hnone : s.timers = []) :
    Armed s := by
  refine ⟨hearly, fun t ht => ?_, fun t ht => ?_⟩
  · simp [hnone] at ht
  · simp [hnone] at ht

theorem armed_startTimer {s : Scheduller} (hearly : ∀ e ∈ s.performed, e.1.startTime ≤ (e.2 / 1000 : Nat))
    (hnone : s.timers = []) {basis head : QueuedTask} {rest : List QueuedTask}
    (htasks : s.tasks = head :: rest) {now : Nat} (hnow : s.now = now)
    (hreach : ReachesStart basis head now) : Armed (s.startTimer (interval basis now)) := by
  rw [startTimer]
  split_ifs with hneg
  · exact armed_of_no_timer hearly hnone
  · obtain ⟨hms, hlt⟩ := interval_of_nonneg hneg
    have hstart := hreach hlt
    refine ⟨hearly, ?_, ?_⟩
    · intro t ht
      simp only [hnone, List.nil_append, List.mem_singleton] at ht
      rw [ht]
    · intro t ht
      simp only [hnone, List.nil_append, List.mem_singleton] at ht
      refine ⟨head, rest, htasks, ?_⟩
      have hdelay : ((interval basis now).toNat : Int) = interval basis now :=
        Int.toNat_of_nonneg (not_lt.mp hneg)
      rw [ht, hnow]
      push_cast
      rw [hdelay, hms]
      exact hstart

/-! ### The numbers -/

structure Unperformed (s : Scheduller) (tasks : List QueuedTask) : Prop where
  nodup : (tasks.map QueuedTask.number).Nodup
  fresh : ∀ t ∈ tasks, t.number ∉ s.performed.map fun e => e.1.number
  below : ∀ t ∈ tasks, t.number < s.queued

theorem Unperformed.sublist {s : Scheduller} {tasks tasks' : List QueuedTask}
    (h : s.Unperformed tasks) (hsub : tasks'.Sublist tasks) : s.Unperformed tasks' where
  nodup := h.nodup.sublist (hsub.map _)
  fresh t ht := h.fresh t (hsub.subset ht)
  below t ht := h.below t (hsub.subset ht)

theorem Unperformed.perm {s : Scheduller} {tasks tasks' : List QueuedTask}
    (h : s.Unperformed tasks) (hperm : tasks'.Perm tasks) : s.Unperformed tasks' where
  nodup := (hperm.map _).nodup_iff.mpr h.nodup
  fresh t ht := h.fresh t (hperm.mem_iff.mp ht)
  below t ht := h.below t (hperm.mem_iff.mp ht)

theorem Unperformed.congr {s s' : Scheduller} {tasks : List QueuedTask} (h : s.Unperformed tasks)
    (hperformed : s'.performed = s.performed) (hqueued : s'.queued = s.queued) :
    s'.Unperformed tasks where
  nodup := h.nodup
  fresh := by
    rw [hperformed]
    exact h.fresh
  below := by
    rw [hqueued]
    exact h.below

theorem Unperformed.once_cons {s : Scheduller} {first : QueuedTask} {rest : List QueuedTask}
    (h : s.Unperformed (first :: rest)) (honce : (s.performed.map fun e => e.1.number).Nodup)
    (time : Nat) : ((s.performed ++ [(first, time)]).map fun e => e.1.number).Nodup := by
  have hfresh := h.fresh first List.mem_cons_self
  rw [List.map_append]
  refine honce.append (List.nodup_singleton _) fun n hn hn' => ?_
  rw [List.mem_singleton.mp hn'] at hn
  exact hfresh hn

theorem Unperformed.rest {s s' : Scheduller} {first : QueuedTask} {rest : List QueuedTask}
    (h : s.Unperformed (first :: rest)) {time : Nat}
    (hperformed : s'.performed = s.performed ++ [(first, time)]) (hqueued : s'.queued = s.queued) :
    s'.Unperformed rest := by
  have hnodup := h.nodup
  rw [List.map_cons, List.nodup_cons] at hnodup
  refine ⟨hnodup.2, fun t ht hmem => ?_, fun t ht => ?_⟩
  · rw [hperformed, List.map_append] at hmem
    cases List.mem_append.mp hmem with
    | inl hmem => exact h.fresh t (List.mem_cons_of_mem _ ht) hmem
    | inr hmem =>
      have hsame : t.number = first.number := List.mem_singleton.mp hmem
      exact hnodup.1 (hsame ▸ List.mem_map_of_mem ht)
  · rw [hqueued]
    exact h.below t (List.mem_cons_of_mem _ ht)

/-- The queue and its file hold only tasks that are still to be performed. -/
structure Numbered (s : Scheduller) : Prop where
  once : (s.performed.map fun e => e.1.number).Nodup
  performed_below : ∀ e ∈ s.performed, e.1.number < s.queued
  tasks : s.Unperformed s.tasks
  saved : s.Unperformed s.saved

theorem Numbered.congr {s s' : Scheduller} (h : s.Numbered) (hperformed : s'.performed = s.performed)
    (hqueued : s'.queued = s.queued) (htasks : s'.tasks = s.tasks) (hsaved : s'.saved = s.saved) :
    s'.Numbered where
  once := hperformed ▸ h.once
  performed_below := by
    rw [hperformed, hqueued]
    exact h.performed_below
  tasks := by
    rw [htasks]
    exact h.tasks.congr hperformed hqueued
  saved := by
    rw [hsaved]
    exact h.saved.congr hperformed hqueued

theorem numbered_startTimer {s : Scheduller} (h : s.Numbered) (msec : Int) :
    (s.startTimer msec).Numbered :=
  h.congr (by simp) (by simp) (by simp) (by simp)

theorem mem_numbered {n : Nat} {ts : List SchedulerTask} {t : QueuedTask} (h : t ∈ numbered n ts) :
    n ≤ t.number ∧ t.number < n + ts.length := by
  induction ts generalizing n with
  | nil => exact absurd h List.not_mem_nil
  | cons u ts ih =>
    rw [List.length_cons]
    cases List.mem_cons.mp h with
    | inl heq =>
      subst heq
      exact ⟨le_refl n, Nat.lt_add_of_pos_right (Nat.succ_pos _)⟩
    | inr h =>
      have hin := ih h
      omega

theorem numbered_nodup (n : Nat) (ts : List SchedulerTask) :
    ((numbered n ts).map QueuedTask.number).Nodup := by
  induction ts generalizing n with
  | nil => exact List.nodup_nil
  | cons u ts ih =>
    rw [numbered, List.map_cons, List.nodup_cons]
    refine ⟨fun hmem => ?_, ih (n + 1)⟩
    obtain ⟨t, ht, hnum⟩ := List.mem_map.mp hmem
    have hin := mem_numbered ht
    simp only at hnum
    omega

theorem unperformed_saveQueue {s : Scheduller} (h : s.Numbered) (keep : QueuedTask → Bool)
    (added : List SchedulerTask) :
    Unperformed { s with queued := s.queued + added.length }
      (s.saved.filter keep ++ numbered s.queued added) := by
  have hkept : s.Unperformed (s.saved.filter keep) := h.saved.sublist List.filter_sublist
  refine ⟨?_, ?_, ?_⟩
  · rw [List.map_append]
    refine hkept.nodup.append (numbered_nodup _ _) ?_
    intro n hn hn'
    obtain ⟨t, ht, rfl⟩ := List.mem_map.mp hn
    obtain ⟨t', ht', hsame⟩ := List.mem_map.mp hn'
    have hlt := hkept.below t ht
    have hge := (mem_numbered ht').1
    omega
  · intro t ht hmem
    cases List.mem_append.mp ht with
    | inl ht => exact hkept.fresh t ht hmem
    | inr ht =>
      obtain ⟨e, he, hsame⟩ := List.mem_map.mp hmem
      have hlt := h.performed_below e he
      have hge := (mem_numbered ht).1
      omega
  · intro t ht
    cases List.mem_append.mp ht with
    | inl ht =>
      have hlt := hkept.below t ht
      simp only
      omega
    | inr ht => exact (mem_numbered ht).2

section
variable [QtAlgorithms]

theorem sorted_perm (tasks : List QueuedTask) : (sorted tasks).Perm tasks :=
  QtAlgorithms.qSort_perm _ tasks

theorem sorted_pairwise (tasks : List QueuedTask) :
    (sorted tasks).Pairwise fun a b => a.startTime ≤ b.startTime := by
  have hpair := QtAlgorithms.qSort_pairwise
    (fun a b : QueuedTask => decide (a.startTime < b.startTime)) (by simp; omega) (by simp; omega)
    tasks
  refine hpair.imp fun h => ?_
  simpa using h

theorem head_sorted_le {tasks : List QueuedTask} {t : QueuedTask} (ht : t ∈ tasks) :
    ∃ first rest, sorted tasks = first :: rest ∧ first.startTime ≤ t.startTime := by
  have hmem : t ∈ sorted tasks := (sorted_perm tasks).mem_iff.mpr ht
  cases hs : sorted tasks with
  | nil => simp [hs] at hmem
  | cons first rest =>
    have hpair := sorted_pairwise tasks
    rw [hs, List.pairwise_cons] at hpair
    rw [hs] at hmem
    refine ⟨first, rest, rfl, ?_⟩
    cases List.mem_cons.mp hmem with
    | inl heq =>
      subst heq
      exact le_refl _
    | inr hmem => exact hpair.1 t hmem

theorem checkTasks_eq {s s' : Scheduller} (h : checkTasks s = .ok s') :
    ∃ tasks, prune s.now [] s.tasks = .ok tasks ∧
      s' = { s with tasks := sorted tasks, saved := sorted tasks } := by
  rw [checkTasks] at h
  obtain ⟨tasks, hp, h⟩ := bind_eq_ok h
  obtain rfl := Except.ok.inj h
  exact ⟨tasks, hp, rfl⟩

theorem armed_save {s : Scheduller} (h : Armed s) : Armed s.saveSchedullerQueue := by
  refine ⟨h.not_early, h.timer_id, fun t ht => ?_⟩
  obtain ⟨first, rest, htasks, hle⟩ := h.covers t ht
  obtain ⟨first', rest', hsorted, hle'⟩ := head_sorted_le (show first ∈ s.tasks by simp [htasks])
  exact ⟨first', rest', hsorted, by omega⟩

/-- Whenever the step arms the timer, the interval reaches the start of the task
that is first then. -/
def ArmsInTime (s : Scheduller) : Op → Prop
  | .advance _ | .saveQueue _ _ => True
  | .updateTasks elapsed => ∀ tasks first rest, prune s.now [] s.saved = .ok tasks →
      sorted tasks = first :: rest → ReachesStart first first (s.now + elapsed)
  | .timerEvent timerId elapsed => s.due timerId = true → ∀ first next rest,
      s.tasks = first :: next :: rest → ReachesStart first next (s.now + elapsed)

def ConstructsInTime (queue : List SchedulerTask) (now elapsed : Nat) : Prop :=
  ∀ tasks first rest, prune now [] (numbered 0 queue) = .ok tasks →
    sorted tasks = first :: rest → ReachesStart first first (now + elapsed)

theorem timerEvent_eq {s s' : Scheduller} {first : QueuedTask} {rest : List QueuedTask}
    (htasks : s.tasks = first :: rest) {elapsed : Nat}
    (h : s.timerEvent s.cuurentTimerID elapsed = .ok s') :
    ∃ fired : Scheduller, fired = ({ s with
        performed := s.performed ++ [(first, s.now)]
        tasks := rest }.wait elapsed).killTimer s.cuurentTimerID ∧
      s' = (if rest = [] then fired
        else fired.startTimer (interval first (s.now + elapsed))).saveSchedullerQueue := by
  rw [timerEvent, if_pos rfl, htasks] at h
  obtain rfl := Except.ok.inj h
  exact ⟨_, rfl, rfl⟩

theorem updateTasks_eq {s s' : Scheduller} {elapsed : Nat} (h : s.updateTasks elapsed = .ok s') :
    ∃ tasks first rest, prune s.now [] s.saved = .ok tasks ∧ sorted tasks = first :: rest ∧
      s' = startTimer (({ s with tasks := sorted tasks, saved := sorted tasks }.killTimer
        s.cuurentTimerID).wait elapsed) (interval first (s.now + elapsed)) := by
  rw [updateTasks] at h
  obtain ⟨s₁, hc, h⟩ := bind_eq_ok h
  obtain ⟨tasks, hp, rfl⟩ := checkTasks_eq hc
  cases hs : sorted tasks with
  | nil =>
    simp only [wait, killTimer, hs] at h
    exact absurd h (by simp)
  | cons first rest =>
    simp only [wait, killTimer, hs] at h
    obtain rfl := Except.ok.inj h
    exact ⟨tasks, first, rest, hp, hs, by simp only [hs, wait, killTimer]⟩

/-- `UpdateTasks` takes from the file what is past, and performs nothing. -/
theorem step_updateTasks (s : Scheduller) (elapsed : Nat) :
    (s.step (.updateTasks elapsed)).performed = s.performed ∧
      ∃ dropped, s.saved.Perm ((s.step (.updateTasks elapsed)).saved ++ dropped) ∧
        ∀ t ∈ dropped, 1000 * t.startTime < s.now := by
  have hsame : ∃ dropped, s.saved.Perm (s.saved ++ dropped) ∧
      ∀ t ∈ dropped, 1000 * t.startTime < s.now := ⟨[], by simp, by simp⟩
  simp only [step]
  split_ifs with hfault
  · exact ⟨rfl, hsame⟩
  · cases hrun : s.updateTasks elapsed with
    | error f => exact ⟨rfl, hsame⟩
    | ok s' =>
      obtain ⟨tasks, first, rest, hp, hs, rfl⟩ := updateTasks_eq hrun
      obtain ⟨dropped, hperm, hdropped⟩ := prune_perm hp
      refine ⟨?_, dropped, ?_, hdropped⟩
      · simp [settle, wait, killTimer]
      · simp only [settle, startTimer_saved]
        exact hperm.trans ((sorted_perm tasks).symm.append_right dropped)

theorem timerEvent_saved {s s' : Scheduller} {first : QueuedTask} {rest : List QueuedTask}
    (htasks : s.tasks = first :: rest) {elapsed : Nat}
    (h : s.timerEvent s.cuurentTimerID elapsed = .ok s') :
    s'.saved.Perm rest ∧ s'.performed = s.performed ++ [(first, s.now)] := by
  obtain ⟨fired, hfired, rfl⟩ := timerEvent_eq htasks h
  have htasks' : fired.tasks = rest := by rw [hfired]; rfl
  have hperformed : fired.performed = s.performed ++ [(first, s.now)] := by rw [hfired]; rfl
  split_ifs
  · exact ⟨htasks' ▸ sorted_perm fired.tasks, hperformed⟩
  · simp only [saveSchedullerQueue, startTimer_tasks, startTimer_performed]
    exact ⟨htasks' ▸ sorted_perm fired.tasks, hperformed⟩

/-- A timer event leaves the tasks alone, or performs the first of them. -/
theorem step_timerEvent {s : Scheduller} (hfault : s.fault = none) (timerId elapsed : Nat) :
    ((s.due timerId = true → timerId = s.cuurentTimerID → s.tasks = []) ∧
      (s.step (.timerEvent timerId elapsed)).saved = s.saved ∧
      (s.step (.timerEvent timerId elapsed)).performed = s.performed) ∨
    (s.due timerId = true ∧ timerId = s.cuurentTimerID ∧ ∃ first rest, s.tasks = first :: rest ∧
      (s.step (.timerEvent timerId elapsed)).saved.Perm rest ∧
      (s.step (.timerEvent timerId elapsed)).performed = s.performed ++ [(first, s.now)]) := by
  have hnofault : ¬ s.fault.isSome = true := by simp [hfault]
  simp only [step, if_neg hnofault]
  by_cases hdue : s.due timerId = true
  · rw [if_pos hdue]
    by_cases hid : timerId = s.cuurentTimerID
    · subst hid
      cases htasks : s.tasks with
      | nil =>
        have hrun : s.timerEvent s.cuurentTimerID elapsed = .error .indexOutOfRange := by
          rw [timerEvent, if_pos rfl, htasks]
        rw [hrun]
        exact .inl ⟨fun _ _ => rfl, rfl, rfl⟩
      | cons first rest =>
        cases hrun : s.timerEvent s.cuurentTimerID elapsed with
        | error f =>
          rw [timerEvent, if_pos rfl, htasks] at hrun
          exact absurd hrun (by simp)
        | ok s' => exact .inr ⟨hdue, rfl, first, rest, rfl, timerEvent_saved htasks hrun⟩
    · have hrun : s.timerEvent timerId elapsed = .ok s := by rw [timerEvent, if_neg hid]
      rw [hrun]
      exact .inl ⟨fun _ he => absurd he hid, rfl, rfl⟩
  · rw [if_neg hdue]
    exact .inl ⟨fun hd => absurd hd hdue, rfl, rfl⟩

theorem construct_eq {s s' : Scheduller} {elapsed : Nat} (h : s.construct elapsed = .ok s') :
    ∃ tasks, prune s.now [] s.saved = .ok tasks ∧
      (sorted tasks = [] ∧ s' = { s with tasks := [], saved := [] }.wait elapsed ∨
      ∃ first rest, sorted tasks = first :: rest ∧
        s' = startTimer ({ s with tasks := first :: rest, saved := first :: rest }.wait elapsed)
          (interval first (s.now + elapsed))) := by
  rw [construct] at h
  obtain ⟨s₁, hc, h⟩ := bind_eq_ok h
  obtain ⟨tasks, hp, rfl⟩ := checkTasks_eq hc
  refine ⟨tasks, hp, ?_⟩
  cases hs : sorted tasks with
  | nil =>
    simp only [wait, hs] at h
    exact .inl ⟨rfl, (Except.ok.inj h).symm⟩
  | cons first rest =>
    simp only [wait, hs] at h
    exact .inr ⟨first, rest, rfl, (Except.ok.inj h).symm⟩

theorem armed_timerEvent {s s' : Scheduller} (h : Armed s) {timerId elapsed : Nat}
    (hdue : s.due timerId = true) (harms : ArmsInTime s (.timerEvent timerId elapsed))
    (hrun : s.timerEvent timerId elapsed = .ok s') : Armed s' := by
  obtain ⟨t, ht, htd⟩ := List.any_eq_true.mp hdue
  obtain ⟨hid, hnow⟩ := of_decide_eq_true htd
  obtain ⟨first, rest, htasks, hstart⟩ := h.covers t ht
  obtain rfl : timerId = s.cuurentTimerID := hid ▸ h.timer_id t ht
  obtain ⟨fired, hfired, rfl⟩ := timerEvent_eq htasks hrun
  have hsecond : first.startTime ≤ ((s.now / 1000 : Nat) : Int) := by omega
  have hearly : ∀ e ∈ fired.performed, e.1.startTime ≤ (e.2 / 1000 : Nat) := by
    rw [hfired]
    intro e he
    cases List.mem_append.mp he with
    | inl he => exact h.not_early e he
    | inr he =>
      rw [List.mem_singleton.mp he]
      exact hsecond
  have hnone : fired.timers = [] := by
    rw [hfired]
    exact killTimer_timers h.timer_id
  apply armed_save
  cases rest with
  | nil =>
    rw [if_pos rfl]
    exact armed_of_no_timer hearly hnone
  | cons next rest =>
    rw [if_neg (by simp)]
    have hrest : fired.tasks = next :: rest := by rw [hfired]; rfl
    have hnow : fired.now = s.now + elapsed := by rw [hfired]; rfl
    exact armed_startTimer hearly hnone hrest hnow (harms hdue first next rest htasks)

theorem armed_updateTasks {s s' : Scheduller} (h : Armed s) {elapsed : Nat}
    (harms : ArmsInTime s (.updateTasks elapsed)) (hrun : s.updateTasks elapsed = .ok s') :
    Armed s' := by
  obtain ⟨tasks, first, rest, hp, hs, rfl⟩ := updateTasks_eq hrun
  have hreach := harms tasks first rest hp hs
  refine armed_startTimer ?_ ?_ hs rfl hreach
  · exact h.not_early
  · exact killTimer_timers h.timer_id

theorem armed_start {queue : List SchedulerTask} {now elapsed : Nat} (timerID : Nat)
    (harms : ConstructsInTime queue now elapsed) : Armed (start queue now timerID elapsed) := by
  have hearly : ∀ e ∈ (unconstructed queue now timerID).performed,
      e.1.startTime ≤ (e.2 / 1000 : Nat) := fun e he => absurd he List.not_mem_nil
  rw [start]
  cases hrun : (unconstructed queue now timerID).construct elapsed with
  | error f => exact armed_of_no_timer hearly rfl
  | ok s' =>
    obtain ⟨tasks, hp, ⟨hs, rfl⟩ | ⟨first, rest, hs, rfl⟩⟩ := construct_eq hrun
    · exact armed_of_no_timer hearly rfl
    · have hreach := harms tasks first rest hp hs
      refine armed_startTimer ?_ ?_ (show _ = first :: rest from rfl) rfl hreach
      · exact hearly
      · rfl

theorem step_armed {s : Scheduller} {op : Op} (h : Armed s) (harms : ArmsInTime s op) :
    Armed (s.step op) := by
  simp only [step]
  split_ifs with hfault
  · exact h
  · cases op with
    | advance elapsed => exact ⟨h.not_early, h.timer_id, h.covers⟩
    | saveQueue keep added => exact ⟨h.not_early, h.timer_id, h.covers⟩
    | updateTasks elapsed =>
      cases hrun : s.updateTasks elapsed with
      | error f => simpa only [hrun, settle] using ⟨h.not_early, h.timer_id, h.covers⟩
      | ok s' => simpa only [hrun, settle] using armed_updateTasks h harms hrun
    | timerEvent timerId elapsed =>
      by_cases hdue : s.due timerId = true
      · simp only [if_pos hdue]
        cases hrun : s.timerEvent timerId elapsed with
        | error f => exact ⟨h.not_early, h.timer_id, h.covers⟩
        | ok s' => exact armed_timerEvent h hdue harms hrun
      · simpa only [if_neg hdue] using h

theorem numbered_save {s : Scheduller} (honce : (s.performed.map fun e => e.1.number).Nodup)
    (hbelow : ∀ e ∈ s.performed, e.1.number < s.queued) (h : s.Unperformed s.tasks) :
    s.saveSchedullerQueue.Numbered := by
  have hsorted := h.perm (sorted_perm s.tasks)
  exact ⟨honce, hbelow, hsorted.congr rfl rfl, hsorted.congr rfl rfl⟩

theorem numbered_checked {s : Scheduller} (h : s.Numbered) {tasks : List QueuedTask}
    (hp : prune s.now [] s.saved = .ok tasks) :
    Numbered { s with tasks := sorted tasks, saved := sorted tasks } := by
  have htasks : s.Unperformed tasks := h.saved.sublist (prune_sublist hp)
  exact numbered_save (s := { s with tasks := tasks }) h.once h.performed_below
    (htasks.congr rfl rfl)

theorem numbered_timerEvent {s s' : Scheduller} (h : s.Numbered) {timerId elapsed : Nat}
    (hrun : s.timerEvent timerId elapsed = .ok s') : s'.Numbered := by
  by_cases hid : timerId = s.cuurentTimerID
  · cases htasks : s.tasks with
    | nil =>
      rw [timerEvent, if_pos hid, htasks] at hrun
      exact absurd hrun (by simp)
    | cons first rest =>
      subst hid
      obtain ⟨fired, hfired, rfl⟩ := timerEvent_eq htasks hrun
      have hqueue := htasks ▸ h.tasks
      have hperformed : fired.performed = s.performed ++ [(first, s.now)] := by rw [hfired]; rfl
      have hqueued : fired.queued = s.queued := by rw [hfired]; rfl
      have hrest : fired.tasks = rest := by rw [hfired]; rfl
      have honce : (fired.performed.map fun e => e.1.number).Nodup :=
        hperformed ▸ hqueue.once_cons h.once s.now
      have hbelow : ∀ e ∈ fired.performed, e.1.number < fired.queued := by
        rw [hperformed, hqueued]
        intro e he
        cases List.mem_append.mp he with
        | inl he => exact h.performed_below e he
        | inr he =>
          rw [List.mem_singleton.mp he]
          exact hqueue.below first List.mem_cons_self
      have hunperformed : fired.Unperformed fired.tasks := hrest ▸ hqueue.rest hperformed hqueued
      split_ifs
      · exact numbered_save honce hbelow hunperformed
      · apply numbered_save
        · simpa using honce
        · simpa using hbelow
        · rw [startTimer_tasks]
          exact hunperformed.congr (startTimer_performed _ _) (startTimer_queued _ _)
  · rw [timerEvent, if_neg hid] at hrun
    obtain rfl := Except.ok.inj hrun
    exact h

theorem step_numbered (s : Scheduller) (op : Op) (h : s.Numbered) : (s.step op).Numbered := by
  simp only [step]
  split_ifs with hfault
  · exact h
  · cases op with
    | advance elapsed => exact h.congr rfl rfl rfl rfl
    | saveQueue keep added =>
      refine ⟨h.once, fun e he => ?_, ?_, ?_⟩
      · have hlt := h.performed_below e he
        simp only
        omega
      · refine ⟨h.tasks.nodup, h.tasks.fresh, fun t ht => ?_⟩
        have hlt := h.tasks.below t ht
        simp only
        omega
      · exact (unperformed_saveQueue h keep added).congr rfl rfl
    | updateTasks elapsed =>
      cases hrun : s.updateTasks elapsed with
      | error f =>
        simp only [hrun, settle]
        exact h.congr rfl rfl rfl rfl
      | ok s' =>
        simp only [hrun, settle]
        obtain ⟨tasks, first, rest, hp, hs, rfl⟩ := updateTasks_eq hrun
        have hchecked := numbered_checked h hp
        apply numbered_startTimer
        exact hchecked.congr rfl rfl rfl rfl
    | timerEvent timerId elapsed =>
      by_cases hdue : s.due timerId = true
      · simp only [if_pos hdue]
        cases hrun : s.timerEvent timerId elapsed with
        | error f =>
          simp only [settle]
          exact h.congr rfl rfl rfl rfl
        | ok s' =>
          simp only [settle]
          exact numbered_timerEvent h hrun
      · simpa only [if_neg hdue] using h

theorem numbered_start (queue : List SchedulerTask) (now timerID elapsed : Nat) :
    (start queue now timerID elapsed).Numbered := by
  have hqueue : (unconstructed queue now timerID).Numbered := by
    refine ⟨List.nodup_nil, fun e he => absurd he List.not_mem_nil, ?_, ?_⟩
    · exact ⟨List.nodup_nil, fun t ht => absurd ht List.not_mem_nil,
        fun t ht => absurd ht List.not_mem_nil⟩
    · refine ⟨numbered_nodup 0 queue, fun t ht => List.not_mem_nil, fun t ht => ?_⟩
      have hlt := (mem_numbered ht).2
      rwa [Nat.zero_add] at hlt
  rw [start]
  cases hrun : (unconstructed queue now timerID).construct elapsed with
  | error f =>
    simp only [settle]
    exact hqueue.congr rfl rfl rfl rfl
  | ok s' =>
    simp only [settle]
    obtain ⟨tasks, hp, hs'⟩ := construct_eq hrun
    have hchecked := numbered_checked hqueue hp
    cases hs' with
    | inl hempty =>
      obtain ⟨hs, rfl⟩ := hempty
      rw [hs] at hchecked
      exact hchecked.congr rfl rfl rfl rfl
    | inr hfirst =>
      obtain ⟨first, rest, hs, rfl⟩ := hfirst
      rw [hs] at hchecked
      apply numbered_startTimer
      exact hchecked.congr rfl rfl rfl rfl

theorem performed_once (queue : List SchedulerTask) (now timerID elapsed : Nat) (ops : List Op) :
    Runs.Throughout step (fun s => (s.performed.map fun e => e.1.number).Nodup)
      (start queue now timerID elapsed) ops :=
  (Runs.throughout_of_step step_numbered (numbered_start queue now timerID elapsed) ops).imp
    fun _ h => h.once

/-- As long as every timer that is armed reaches the start of the first task, no
task is performed early, and none twice. -/
theorem performs_on_time {queue : List SchedulerTask} {now timerID elapsed : Nat}
    (hstart : ConstructsInTime queue now elapsed) {ops : List Op}
    (harms : Runs.Along step ArmsInTime (start queue now timerID elapsed) ops) :
    Runs.Throughout step OnTime (start queue now timerID elapsed) ops := by
  have hall := Runs.throughout_of_along (I := fun s => Armed s ∧ Numbered s)
    (fun s op h hc => ⟨step_armed h.1 hc, step_numbered s op h.2⟩)
    ⟨armed_start timerID hstart, numbered_start queue now timerID elapsed⟩ harms
  exact hall.imp fun s h => ⟨h.1.not_early, h.2.once⟩

end

def pauseAt (startTime : Int) : SchedulerTask := ⟨.pauseAll, [], 0, startTime⟩

theorem performs_two_at_once :
    @Runs.Throughout _ _ (@step insertionSorting) OnTime
      (@start insertionSorting [pauseAt 10, pauseAt 10] 5000 0 0)
      [.advance 5000, .timerEvent 1 0, .timerEvent 2 3] := by
  refine @performs_on_time insertionSorting _ _ _ _ ?_ _ ⟨trivial, ?_, ?_, trivial⟩
  · intro tasks first rest hp hs
    obtain rfl := Except.ok.inj (hp.symm.trans (by decide +kernel :
      prune 5000 [] (numbered 0 [pauseAt 10, pauseAt 10]) = .ok [⟨0, pauseAt 10⟩, ⟨1, pauseAt 10⟩]))
    obtain ⟨rfl, rfl⟩ := List.cons.inj (hs.symm.trans (by decide +kernel :
      @sorted insertionSorting [⟨0, pauseAt 10⟩, ⟨1, pauseAt 10⟩] = [⟨0, pauseAt 10⟩, ⟨1, pauseAt 10⟩]))
    decide
  · intro _ first next rest htasks
    have hqueue : (@step insertionSorting (@start insertionSorting [pauseAt 10, pauseAt 10] 5000 0 0)
        (.advance 5000)).tasks = [⟨0, pauseAt 10⟩, ⟨1, pauseAt 10⟩] := by decide +kernel
    rw [hqueue] at htasks
    obtain ⟨hfirst, hrest⟩ := List.cons.inj htasks
    rw [← hfirst, ← (List.cons.inj hrest).1]
    decide +kernel
  · intro _ first next rest htasks
    have hlen : (first :: next :: rest).length = 1 :=
      (congrArg List.length htasks).symm.trans (by decide +kernel)
    simp at hlen

theorem performs_hour_early :
    ¬ ∀ (_ : QtAlgorithms) (queue : List SchedulerTask) (now timerID elapsed : Nat) (ops : List Op),
      Runs.Throughout step OnTime (start queue now timerID elapsed) ops := by
  intro h
  have hlast := (h insertionSorting [pauseAt 10, pauseAt 3610] 5000 0 0
    [.advance 5000, .timerEvent 1 0, .timerEvent 2 0]).last.not_early
  revert hlast
  decide +kernel

end Scheduller
end CuteTorrent
