import CuteTorrent.Library.QList
import CuteTorrent.Scheduller

/-! The check that starts the scheduler and every update of it: the loop on the
memory of the queue, and the interval for the task that is then first. -/
namespace CuteTorrent
namespace Scheduller

/-- The loop of `checkTasks`. The iterator is an index that `erase` does not touch,
and nothing may be read outside the list. -/
def checkLoop (now : Nat) : Nat → QListData QueuedTask → Nat →
    Option (Except Fault (QListData QueuedTask))
  | 0, _, _ => none
  | fuel + 1, tasks, i =>
    if i = tasks.stop then some (.ok tasks)
    else if h : tasks.start ≤ i ∧ i < tasks.stop then
      if 1000 * (tasks.array i).startTime < now then checkLoop now fuel (tasks.erase i h) (i + 1)
      else checkLoop now fuel tasks (i + 1)
    else some (.error .readPastEnd)

def future (now : Nat) (tasks : List QueuedTask) : List QueuedTask :=
  tasks.filter fun t => decide ((now : Int) ≤ 1000 * t.startTime)

def ByStart (tasks : List QueuedTask) : Prop := tasks.Pairwise fun a b => a.startTime ≤ b.startTime

section loop
variable {now fuel i : Nat} {l : QListData QueuedTask}

theorem checkLoop_stop (now fuel : Nat) (l : QListData QueuedTask) :
    checkLoop now (fuel + 1) l l.stop = some (.ok l) := by rw [checkLoop, if_pos rfl]

theorem checkLoop_past (h : l.start ≤ i ∧ i < l.stop) (hpast : 1000 * (l.array i).startTime < now) :
    checkLoop now (fuel + 1) l i = checkLoop now fuel (l.erase i h) (i + 1) := by
  rw [checkLoop, if_neg (by omega), dif_pos h, if_pos hpast]

theorem checkLoop_future (h : l.start ≤ i ∧ i < l.stop)
    (hfuture : ¬ 1000 * (l.array i).startTime < now) :
    checkLoop now (fuel + 1) l i = checkLoop now fuel l (i + 1) := by
  rw [checkLoop, if_neg (by omega), dif_pos h, if_neg hfuture]

theorem checkLoop_over (h : l.stop < i) :
    checkLoop now (fuel + 1) l i = some (.error .readPastEnd) := by
  rw [checkLoop, if_neg (by omega), dif_neg (by omega)]

/-- The loop on the memory is `prune` on what lies before the iterator and from it on. -/
theorem checkLoop_eq_prune (hin : l.start ≤ i ∧ i ≤ l.stop) (hfuel : l.stop - i < fuel) :
    ∃ result, checkLoop now fuel l i = some result ∧
      result.map QListData.toList = prune now (l.before i) (l.after i) := by
  induction fuel generalizing l i with
  | zero => exact absurd hfuel (Nat.not_lt_zero _)
  | succ fuel ih =>
    by_cases hstop : i = l.stop
    · subst hstop
      refine ⟨.ok l, checkLoop_stop now fuel l, ?_⟩
      rw [l.after_stop, l.before_stop, prune]
      rfl
    · have hlt : l.start ≤ i ∧ i < l.stop := by omega
      rw [l.after_of_lt hlt.2]
      by_cases hpast : 1000 * (l.array i).startTime < now
      · rw [checkLoop_past hlt hpast]
        by_cases hside : i - l.start < l.stop - i
        · obtain ⟨hbefore, hafter⟩ := QListData.erase_front hlt hside
          have hstart' := QListData.start_erase_front hlt hside
          have hstop' := QListData.stop_erase_front hlt hside
          have hprune : 2 * (l.before i).length <
              (l.before i).length + 1 + (l.after (i + 1)).length := by
            rw [l.length_before, l.length_after]
            omega
          obtain ⟨result, hrun, hresult⟩ := ih (l := l.erase i hlt) (i := i + 1) (by omega) (by omega)
          rw [hbefore, hafter] at hresult
          exact ⟨result, hrun, by rw [hresult, prune_of_past hpast hprune]⟩
        · obtain ⟨hbefore, hafter⟩ := QListData.erase_back hlt hside
          have hstart' := QListData.start_erase_back hlt hside
          have hstop' := QListData.stop_erase_back hlt hside
          have hprune : ¬ 2 * (l.before i).length <
              (l.before i).length + 1 + (l.after (i + 1)).length := by
            rw [l.length_before, l.length_after]
            omega
          by_cases hlast : i + 1 = l.stop
          · obtain ⟨fuel, rfl⟩ : ∃ n, fuel = n + 1 := ⟨fuel - 1, by omega⟩
            refine ⟨_, checkLoop_over (by omega), ?_⟩
            rw [hlast, l.after_stop] at hprune ⊢
            rw [prune, if_pos hpast, if_neg hprune]
            rfl
          · -- the element behind the erased one has come to its place, and is skipped
            have hnext : l.after (i + 1) = (l.erase i hlt).array i :: (l.erase i hlt).after (i + 1) := by
              rw [← hafter, QListData.after_of_lt (by omega)]
            obtain ⟨result, hrun, hresult⟩ :=
              ih (l := l.erase i hlt) (i := i + 1) (by omega) (by omega)
            rw [QListData.before_succ (by omega), hbefore] at hresult
            refine ⟨result, hrun, ?_⟩
            rw [hnext] at hprune ⊢
            rw [hresult, prune, if_pos hpast, if_neg hprune]
      · rw [checkLoop_future hlt hpast, prune_of_future hpast]
        rw [← QListData.before_succ hlt.1]
        exact ih (by omega) (by omega)

end loop

theorem future_eq_self {now : Nat} {tasks : List QueuedTask}
    (h : ∀ t ∈ tasks, ¬ 1000 * t.startTime < now) : future now tasks = tasks :=
  List.filter_eq_self.mpr fun t ht => decide_eq_true (not_lt.mp (h t ht))

theorem prune_of_no_past {now : Nat} {tasks : List QueuedTask}
    (h : ∀ t ∈ tasks, ¬ 1000 * t.startTime < now) (kept : List QueuedTask) :
    prune now kept tasks = .ok (kept ++ tasks) := by
  induction tasks generalizing kept with
  | nil => rw [prune, List.append_nil]
  | cons t tasks ih =>
    obtain ⟨ht, htasks⟩ := List.forall_mem_cons.mp h
    rw [prune_of_future ht, ih htasks, List.append_assoc, List.singleton_append]

theorem prune_of_sorted (now : Nat) {tasks : List QueuedTask} (hsorted : ByStart tasks) :
    prune now [] tasks = .ok (future now tasks) := by
  induction tasks with
  | nil => rfl
  | cons t tasks ih =>
    obtain ⟨hfirst, htasks⟩ := List.pairwise_cons.mp hsorted
    by_cases hpast : 1000 * t.startTime < now
    · have hnot : ¬ (now : Int) ≤ 1000 * t.startTime := not_le.mpr hpast
      have hfront : 2 * ([] : List QueuedTask).length <
          ([] : List QueuedTask).length + 1 + tasks.length := by
        rw [List.length_nil]
        omega
      rw [prune_of_past hpast hfront, ih htasks, future, future,
        List.filter_cons_of_neg (by simpa using hnot)]
    · have hall : ∀ u ∈ t :: tasks, ¬ 1000 * u.startTime < now := by
        intro u hu
        rcases List.mem_cons.mp hu with rfl | hu
        · exact hpast
        · have hle := hfirst u hu
          omega
      rw [prune_of_no_past hall, future_eq_self hall, List.nil_append]

/-- On a sorted list the loop ends, reads nothing outside the list and leaves the
tasks that have not started, in their order. -/
theorem checkLoop_leaves_future (now : Nat) (l : QListData QueuedTask) (hsorted : ByStart l.toList)
    (fuel : Nat) (hfuel : l.toList.length < fuel) :
    ∃ l', checkLoop now fuel l l.start = some (.ok l') ∧ l'.toList = future now l.toList := by
  have hlen : l.stop - l.start < fuel := by simpa [QListData.toList] using hfuel
  have hloop : ∃ result, checkLoop now fuel l l.start = some result ∧
      result.map QListData.toList = prune now (l.before l.start) (l.after l.start) :=
    checkLoop_eq_prune ⟨le_rfl, l.start_le⟩ hlen
  obtain ⟨result, hrun, hresult⟩ := hloop
  rw [l.before_start, l.after_start, prune_of_sorted now hsorted] at hresult
  cases result with
  | error f => exact absurd hresult (by simp [Except.map])
  | ok l' => exact ⟨l', hrun, Except.ok.inj hresult⟩

/-! ### The interval for the first task -/

def distance (t : QueuedTask) (now : Nat) : Int := 1000 * (t.startTime - (now / 1000 : Nat))

/-- The timer is set to the seconds that are left to the first task, and to
nothing where there is none. -/
def TimerRight (remaining : List QueuedTask) (now : Nat) (passed : Except Fault (Option Int)) : Prop :=
  passed = .ok (remaining.head?.map fun first => distance first now)

def FitsTimer (first : QueuedTask) (now : Nat) : Prop :=
  (-2 ^ 31 ≤ distance first now ∧ distance first now < 2 ^ 31) ∧
  (first.startTime ≤ 2 ^ 32 - 1 ∧ now / 1000 ≤ 2 ^ 32 - 1 ∨ first.startTime = (now / 1000 : Nat))

instance (first : QueuedTask) (now : Nat) : Decidable (FitsTimer first now) :=
  inferInstanceAs (Decidable (_ ∧ _))

theorem toTimeT_eq_min {seconds : Int} (h : 0 ≤ seconds) :
    toTimeT seconds = min seconds (2 ^ 32 - 1) := by
  rw [toTimeT]
  split_ifs <;> omega

theorem multiple_of_thousandfold {x k : Int} (h : 2 ^ 32 * k = 1000 * x) :
    x = 2 ^ 29 * (k / 125) := by omega

theorem capped_distance {start n m : Int}
    (hrange : -2 ^ 31 ≤ 1000 * (start - n) ∧ 1000 * (start - n) < 2 ^ 31)
    (hm : start - n - (min start (2 ^ 32 - 1) - min n (2 ^ 32 - 1)) = 2 ^ 29 * m) :
    start ≤ 2 ^ 32 - 1 ∧ n ≤ 2 ^ 32 - 1 ∨ start = n := by
  omega

theorem interval_eq_iff {t : QueuedTask} (ht : 0 ≤ t.startTime) (now : Nat) :
    interval t now = distance t now ↔ FitsTimer t now := by
  have hnow : (0 : Int) ≤ (now : Int) / 1000 := by omega
  have hcast : ((now / 1000 : Nat) : Int) = (now : Int) / 1000 := Int.natCast_ediv now 1000
  have hfits : now / 1000 ≤ 2 ^ 32 - 1 ↔ (now : Int) / 1000 ≤ 2 ^ 32 - 1 := by omega
  rw [FitsTimer, distance, hfits, hcast, interval, toTimeT_eq_min ht, toTimeT_eq_min hnow,
    Int.bmod_eq_iff (by decide), ← and_assoc]
  generalize (now : Int) / 1000 = n
  generalize t.startTime = start
  have hrange : ∀ x : Int, -(((2 ^ 32 : Nat) : Int) / 2) ≤ x ∧ x < (((2 ^ 32 : Nat) : Int) + 1) / 2 ↔
      -2 ^ 31 ≤ x ∧ x < 2 ^ 31 := by omega
  rw [hrange]
  refine and_congr_right fun hdistance => ?_
  constructor
  · rintro ⟨k, hk⟩
    have hmul : 2 ^ 32 * k =
        1000 * (start - n - (min start (2 ^ 32 - 1) - min n (2 ^ 32 - 1))) := by
      rw [Int.mul_sub]
      exact hk.symm
    exact capped_distance hdistance (multiple_of_thousandfold hmul)
  · intro h
    have heq : min start (2 ^ 32 - 1) - min n (2 ^ 32 - 1) = start - n := by omega
    rw [heq, Int.sub_self]
    exact Int.dvd_zero _

theorem byStart_future (now : Nat) {tasks : List QueuedTask} (hsorted : ByStart tasks) :
    ByStart (future now tasks) := hsorted.filter _

theorem startTime_nonneg_of_future {now : Nat} {tasks : List QueuedTask} {t : QueuedTask}
    (ht : t ∈ future now tasks) : 0 ≤ t.startTime := by
  have hle : (now : Int) ≤ 1000 * t.startTime := of_decide_eq_true (List.mem_filter.mp ht).2
  omega

section timer
variable [QtAlgorithms]

def constructTimer (s : Scheduller) (elapsed : Nat) : Except Fault (Option Int) := do
  let s ← checkTasks { s with tasks := s.saved }
  match s.tasks with
  | [] => return none
  | first :: _ => return some (interval first (s.now + elapsed))

/-- What `UpdateTasks` passes to it; whether a task is left is not asked. -/
def updateTimer (s : Scheduller) (elapsed : Nat) : Except Fault (Option Int) := do
  let s ← checkTasks { s with tasks := s.saved }
  match s.tasks with
  | [] => .error .indexOutOfRange
  | first :: _ => return some (interval first (s.now + elapsed))

theorem construct_eq_timer (s : Scheduller) (elapsed : Nat) :
    s.construct elapsed = do
      let checked ← checkTasks { s with tasks := s.saved }
      match ← constructTimer s elapsed with
      | none => return checked.wait elapsed
      | some msec => return (checked.wait elapsed).startTimer msec := by
  rw [construct, constructTimer]
  cases hc : checkTasks { s with tasks := s.saved } with
  | error f => rfl
  | ok checked =>
    obtain ⟨tasks, -, rfl⟩ := checkTasks_eq hc
    simp only [Bind.bind, Except.bind, wait]
    cases sorted tasks <;> rfl

theorem updateTasks_eq_timer (s : Scheduller) (elapsed : Nat) :
    s.updateTasks elapsed = do
      let checked ← checkTasks { s with tasks := s.saved }
      let checked := (checked.killTimer checked.cuurentTimerID).wait elapsed
      match ← updateTimer s elapsed with
      | none => return checked
      | some msec => return checked.startTimer msec := by
  rw [updateTasks, updateTimer]
  cases hc : checkTasks { s with tasks := s.saved } with
  | error f => rfl
  | ok checked =>
    obtain ⟨tasks, -, rfl⟩ := checkTasks_eq hc
    simp only [Bind.bind, Except.bind, wait, killTimer]
    cases sorted tasks <;> rfl

theorem checkTasks_of_sorted (s : Scheduller) (hsorted : ByStart s.saved) :
    checkTasks { s with tasks := s.saved } =
      .ok { s with tasks := sorted (future s.now s.saved), saved := sorted (future s.now s.saved) } := by
  have hprune : prune s.now [] s.saved = .ok (future s.now s.saved) := prune_of_sorted s.now hsorted
  rw [checkTasks, hprune]
  rfl

/-- Sorting a sorted queue may exchange tasks of one time, which no interval sees. -/
theorem head_sorted {β : Type} {f : QueuedTask → β}
    (hf : ∀ a b, a.startTime = b.startTime → f a = f b) {tasks : List QueuedTask}
    (hsorted : ByStart tasks) : (sorted tasks).head?.map f = tasks.head?.map f := by
  have htimes : (sorted tasks).map QueuedTask.startTime = tasks.map QueuedTask.startTime := by
    have hleft : ((sorted tasks).map QueuedTask.startTime).Pairwise (· ≤ ·) :=
      List.pairwise_map.mpr (sorted_pairwise tasks)
    have hright : (tasks.map QueuedTask.startTime).Pairwise (· ≤ ·) := List.pairwise_map.mpr hsorted
    exact List.Perm.eq_of_pairwise (fun a b _ _ => le_antisymm) hleft hright
      ((sorted_perm tasks).map _)
  cases hs : sorted tasks with
  | nil =>
    obtain rfl : tasks = [] := List.map_eq_nil_iff.mp (by rw [← htimes, hs]; rfl)
    rfl
  | cons a as =>
    rw [hs] at htimes
    cases tasks with
    | nil => exact absurd htimes (by simp)
    | cons b bs => exact congrArg some (hf a b (List.cons.inj htimes).1)

/-- The constructor sets the timer right whenever the distance to the first task
fits, `UpdateTasks` only where there is a first task. -/
theorem timers_right_iff (s : Scheduller) (elapsed : Nat) (hsorted : ByStart s.saved) :
    ∃ checked, checkTasks { s with tasks := s.saved } = .ok checked ∧
      (TimerRight checked.tasks (s.now + elapsed) (constructTimer s elapsed) ↔
        ∀ first ∈ (future s.now s.saved).head?, FitsTimer first (s.now + elapsed)) ∧
      (TimerRight checked.tasks (s.now + elapsed) (updateTimer s elapsed) ↔
        ∃ first ∈ (future s.now s.saved).head?, FitsTimer first (s.now + elapsed)) := by
  refine ⟨_, checkTasks_of_sorted s hsorted, ?_⟩
  have hright : (sorted (future s.now s.saved)).head?.map (fun t => distance t (s.now + elapsed)) =
      (future s.now s.saved).head?.map fun t => distance t (s.now + elapsed) :=
    head_sorted (fun a b h => by rw [distance, distance, h]) (byStart_future s.now hsorted)
  have hpassed : (sorted (future s.now s.saved)).head?.map (fun t => interval t (s.now + elapsed)) =
      (future s.now s.saved).head?.map fun t => interval t (s.now + elapsed) :=
    head_sorted (fun a b h => by rw [interval, interval, h]) (byStart_future s.now hsorted)
  rw [constructTimer, updateTimer, checkTasks_of_sorted s hsorted, TimerRight, TimerRight]
  simp only [Bind.bind, Except.bind, hright]
  cases hs : sorted (future s.now s.saved) with
  | nil =>
    rw [hs] at hpassed
    obtain hnone : (future s.now s.saved).head? = none := by simpa using hpassed.symm
    simp [hnone, Pure.pure, Except.pure]
  | cons a as =>
    rw [hs] at hpassed
    cases hf : (future s.now s.saved).head? with
    | none => simp [hf] at hpassed
    | some first =>
      have hmem : first ∈ future s.now s.saved := List.mem_of_mem_head? hf
      have hinterval : interval a (s.now + elapsed) = interval first (s.now + elapsed) := by
        simpa [hf] using hpassed
      have hiff := interval_eq_iff (startTime_nonneg_of_future hmem) (s.now + elapsed)
      simp [hinterval, hiff, Pure.pure, Except.pure]

end timer

theorem timers_right_soon :
    let s : Scheduller := unconstructed [pauseAt 4, pauseAt 8, pauseAt 30] 5000 0
    ∃ checked, @checkTasks insertionSorting { s with tasks := s.saved } = .ok checked ∧
      TimerRight checked.tasks (s.now + 20) (@constructTimer insertionSorting s 20) ∧
      TimerRight checked.tasks (s.now + 20) (@updateTimer insertionSorting s 20) := by
  intro s
  have hsorted : ByStart s.saved := by
    unfold ByStart
    decide
  obtain ⟨checked, hchecked, hconstruct, hupdate⟩ := @timers_right_iff insertionSorting s 20 hsorted
  have hfirst : (future s.now s.saved).head? = some ⟨1, pauseAt 8⟩ := by decide +kernel
  refine ⟨checked, hchecked, hconstruct.mpr fun first hmem => ?_, hupdate.mpr ⟨_, hfirst, ?_⟩⟩
  · rw [hfirst] at hmem
    obtain rfl := Option.some.inj hmem
    decide +kernel
  · decide +kernel

theorem timer_wraps : ¬ ∀ (_ : QtAlgorithms) (s : Scheduller) (elapsed : Nat), ByStart s.saved →
    ∀ checked, checkTasks { s with tasks := s.saved } = .ok checked →
      TimerRight checked.tasks (s.now + elapsed) (constructTimer s elapsed) ∧
        TimerRight checked.tasks (s.now + elapsed) (updateTimer s elapsed) := by
  intro h
  have hright := (h insertionSorting (unconstructed [pauseAt 2160000] 0 0) 0
    (List.pairwise_singleton _ _) _ (@checkTasks_of_sorted insertionSorting _
      (List.pairwise_singleton _ _))).1
  revert hright
  unfold TimerRight
  decide +kernel

theorem checkLoop_drops_first :
    ∃ l', checkLoop 5000 3 ⟨fun k => ⟨k, pauseAt k⟩, 4, 6, by decide⟩ 4 = some (.ok l') ∧
      l'.toList = future 5000 [⟨4, pauseAt 4⟩, ⟨5, pauseAt 5⟩] :=
  checkLoop_leaves_future 5000 ⟨fun k => ⟨k, pauseAt k⟩, 4, 6, by decide⟩
    (by unfold ByStart; decide) 3 (by decide)

end Scheduller
end CuteTorrent
