import Mathlib.Data.List.Range
import CuteTorrent.Qt

/-! The notification balloons: one on the screen, the others in a queue behind it. -/
namespace CuteTorrent

structure QBalloonTip where
  finished : Bool
  timerRuns : Bool
  visible : Bool
deriving DecidableEq, Repr

/-- The balloons in the order they are made, those deleted being `none`, the static members
of the class, and which balloons have been shown so far. -/
structure Balloons where
  heap : List (Option QBalloonTip)
  current : Option Nat
  baloonQueue : List Nat
  displayed : List Nat
deriving DecidableEq, Repr

/-- What the program and its user do. A timer, a click and the button in the corner
concern one balloon. -/
inductive BalloonEvent where
  | showBalloon (timeout : Int)
  | timer (tip : Nat)
  | click (tip : Nat)
  | closeButton (tip : Nat)
deriving DecidableEq, Repr

namespace QBalloonTip

def new : QBalloonTip := { finished := false, timerRuns := false, visible := false }

def initial : Balloons := ⟨[], none, [], []⟩

def access (s : Balloons) (i : Nat) : Except Fault QBalloonTip :=
  match s.heap[i]? with
  | some (some tip) => .ok tip
  | _ => .error .nullPointer

def put (s : Balloons) (i : Nat) (tip : Option QBalloonTip) : Balloons :=
  { s with heap := s.heap.set i tip }

def balloon (s : Balloons) (i : Nat) (msecs : Int) : Except Fault Balloons := do
  let tip ← access s i
  let s := put s i (some { tip with timerRuns := tip.timerRuns || msecs > 0, visible := true })
  return { s with displayed := s.displayed ++ [i] }

def showBalloon (s : Balloons) (timeout : Int) : Except Fault Balloons := do
  let theSolitaryBalloonTip := s.heap.length
  let s := { s with heap := s.heap ++ [some new] }
  let timeout := if timeout ≤ 0 then 10000 else timeout
  match s.current with
  | some current =>
    if (← access s current).finished then
      balloon { s with current := some theSolitaryBalloonTip } theSolitaryBalloonTip timeout
    else
      return { s with baloonQueue := s.baloonQueue ++ [theSolitaryBalloonTip] }
  | none => balloon { s with current := some theSolitaryBalloonTip } theSolitaryBalloonTip timeout

def hideBalloon (s : Balloons) : Except Fault Balloons := do
  match s.current with
  | none => return s
  | some current =>
    let _ ← access s current
    return { put s current none with current := none }

/-- `close()` on any balloon: the handler works on the static members alone. -/
def closeEvent (s : Balloons) : Except Fault Balloons := do
  let s ← hideBalloon s
  match s.baloonQueue with
  | [] => return s
  | next :: baloonQueue => balloon { s with current := some next, baloonQueue } next 10000

def mousePressEvent (s : Balloons) (i : Nat) : Except Fault Balloons := do
  let tip ← access s i
  closeEvent (put s i (some { tip with finished := true }))

def timerEvent (s : Balloons) (i : Nat) : Except Fault Balloons := do
  let tip ← access s i
  closeEvent (put s i (some { tip with timerRuns := false, finished := true }))

def Visible (s : Balloons) (i : Nat) : Prop := ∃ tip, s.heap[i]? = some (some tip) ∧ tip.visible = true

def TimerRuns (s : Balloons) (i : Nat) : Prop :=
  ∃ tip, s.heap[i]? = some (some tip) ∧ tip.timerRuns = true

instance (s : Balloons) (i : Nat) : Decidable (Visible s i) :=
  decidable_of_iff (s.heap[i]?.any fun tip => tip.any (·.visible)) (by
    rcases h : s.heap[i]? with _ | (_ | tip) <;> simp [Visible, h])

instance (s : Balloons) (i : Nat) : Decidable (TimerRuns s i) :=
  decidable_of_iff (s.heap[i]?.any fun tip => tip.any (·.timerRuns)) (by
    rcases h : s.heap[i]? with _ | (_ | tip) <;> simp [TimerRuns, h])

def Closes (s : Balloons) : BalloonEvent → Prop
  | .showBalloon _ => False
  | .timer i => TimerRuns s i
  | .click i => Visible s i
  | .closeButton i => Visible s i

instance (s : Balloons) (e : BalloonEvent) : Decidable (Closes s e) := by
  cases e <;> unfold Closes <;> infer_instance

def step (s : Balloons) : BalloonEvent → Except Fault Balloons
  | .showBalloon timeout => showBalloon s timeout
  | .timer i => if TimerRuns s i then timerEvent s i else return s
  | .click i => if Visible s i then mousePressEvent s i else return s
  | .closeButton i => if Visible s i then closeEvent s else return s

def shown : QBalloonTip := { finished := false, timerRuns := true, visible := true }

/-- All there is to a state: how many balloons have been closed, and how many have been
requested and are not closed. The first of these is on the screen. -/
def ofCounts (closed : Nat) : Nat → Balloons
  | 0 => ⟨List.replicate closed none, none, [], List.range closed⟩
  | waiting + 1 => {
      heap := List.replicate closed none ++ some shown :: List.replicate waiting (some new)
      current := some closed
      baloonQueue := List.range' (closed + 1) waiting
      displayed := List.range (closed + 1) }

theorem ofCounts_zero : ofCounts 0 0 = initial := rfl

theorem getElem?_behind {closed : Nat} {tip : Option QBalloonTip} {rest : List (Option QBalloonTip)} :
    (List.replicate closed none ++ tip :: rest)[closed]? = some tip := by
  simp

theorem set_behind {closed : Nat} {tip tip' : Option QBalloonTip}
    {rest : List (Option QBalloonTip)} :
    (List.replicate closed none ++ tip :: rest).set closed tip' =
      List.replicate closed none ++ tip' :: rest := by
  simp

theorem balloon_new {closed : Nat} {rest : List (Option QBalloonTip)} {queue displayed : List Nat}
    {msecs : Int} (h : 0 < msecs) :
    balloon ⟨List.replicate closed none ++ some new :: rest, some closed, queue, displayed⟩
      closed msecs = .ok ⟨List.replicate closed none ++ some shown :: rest, some closed, queue,
        displayed ++ [closed]⟩ := by
  have hshown : (⟨new.finished, new.timerRuns || decide (msecs > 0), true⟩ : QBalloonTip) = shown := by
    simp [new, shown, h]
  unfold balloon access
  rw [getElem?_behind]
  simp only [put, set_behind]
  rw [← hshown]
  rfl

theorem showBalloon_ofCounts (closed requested : Nat) (timeout : Int) :
    showBalloon (ofCounts closed requested) timeout = .ok (ofCounts closed (requested + 1)) := by
  cases requested with
  | zero =>
    have hpos : 0 < if timeout ≤ 0 then 10000 else timeout := by split <;> omega
    simp only [showBalloon, ofCounts, List.length_replicate]
    rw [balloon_new hpos]
    simp [List.range_succ]
  | succ waiting =>
    have hheap : (List.replicate closed none ++ some shown :: List.replicate waiting (some new)) ++
        [some new] = List.replicate closed none ++
          some shown :: List.replicate (waiting + 1) (some new) := by
      rw [List.append_assoc, List.cons_append, ← List.replicate_succ']
    have hlength : (List.replicate closed none ++
        some shown :: List.replicate waiting (some new)).length = closed + 1 + waiting := by
      simp
      omega
    simp only [showBalloon, ofCounts, hheap, hlength]
    unfold access
    rw [getElem?_behind]
    rw [List.range'_1_concat]
    rfl

theorem closeEvent_ofCounts {closed waiting : Nat} (tip : QBalloonTip) :
    closeEvent (put (ofCounts closed (waiting + 1)) closed (some tip)) =
      .ok (ofCounts (closed + 1) waiting) := by
  have hhide : hideBalloon (put (ofCounts closed (waiting + 1)) closed (some tip)) =
      .ok { ofCounts closed (waiting + 1) with
        heap := List.replicate (closed + 1) none ++ List.replicate waiting (some new)
        current := none } := by
    simp only [hideBalloon, put, ofCounts, set_behind]
    unfold access
    rw [getElem?_behind, List.replicate_succ', List.append_assoc, List.singleton_append]
    rfl
  unfold closeEvent
  rw [hhide]
  cases waiting with
  | zero => simp [ofCounts, bind, Except.bind, pure, Except.pure]
  | succ waiting =>
    simp only [ofCounts, List.range'_succ, List.replicate_succ (n := waiting), bind, Except.bind]
    rw [balloon_new (by decide), ← List.range_succ]

theorem tip_ofCounts {closed requested i : Nat} {tip : QBalloonTip} :
    (ofCounts closed requested).heap[i]? = some (some tip) ↔
      (i = closed ∧ 0 < requested ∧ tip = shown) ∨
      (closed < i ∧ i < closed + requested ∧ tip = new) := by
  cases requested with
  | zero =>
    simp only [ofCounts, List.getElem?_replicate]
    split_ifs <;> simp <;> omega
  | succ waiting =>
    simp only [ofCounts]
    rcases Nat.lt_trichotomy i closed with hlt | rfl | hgt
    · rw [List.getElem?_append_left (by simpa using hlt), List.getElem?_replicate, if_pos hlt]
      simp
      omega
    · rw [getElem?_behind]
      simp [eq_comm]
    · obtain ⟨n, rfl⟩ : ∃ n, i = closed + (n + 1) := ⟨i - closed - 1, by omega⟩
      rw [List.getElem?_append_right (by simp), List.length_replicate, Nat.add_sub_cancel_left,
        List.getElem?_cons_succ, List.getElem?_replicate]
      split_ifs with hn
      · simp [eq_comm]
        omega
      · simp
        omega

theorem exists_tip_ofCounts {closed requested i : Nat} {P : QBalloonTip → Prop} (hshown : P shown)
    (hnew : ¬ P new) : (∃ tip, (ofCounts closed requested).heap[i]? = some (some tip) ∧ P tip) ↔
      i = closed ∧ 0 < requested := by
  simp only [tip_ofCounts]
  constructor
  · rintro ⟨tip, ⟨hi, hpos, rfl⟩ | ⟨-, -, rfl⟩, htip⟩
    · exact ⟨hi, hpos⟩
    · exact absurd htip hnew
  · rintro ⟨hi, hpos⟩
    exact ⟨shown, .inl ⟨hi, hpos, rfl⟩, hshown⟩

theorem visible_ofCounts {closed requested i : Nat} :
    Visible (ofCounts closed requested) i ↔ i = closed ∧ 0 < requested :=
  exists_tip_ofCounts rfl Bool.false_ne_true

theorem timerRuns_ofCounts {closed requested i : Nat} :
    TimerRuns (ofCounts closed requested) i ↔ i = closed ∧ 0 < requested :=
  exists_tip_ofCounts rfl Bool.false_ne_true

theorem put_shown {closed waiting : Nat} :
    put (ofCounts closed (waiting + 1)) closed (some shown) = ofCounts closed (waiting + 1) := by
  simp only [put, ofCounts, set_behind]

theorem access_ofCounts {closed waiting : Nat} :
    access (ofCounts closed (waiting + 1)) closed = .ok shown := by
  simp only [access, ofCounts, getElem?_behind]

theorem step_ofCounts_of_closes {closed requested : Nat} {e : BalloonEvent}
    (h : Closes (ofCounts closed requested) e) :
    step (ofCounts closed requested) e = .ok (ofCounts (closed + 1) (requested - 1)) ∧
      0 < requested := by
  cases e with
  | showBalloon timeout => exact h.elim
  | timer i =>
    have hhit : TimerRuns (ofCounts closed requested) i := h
    obtain ⟨rfl, hpos⟩ := timerRuns_ofCounts.mp hhit
    obtain ⟨waiting, rfl⟩ := Nat.exists_eq_add_one.mpr hpos
    refine ⟨?_, hpos⟩
    rw [step, if_pos hhit, timerEvent, access_ofCounts]
    exact closeEvent_ofCounts _
  | click i =>
    have hhit : Visible (ofCounts closed requested) i := h
    obtain ⟨rfl, hpos⟩ := visible_ofCounts.mp hhit
    obtain ⟨waiting, rfl⟩ := Nat.exists_eq_add_one.mpr hpos
    refine ⟨?_, hpos⟩
    rw [step, if_pos hhit, mousePressEvent, access_ofCounts]
    exact closeEvent_ofCounts _
  | closeButton i =>
    have hhit : Visible (ofCounts closed requested) i := h
    obtain ⟨rfl, hpos⟩ := visible_ofCounts.mp hhit
    obtain ⟨waiting, rfl⟩ := Nat.exists_eq_add_one.mpr hpos
    refine ⟨?_, hpos⟩
    rw [step, if_pos hhit, ← put_shown]
    exact closeEvent_ofCounts _

def IsRequest : BalloonEvent → Bool
  | .showBalloon _ => true
  | _ => false

theorem step_ofCounts_of_not_closes {closed requested : Nat} {e : BalloonEvent}
    (h : ¬ Closes (ofCounts closed requested) e) :
    step (ofCounts closed requested) e =
      .ok (ofCounts closed (requested + [e].countP IsRequest)) := by
  cases e with
  | showBalloon timeout => exact showBalloon_ofCounts closed requested timeout
  | timer i => exact if_neg h
  | click i => exact if_neg h
  | closeButton i => exact if_neg h

def closings : Balloons → List BalloonEvent → Nat
  | _, [] => 0
  | s, e :: events =>
    (if Closes s e then 1 else 0) +
      match step s e with
      | .ok s' => closings s' events
      | .error _ => 0

theorem closings_cons {s s' : Balloons} {e : BalloonEvent} (h : step s e = .ok s')
    (events : List BalloonEvent) :
    closings s (e :: events) = (if Closes s e then 1 else 0) + closings s' events := by
  rw [closings, h]

def requests (events : List BalloonEvent) : Nat := events.countP IsRequest

/-- A run counts requests and closings, and that is all it does. -/
theorem run_ofCounts (events : List BalloonEvent) (closed requested : Nat) :
    events.foldlM step (ofCounts closed requested) =
        .ok (ofCounts (closed + closings (ofCounts closed requested) events)
          (requested + requests events - closings (ofCounts closed requested) events)) ∧
      closings (ofCounts closed requested) events ≤ requested + requests events := by
  induction events generalizing closed requested with
  | nil => exact ⟨rfl, Nat.zero_le _⟩
  | cons e events ih =>
    rw [List.foldlM_cons]
    by_cases h : Closes (ofCounts closed requested) e
    · obtain ⟨hstep, hpos⟩ := step_ofCounts_of_closes h
      obtain ⟨hrun, hle⟩ := ih (closed + 1) (requested - 1)
      have hnot : requests (e :: events) = requests events := by
        cases e with
        | showBalloon timeout => exact h.elim
        | timer i => rfl
        | click i => rfl
        | closeButton i => rfl
      rw [closings_cons hstep, if_pos h, hstep, hnot]
      refine ⟨?_, by omega⟩
      refine hrun.trans (congrArg Except.ok ?_)
      congr 1 <;> omega
    · have hstep := step_ofCounts_of_not_closes h
      obtain ⟨hrun, hle⟩ := ih closed (requested + [e].countP IsRequest)
      have hcount : requests (e :: events) = [e].countP IsRequest + requests events := by
        rw [requests, ← List.singleton_append, List.countP_append]
        rfl
      rw [closings_cons hstep, if_neg h, hstep, hcount]
      refine ⟨?_, by omega⟩
      refine hrun.trans (congrArg Except.ok ?_)
      congr 1 <;> omega

theorem range_prefix_range {m n : Nat} (h : m ≤ n) : List.range m <+: List.range n := by
  have htake := List.take_prefix m (List.range n)
  rwa [List.take_range, Nat.min_eq_left h] at htake

theorem displayed_ofCounts (closed requested : Nat) :
    (ofCounts closed requested).displayed = List.range (closed + min requested 1) := by
  cases requested with
  | zero => rfl
  | succ waiting => simp [ofCounts]

/-- At most one balloon is on the screen, the balloons come there in the order of the
requests, and the one requested after `j` others is shown once when `j` have been closed. -/
theorem shown_once_in_order (events : List BalloonEvent) :
    ∃ s, events.foldlM step initial = .ok s ∧
      (∀ i j, Visible s i → Visible s j → i = j) ∧
      s.displayed <+: List.range (requests events) ∧
      ∀ j < requests events, j ≤ closings initial events → s.displayed.count j = 1 := by
  obtain ⟨hrun, hle⟩ := run_ofCounts events 0 0
  simp only [ofCounts_zero, Nat.zero_add] at hrun hle
  refine ⟨_, hrun, ?_, ?_, ?_⟩
  · intro i j hi hj
    rw [visible_ofCounts] at hi hj
    rw [hi.1, hj.1]
  · rw [displayed_ofCounts]
    exact range_prefix_range (by omega)
  · intro j hj hclosed
    rw [displayed_ofCounts]
    exact List.count_eq_one_of_mem List.nodup_range (List.mem_range.mpr (by omega))

theorem closing_follows (events : List BalloonEvent) (h : closings initial events < requests events) :
    ∃ s i, events.foldlM step initial = .ok s ∧ Visible s i ∧ TimerRuns s i := by
  obtain ⟨hrun, -⟩ := run_ofCounts events 0 0
  rw [ofCounts_zero] at hrun
  exact ⟨_, _, hrun, visible_ofCounts.mpr ⟨rfl, by omega⟩, timerRuns_ofCounts.mpr ⟨rfl, by omega⟩⟩

end QBalloonTip
end CuteTorrent
