import Mathlib.Data.List.Infix
import Mathlib.Data.List.Nodup
import CuteTorrent.Library.Runs

/-! The counted instances: one object of a class, made with the first
`getInstance` and deleted with the last `freeInstance`. -/
namespace CuteTorrent

/-- The static members of the class, the number of objects made so far, which
are called 0, 1, 2 in the order they are made, and those deleted. -/
structure Instance where
  m_pInstance : Option Nat
  m_nInstanceCount : Int
  created : Nat
  deleted : List Nat
deriving DecidableEq, Repr

inductive InstanceOp where
  | getInstance
  | freeInstance
deriving DecidableEq, Repr

namespace Instance

def initial : Instance := ⟨none, 0, 0, []⟩

def getInstance (i : Instance) : Instance × Option Nat :=
  let i := if i.m_pInstance = none then
    { i with m_pInstance := some i.created, created := i.created + 1 } else i
  let i := { i with m_nInstanceCount := i.m_nInstanceCount + 1 }
  (i, i.m_pInstance)

/-- `resets` is whether the pointer becomes `NULL` again with the object's end. To
delete `NULL` does nothing. -/
def freeInstance (resets : Bool) (i : Instance) : Instance :=
  let i := { i with m_nInstanceCount := i.m_nInstanceCount - 1 }
  if i.m_nInstanceCount = 0 then
    { i with
      deleted := i.deleted ++ i.m_pInstance.toList
      m_pInstance := if resets then none else i.m_pInstance }
  else i

def step (resets : Bool) (i : Instance) : InstanceOp → Instance
  | .getInstance => i.getInstance.1
  | .freeInstance => i.freeInstance resets

def Live (i : Instance) (p : Nat) : Prop := p < i.created ∧ p ∉ i.deleted

instance (i : Instance) (p : Nat) : Decidable (i.Live p) := inferInstanceAs (Decidable (_ ∧ _))

def HandsOutLive (i : Instance) (op : InstanceOp) : Prop :=
  op = .getInstance → ∃ p ∈ i.getInstance.2, i.getInstance.1.Live p

def Freed (i : Instance) : Prop := i.m_pInstance ≠ none ∧ i.m_nInstanceCount = 0

instance (i : Instance) : Decidable i.Freed := inferInstanceAs (Decidable (_ ∧ _))

def Matches (i : Instance) (op : InstanceOp) : Prop :=
  op = .freeInstance → 0 < i.m_nInstanceCount

/-- The object lives as long as the count is positive, and nothing is deleted twice. -/
structure WF (i : Instance) : Prop where
  count_nonneg : 0 ≤ i.m_nInstanceCount
  live : 0 < i.m_nInstanceCount → ∃ p ∈ i.m_pInstance, i.Live p
  gone : i.m_nInstanceCount = 0 → ∀ p ∈ i.m_pInstance, p ∈ i.deleted
  deleted_lt : ∀ p ∈ i.deleted, p < i.created
  deleted_nodup : i.deleted.Nodup

theorem wf_initial : initial.WF where
  count_nonneg := Int.le_refl 0
  live h := absurd h (Int.lt_irrefl 0)
  gone _ := by simp [initial]
  deleted_lt := by simp [initial]
  deleted_nodup := List.nodup_nil

theorem getInstance_of_none {i : Instance} (h : i.m_pInstance = none) :
    i.getInstance = ({ i with
      m_pInstance := some i.created
      created := i.created + 1
      m_nInstanceCount := i.m_nInstanceCount + 1 }, some i.created) := by
  simp [getInstance, h]

theorem getInstance_of_ne_none {i : Instance} (h : i.m_pInstance ≠ none) :
    i.getInstance =
      ({ i with m_nInstanceCount := i.m_nInstanceCount + 1 }, i.m_pInstance) := by
  simp [getInstance, h]

@[simp] theorem count_getInstance (i : Instance) :
    i.getInstance.1.m_nInstanceCount = i.m_nInstanceCount + 1 := by
  by_cases h : i.m_pInstance = none
  · rw [getInstance_of_none h]
  · rw [getInstance_of_ne_none h]

@[simp] theorem count_freeInstance (resets : Bool) (i : Instance) :
    (i.freeInstance resets).m_nInstanceCount = i.m_nInstanceCount - 1 := by
  simp only [freeInstance]
  split
  · rfl
  · rfl

theorem handsOutLive_get_iff {i : Instance} (h : i.WF) :
    i.HandsOutLive .getInstance ↔ ¬ i.Freed := by
  have hiff : i.HandsOutLive .getInstance ↔ ∃ p ∈ i.getInstance.2, i.getInstance.1.Live p :=
    ⟨fun hlive => hlive rfl, fun hlive _ => hlive⟩
  rw [hiff]
  by_cases hnone : i.m_pInstance = none
  · rw [getInstance_of_none hnone]
    refine iff_of_true ⟨i.created, rfl, Nat.lt_succ_self _, ?_⟩ fun hfreed => hfreed.1 hnone
    exact fun hmem => Nat.lt_irrefl _ (h.deleted_lt _ hmem)
  · rw [getInstance_of_ne_none hnone]
    constructor
    · rintro ⟨p, hp, hlive⟩ hfreed
      exact hlive.2 (h.gone hfreed.2 p hp)
    · intro hfreed
      have hne : i.m_nInstanceCount ≠ 0 := fun hzero => hfreed ⟨hnone, hzero⟩
      have hnonneg := h.count_nonneg
      exact h.live (by omega)

theorem wf_getInstance {i : Instance} (h : i.WF) (hlive : ¬ i.Freed) : i.getInstance.1.WF := by
  have hnonneg := h.count_nonneg
  have hget := (handsOutLive_get_iff h).mpr hlive rfl
  by_cases hnone : i.m_pInstance = none
  · rw [getInstance_of_none hnone] at hget ⊢
    exact {
      count_nonneg := by simp only; omega
      live := fun _ => hget
      gone := fun hzero => by simp only at hzero; omega
      deleted_lt := fun p hp => Nat.lt_succ_of_lt (h.deleted_lt p hp)
      deleted_nodup := h.deleted_nodup }
  · rw [getInstance_of_ne_none hnone] at hget ⊢
    exact {
      count_nonneg := by simp only; omega
      live := fun _ => hget
      gone := fun hzero => by simp only at hzero; omega
      deleted_lt := h.deleted_lt
      deleted_nodup := h.deleted_nodup }

theorem freeInstance_of_last (resets : Bool) {i : Instance} (h : i.m_nInstanceCount = 1) :
    i.freeInstance resets = { i with
      m_nInstanceCount := 0
      deleted := i.deleted ++ i.m_pInstance.toList
      m_pInstance := if resets then none else i.m_pInstance } := by
  simp [freeInstance, h]

theorem freeInstance_of_ne (resets : Bool) {i : Instance} (h : i.m_nInstanceCount ≠ 1) :
    i.freeInstance resets = { i with m_nInstanceCount := i.m_nInstanceCount - 1 } := by
  have hne : i.m_nInstanceCount - 1 ≠ 0 := by omega
  simp [freeInstance, hne]

theorem wf_freeInstance (resets : Bool) {i : Instance} (h : i.WF) (hpos : 0 < i.m_nInstanceCount) :
    (i.freeInstance resets).WF := by
  by_cases hlast : i.m_nInstanceCount = 1
  · obtain ⟨p, hp, hlt, hlive⟩ := h.live hpos
    rw [Option.mem_def] at hp
    rw [freeInstance_of_last resets hlast, hp, Option.toList_some]
    exact {
      count_nonneg := Int.le_refl 0
      live := fun hpos => absurd hpos (Int.lt_irrefl 0)
      gone := fun _ q hq => by
        cases resets with
        | true => cases hq
        | false =>
          cases hq
          exact List.mem_append_right _ (List.mem_singleton_self _)
      deleted_lt := fun q hq => by
        rcases List.mem_append.mp hq with hq | hq
        · exact h.deleted_lt q hq
        · exact List.mem_singleton.mp hq ▸ hlt
      deleted_nodup := List.nodup_append.mpr
        ⟨h.deleted_nodup, List.nodup_singleton p, fun q hq r hr => by
          rw [List.mem_singleton.mp hr]
          exact fun he => hlive (he ▸ hq)⟩ }
  · rw [freeInstance_of_ne resets hlast]
    exact {
      count_nonneg := by simp only; omega
      live := fun _ => h.live hpos
      gone := fun hzero => by simp only at hzero; omega
      deleted_lt := h.deleted_lt
      deleted_nodup := h.deleted_nodup }

theorem wf_step (resets : Bool) {i : Instance} {op : InstanceOp} (h : i.WF) (hmatch : i.Matches op)
    (hlive : op = .getInstance → ¬ i.Freed) : (i.step resets op).WF := by
  cases op with
  | getInstance => exact wf_getInstance h (hlive rfl)
  | freeInstance => exact wf_freeInstance resets h (hmatch rfl)

/-- Where the pointer is set back, none of an object that is gone is left. -/
theorem not_freed_of_resets {i : Instance} {op : InstanceOp} (h : i.WF) (hmatch : i.Matches op) :
    ¬ (i.step true op).Freed := by
  rintro ⟨hptr, hzero⟩
  have hnonneg := h.count_nonneg
  cases op with
  | getInstance =>
    rw [step, count_getInstance] at hzero
    omega
  | freeInstance =>
    have hlast : i.m_nInstanceCount = 1 := by
      rw [step, count_freeInstance] at hzero
      omega
    rw [step, freeInstance_of_last true hlast] at hptr
    exact hptr rfl

end Instance

/-- The siblings that set the pointer back. -/
def TorrentTracker.freeInstance : Instance → Instance := Instance.freeInstance true

def RconWebService.freeInstance : Instance → Instance := Instance.freeInstance true

namespace Instance

/-- In a class that sets its pointer back every instance handed out is live. -/
theorem live_of_resets {ops : List InstanceOp}
    (hmatch : Runs.Along (step true) Matches initial ops) :
    Runs.Along (step true) HandsOutLive initial ops ∧
      Runs.Throughout (step true) (fun i => i.deleted.Nodup) initial ops := by
  have hkept : Runs.Throughout (step true) (fun i => i.WF ∧ ¬ i.Freed) initial ops := by
    refine Runs.throughout_of_along ?_ ⟨wf_initial, by decide⟩ hmatch
    rintro i op ⟨hwf, hlive⟩ hmatches
    exact ⟨wf_step true hwf hmatches fun _ => hlive, not_freed_of_resets hwf hmatches⟩
  constructor
  · refine Runs.along_of_throughout ?_ hkept
    rintro i op ⟨hwf, hlive⟩ rfl
    exact (handsOutLive_get_iff hwf).mpr hlive rfl
  · exact hkept.imp fun i hi => hi.1.deleted_nodup

end Instance

inductive Storrage where
  | torrentStorrage
  | searchItemsStorrage
deriving DecidableEq, Repr

instance {P : Storrage → Prop} [DecidablePred P] : Decidable (∀ c, P c) :=
  decidable_of_iff (P .torrentStorrage ∧ P .searchItemsStorrage)
    ⟨fun h c => match c with
      | .torrentStorrage => h.1
      | .searchItemsStorrage => h.2,
    fun h => ⟨h _, h _⟩⟩

def TorrentStorrage.getInstance : Instance → Instance × Option Nat := Instance.getInstance

def TorrentStorrage.freeInstance : Instance → Instance := Instance.freeInstance false

def SearchItemsStorrage.getInstance : Instance → Instance × Option Nat := Instance.getInstance

def SearchItemsStorrage.freeInstance : Instance → Instance := Instance.freeInstance false

structure InstanceCall where
  storrage : Storrage
  op : InstanceOp
deriving DecidableEq, Repr

namespace Storrage

def getInstance : Storrage → Instance → Instance × Option Nat
  | .torrentStorrage => TorrentStorrage.getInstance
  | .searchItemsStorrage => SearchItemsStorrage.getInstance

def freeInstance : Storrage → Instance → Instance
  | .torrentStorrage => TorrentStorrage.freeInstance
  | .searchItemsStorrage => SearchItemsStorrage.freeInstance

def perform (c : Storrage) (i : Instance) : InstanceOp → Instance
  | .getInstance => (c.getInstance i).1
  | .freeInstance => c.freeInstance i

@[simp] theorem getInstance_eq (c : Storrage) : c.getInstance = Instance.getInstance := by
  cases c <;> rfl

theorem perform_eq (c : Storrage) (i : Instance) (op : InstanceOp) :
    c.perform i op = i.step false op := by
  cases c <;> cases op <;> rfl

def initial : Storrage → Instance := fun _ => Instance.initial

def step (s : Storrage → Instance) (call : InstanceCall) : Storrage → Instance := fun c =>
  if c = call.storrage then c.perform (s c) call.op else s c

def HandsOutLive (s : Storrage → Instance) (call : InstanceCall) : Prop :=
  call.op = .getInstance → ∃ p ∈ (call.storrage.getInstance (s call.storrage)).2,
    (step s call call.storrage).Live p

def DeletedOnce (s : Storrage → Instance) : Prop := ∀ c, (s c).deleted.Nodup

def Matched (calls : List InstanceCall) : Prop :=
  ∀ before ∈ calls.inits, ∀ c : Storrage,
    before.count ⟨c, .freeInstance⟩ ≤ before.count ⟨c, .getInstance⟩

instance (calls : List InstanceCall) : Decidable (Matched calls) :=
  inferInstanceAs (Decidable (∀ before ∈ calls.inits, ∀ c : Storrage,
    before.count ⟨c, .freeInstance⟩ ≤ before.count ⟨c, .getInstance⟩))

/-- `getInstance` is not called on a class whose last instance has been freed. -/
def NotFreed (s : Storrage → Instance) (call : InstanceCall) : Prop :=
  call.op = .getInstance → ¬ (s call.storrage).Freed

theorem step_self (s : Storrage → Instance) (call : InstanceCall) :
    step s call call.storrage = (s call.storrage).step false call.op := by
  rw [step, if_pos rfl, perform_eq]

theorem step_of_ne (s : Storrage → Instance) {call : InstanceCall} {c : Storrage}
    (h : c ≠ call.storrage) : step s call c = s c := by
  rw [step, if_neg h]

theorem count_step (s : Storrage → Instance) (call : InstanceCall) (c : Storrage) :
    (step s call c).m_nInstanceCount = (s c).m_nInstanceCount +
      ([call].count ⟨c, .getInstance⟩ : Nat) - ([call].count ⟨c, .freeInstance⟩ : Nat) := by
  obtain ⟨storrage, op⟩ := call
  by_cases hc : c = storrage
  · subst hc
    rw [step_self]
    cases op with
    | getInstance => simp [Instance.step]
    | freeInstance => simp [Instance.step]
  · rw [step_of_ne s hc]
    simp [Ne.symm hc]

theorem matches_of_matched {calls : List InstanceCall} {s : Storrage → Instance}
    (h : ∀ before, before <+: calls → ∀ c : Storrage,
      ((before.count ⟨c, .freeInstance⟩ : Nat) : Int) ≤
        (s c).m_nInstanceCount + (before.count ⟨c, .getInstance⟩ : Nat)) :
    Runs.Along step (fun s call => (s call.storrage).Matches call.op) s calls := by
  induction calls generalizing s with
  | nil => trivial
  | cons call calls ih =>
    constructor
    · intro hop
      have hfirst := h [call] (List.prefix_append [call] calls) call.storrage
      obtain ⟨storrage, op⟩ := call
      subst hop
      have hone : 1 ≤ (s storrage).m_nInstanceCount := by
        simpa [List.count_singleton] using hfirst
      exact hone
    · refine ih fun before hbefore c => ?_
      have hnext := h (call :: before) ((List.prefix_cons_inj call).mpr hbefore) c
      rw [← List.singleton_append, List.count_append, List.count_append] at hnext
      rw [count_step]
      omega

theorem wf_step {s : Storrage → Instance} {call : InstanceCall} (h : ∀ c, (s c).WF)
    (hmatch : (s call.storrage).Matches call.op) (hlive : NotFreed s call) (c : Storrage) :
    (step s call c).WF := by
  by_cases hc : c = call.storrage
  · subst hc
    rw [step_self]
    exact Instance.wf_step false (h _) hmatch hlive
  · rw [step_of_ne s hc]
    exact h c

theorem handsOutLive_iff {s : Storrage → Instance} (h : ∀ c, (s c).WF) (call : InstanceCall) :
    HandsOutLive s call ↔ NotFreed s call := by
  have hself : HandsOutLive s call ↔ (call.op = .getInstance →
      (s call.storrage).HandsOutLive .getInstance) := by
    refine forall_congr' fun hop => ?_
    rw [step_self, hop, getInstance_eq]
    exact ⟨fun hlive _ => hlive, fun hlive => hlive rfl⟩
  rw [hself]
  exact forall_congr' fun _ => Instance.handsOutLive_get_iff (h _)

/-- The storages hand out live objects, and delete each once, exactly as long as none of
them is asked for again after its last instance has been freed. -/
theorem handsOutLive_iff_notFreed (calls : List InstanceCall) (h : Matched calls) :
    (Runs.Along step HandsOutLive initial calls ∧ Runs.Throughout step DeletedOnce initial calls) ↔
      Runs.Along step NotFreed initial calls := by
  have hmatch : Runs.Along step (fun s call => (s call.storrage).Matches call.op) initial calls := by
    refine matches_of_matched fun before hbefore c => ?_
    have hle := h before (List.mem_inits _ _ |>.mpr hbefore) c
    simp only [initial, Instance.initial]
    omega
  have hstart : ∀ c, (initial c).WF := fun _ => Instance.wf_initial
  have hkept : ∀ (s : Storrage → Instance) call, (∀ c, (s c).WF) →
      (s call.storrage).Matches call.op ∧ NotFreed s call → ∀ c, (step s call c).WF :=
    fun s call hwf hstep => wf_step hwf hstep.1 hstep.2
  have hsame : ∀ (s : Storrage → Instance) call, (∀ c, (s c).WF) →
      ((s call.storrage).Matches call.op ∧ NotFreed s call ↔
        (s call.storrage).Matches call.op ∧ HandsOutLive s call) :=
    fun s call hwf => and_congr_right' (handsOutLive_iff hwf call).symm
  have hlive : Runs.Along step HandsOutLive initial calls ↔ Runs.Along step NotFreed initial calls := by
    have hboth := Runs.along_iff_along hsame hkept hstart calls
    rw [Runs.along_and, Runs.along_and, and_iff_right hmatch, and_iff_right hmatch] at hboth
    exact hboth.symm
  rw [hlive, and_iff_left_iff_imp]
  intro hfreed
  have hwf := Runs.throughout_of_along hkept hstart (Runs.along_and.mpr ⟨hmatch, hfreed⟩)
  exact hwf.imp fun s hs c => (hs c).deleted_nodup

theorem handsOutLive_iff_notFreed_twice :
    (Runs.Along step HandsOutLive initial [⟨.torrentStorrage, .getInstance⟩,
        ⟨.torrentStorrage, .getInstance⟩, ⟨.torrentStorrage, .freeInstance⟩] ∧
      Runs.Throughout step DeletedOnce initial [⟨.torrentStorrage, .getInstance⟩,
        ⟨.torrentStorrage, .getInstance⟩, ⟨.torrentStorrage, .freeInstance⟩]) ↔
      Runs.Along step NotFreed initial [⟨.torrentStorrage, .getInstance⟩,
        ⟨.torrentStorrage, .getInstance⟩, ⟨.torrentStorrage, .freeInstance⟩] :=
  handsOutLive_iff_notFreed _ (by decide)

theorem got_again_dangles :
    ¬ ∀ calls, Matched calls →
      Runs.Along step HandsOutLive initial calls ∧
        Runs.Throughout step DeletedOnce initial calls := by
  intro h
  obtain ⟨hlive, -⟩ := h [⟨.torrentStorrage, .getInstance⟩, ⟨.torrentStorrage, .freeInstance⟩,
    ⟨.torrentStorrage, .getInstance⟩] (by decide)
  obtain ⟨p, hp, -, hkept⟩ := hlive.2.2.1 rfl
  cases hp
  exact hkept (by decide)

/-- The second free of such a store deletes it once more. -/
example : (step (step (step (step initial ⟨.searchItemsStorrage, .getInstance⟩)
    ⟨.searchItemsStorrage, .freeInstance⟩) ⟨.searchItemsStorrage, .getInstance⟩)
    ⟨.searchItemsStorrage, .freeInstance⟩ .searchItemsStorrage).deleted = [0, 0] := by decide

end Storrage
end CuteTorrent
