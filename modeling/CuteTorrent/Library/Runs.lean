import Mathlib.Data.List.Basic

/-! Runs of a total step function: conditions on the steps of a run against
properties of the states it passes. -/
namespace Runs
variable {σ α : Type*}

def final (step : σ → α → σ) (s : σ) (as : List α) : σ := as.foldl step s

/-- Every step of the run meets `C` in the state it is taken from. -/
def Along (step : σ → α → σ) (C : σ → α → Prop) : σ → List α → Prop
  | _, [] => True
  | s, a :: as => C s a ∧ Along step C (step s a) as

/-- Every state of the run, the first and the last included, has `P`. -/
def Throughout (step : σ → α → σ) (P : σ → Prop) : σ → List α → Prop
  | s, [] => P s
  | s, a :: as => P s ∧ Throughout step P (step s a) as

variable {step : σ → α → σ}

@[simp] theorem final_nil (s : σ) : final step s [] = s := rfl

@[simp] theorem final_cons (s : σ) (a : α) (as : List α) :
    final step s (a :: as) = final step (step s a) as := rfl

theorem Throughout.head {P : σ → Prop} {s : σ} {as : List α} (h : Throughout step P s as) : P s := by
  cases as with
  | nil => exact h
  | cons a as => exact h.1

theorem Throughout.last {P : σ → Prop} {s : σ} {as : List α} (h : Throughout step P s as) :
    P (final step s as) := by
  induction as generalizing s with
  | nil => exact h
  | cons a as ih => exact ih h.2

theorem Throughout.imp {P Q : σ → Prop} (hPQ : ∀ s, P s → Q s) {s : σ} {as : List α}
    (h : Throughout step P s as) : Throughout step Q s as := by
  induction as generalizing s with
  | nil => exact hPQ s h
  | cons a as ih => exact ⟨hPQ s h.1, ih h.2⟩

/-- The induction of every invariant in this development. -/
theorem throughout_of_step {P : σ → Prop} (hstep : ∀ s a, P s → P (step s a)) {s : σ} (h : P s)
    (as : List α) : Throughout step P s as := by
  induction as generalizing s with
  | nil => exact h
  | cons a as ih => exact ⟨h, ih (hstep s a h)⟩

theorem final_of_step {P : σ → Prop} (hstep : ∀ s a, P s → P (step s a)) {s : σ} (h : P s)
    (as : List α) : P (final step s as) :=
  (throughout_of_step hstep h as).last

/-- A per-step equivalence under the property lifts to runs: the property holds
in every state exactly when every step meets the condition. -/
theorem throughout_iff_along {P : σ → Prop} {C : σ → α → Prop}
    (hstep : ∀ s a, P s → (P (step s a) ↔ C s a)) {s : σ} (h : P s) (as : List α) :
    Throughout step P s as ↔ Along step C s as := by
  induction as generalizing s with
  | nil => exact ⟨fun _ => trivial, fun _ => h⟩
  | cons a as ih =>
    constructor
    · intro ht
      have hc : C s a := (hstep s a h).mp ht.2.head
      exact ⟨hc, (ih ((hstep s a h).mpr hc)).mp ht.2⟩
    · intro ha
      exact ⟨h, (ih ((hstep s a h).mpr ha.1)).mpr ha.2⟩

theorem throughout_of_along {I : σ → Prop} {C : σ → α → Prop}
    (hstep : ∀ s a, I s → C s a → I (step s a)) {s : σ} (h : I s) {as : List α}
    (hc : Along step C s as) : Throughout step I s as := by
  induction as generalizing s with
  | nil => exact h
  | cons a as ih => exact ⟨h, ih (hstep s a h hc.1) hc.2⟩

theorem along_of_throughout {I : σ → Prop} {C : σ → α → Prop} (hC : ∀ s a, I s → C s a) {s : σ}
    {as : List α} (h : Throughout step I s as) : Along step C s as := by
  induction as generalizing s with
  | nil => trivial
  | cons a as ih => exact ⟨hC s a h.1, ih h.2⟩

theorem throughout_and {P Q : σ → Prop} {s : σ} {as : List α} :
    Throughout step (fun s => P s ∧ Q s) s as ↔ Throughout step P s as ∧ Throughout step Q s as := by
  induction as generalizing s with
  | nil => exact Iff.rfl
  | cons a as ih =>
    rw [Throughout, Throughout, Throughout, ih]
    exact and_and_and_comm

theorem along_append {C : σ → α → Prop} {s : σ} {as bs : List α} :
    Along step C s (as ++ bs) ↔ Along step C s as ∧ Along step C (final step s as) bs := by
  induction as generalizing s with
  | nil => exact (and_iff_right trivial).symm
  | cons a as ih =>
    rw [List.cons_append, Along, Along, ih, final_cons, and_assoc]

theorem along_and {C D : σ → α → Prop} {s : σ} {as : List α} :
    Along step (fun s a => C s a ∧ D s a) s as ↔ Along step C s as ∧ Along step D s as := by
  induction as generalizing s with
  | nil => exact (and_self_iff).symm
  | cons a as ih =>
    rw [Along, Along, Along, ih]
    exact and_and_and_comm

/-- Two step conditions that agree on invariant states hold along the same runs,
as long as the steps that meet the first keep the invariant. -/
theorem along_iff_along {I : σ → Prop} {C D : σ → α → Prop}
    (hCD : ∀ s a, I s → (C s a ↔ D s a)) (hI : ∀ s a, I s → C s a → I (step s a))
    {s : σ} (h : I s) (as : List α) : Along step C s as ↔ Along step D s as := by
  induction as generalizing s with
  | nil => exact Iff.rfl
  | cons a as ih =>
    constructor
    · intro ⟨hc, ht⟩
      exact ⟨(hCD s a h).mp hc, (ih (hI s a h hc)).mp ht⟩
    · intro ⟨hd, ht⟩
      have hc : C s a := (hCD s a h).mpr hd
      exact ⟨hc, (ih (hI s a h hc)).mpr ht⟩

section fallible
variable {ε τ : Type*} {visit : σ → α → Except ε σ} {Good : σ → Prop}

theorem good_of_foldlM {s s' : σ} {as : List α}
    (hback : ∀ s a s', visit s a = .ok s' → Good s' → Good s)
    (hrun : as.foldlM visit s = .ok s') (h : Good s') : Good s := by
  induction as generalizing s with
  | nil =>
    cases hrun
    exact h
  | cons a as ih =>
    rw [List.foldlM_cons] at hrun
    cases hvisit : visit s a with
    | error e =>
      rw [hvisit] at hrun
      cases hrun
    | ok t =>
      rw [hvisit] at hrun
      exact hback s a t hvisit (ih hrun)

theorem invariant_of_foldlM {I : σ → Prop} (hstep : ∀ s a s', I s → visit s a = .ok s' → I s')
    {s s' : σ} {as : List α} (h : I s) (hrun : as.foldlM visit s = .ok s') : I s' := by
  induction as generalizing s with
  | nil =>
    cases hrun
    exact h
  | cons a as ih =>
    rw [List.foldlM_cons] at hrun
    cases hvisit : visit s a with
    | error e =>
      rw [hvisit] at hrun
      cases hrun
    | ok t =>
      rw [hvisit] at hrun
      exact ih (hstep s a t h hvisit) hrun

/-- Steps that may fail, beside total steps on an abstraction of the state: where each good
step is an allowed one and each allowed step is good, a run ends well exactly when the
abstract run is allowed all along. -/
theorem foldlM_good_iff_along {abs : σ → τ} {next : τ → α → τ} {Allowed : τ → α → Prop}
    (hforth : ∀ s a, Good s → Allowed (abs s) a →
      ∃ s', visit s a = .ok s' ∧ Good s' ∧ abs s' = next (abs s) a)
    (hback : ∀ s a s', visit s a = .ok s' → Good s' → Good s ∧ Allowed (abs s) a)
    {s : σ} (h : Good s) (as : List α) :
    (∃ s', as.foldlM visit s = .ok s' ∧ Good s') ↔ Along next Allowed (abs s) as := by
  induction as generalizing s with
  | nil => exact iff_of_true ⟨s, rfl, h⟩ trivial
  | cons a as ih =>
    constructor
    · rintro ⟨s', hrun, hgood⟩
      rw [List.foldlM_cons] at hrun
      cases hvisit : visit s a with
      | error e =>
        rw [hvisit] at hrun
        cases hrun
      | ok t =>
        rw [hvisit] at hrun
        have ht : Good t := good_of_foldlM (fun s a s' hv hg => (hback s a s' hv hg).1) hrun hgood
        have hallowed := (hback s a t hvisit ht).2
        obtain ⟨t', hvisit', -, habs⟩ := hforth s a h hallowed
        cases hvisit.symm.trans hvisit'
        exact ⟨hallowed, habs ▸ (ih ht).mp ⟨s', hrun, hgood⟩⟩
    · rintro ⟨hallowed, hrest⟩
      obtain ⟨t, hvisit, ht, habs⟩ := hforth s a h hallowed
      obtain ⟨s', hrun, hgood⟩ := (ih ht).mpr (habs ▸ hrest)
      refine ⟨s', ?_, hgood⟩
      rw [List.foldlM_cons, hvisit]
      exact hrun

/-- No step fails, and every state of the run has `P`. -/
def ThroughoutOk (visit : σ → α → Except ε σ) (P : σ → Prop) : σ → List α → Prop
  | s, [] => P s
  | s, a :: as => P s ∧ ∃ s', visit s a = .ok s' ∧ ThroughoutOk visit P s' as

def AlongOk (visit : σ → α → Except ε σ) (C : σ → α → Prop) : σ → List α → Prop
  | _, [] => True
  | s, a :: as => C s a ∧ ∀ s', visit s a = .ok s' → AlongOk visit C s' as

theorem ThroughoutOk.head {P : σ → Prop} {s : σ} {as : List α} (h : ThroughoutOk visit P s as) :
    P s := by
  cases as with
  | nil => exact h
  | cons a as => exact h.1

/-- A per-step equivalence, under an invariant of the steps that succeed, lifts to runs. -/
theorem throughoutOk_iff_alongOk {I P : σ → Prop} {C : σ → α → Prop}
    (hI : ∀ s a s', I s → visit s a = .ok s' → I s')
    (hstep : ∀ s a, I s → P s → ((∃ s', visit s a = .ok s' ∧ P s') ↔ C s a)) {s : σ} (hs : I s)
    (h : P s) (as : List α) : ThroughoutOk visit P s as ↔ AlongOk visit C s as := by
  induction as generalizing s with
  | nil => exact iff_of_true h trivial
  | cons a as ih =>
    constructor
    · rintro ⟨-, s', hvisit, hrest⟩
      refine ⟨(hstep s a hs h).mp ⟨s', hvisit, hrest.head⟩, fun t ht => ?_⟩
      obtain rfl : s' = t := Except.ok.inj (hvisit.symm.trans ht)
      exact (ih (hI s a s' hs hvisit) hrest.head).mp hrest
    · rintro ⟨hC, hrest⟩
      obtain ⟨s', hvisit, hP⟩ := (hstep s a hs h).mpr hC
      exact ⟨h, s', hvisit, (ih (hI s a s' hs hvisit) hP).mpr (hrest s' hvisit)⟩

end fallible

end Runs
