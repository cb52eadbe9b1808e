import Mathlib.Data.List.Basic

/-! Loops that read from a buffer as long as there is input and their state has not
ended. -/
namespace Reader
variable {σ α ε : Type*} (ended : σ → Bool) (step : σ → List α → Except ε (σ × List α))

def rounds : Nat → σ → List α → Except ε (σ × List α)
  | 0, s, input => .ok (s, input)
  | n + 1, s, input =>
    if input.isEmpty || ended s then .ok (s, input)
    else do
      let (s, input) ← step s input
      rounds n s input

def gather (s : σ) (input : List α) : Except ε (σ × List α) :=
  rounds ended step (input.length + 1) s input

/-- Each step of an invariant state takes some of the input, or ends. -/
structure Shortens (I : σ → Prop) : Prop where
  keeps : ∀ {s input s' rest}, I s → ended s = false → input ≠ [] →
    step s input = .ok (s', rest) → I s'
  takes : ∀ {s input s' rest}, I s → ended s = false → input ≠ [] →
    step s input = .ok (s', rest) → rest <:+ input ∧ (rest.length < input.length ∨ ended s' = true)

variable {ended step} {I : σ → Prop}

theorem rounds_of_ended {s : σ} (h : ended s = true) (n : Nat) (input : List α) :
    rounds ended step n s input = .ok (s, input) := by
  cases n with
  | zero => rfl
  | succ n => simp [rounds, h]

theorem rounds_nil (s : σ) (n : Nat) : rounds ended step n s [] = .ok (s, []) := by
  cases n with
  | zero => rfl
  | succ n => rfl

theorem rounds_succ {s : σ} {input : List α} (hs : ended s = false) (hinput : input ≠ []) (n : Nat) :
    rounds ended step (n + 1) s input =
      step s input >>= fun next => rounds ended step n next.1 next.2 := by
  have hempty : input.isEmpty = false := by simpa using hinput
  rw [rounds, hempty, hs]
  rfl

theorem rounds_eq (h : Shortens ended step I) {m n : Nat} {s : σ} {input : List α} (hs : I s)
    (hm : input.length < m) (hn : input.length < n) :
    rounds ended step m s input = rounds ended step n s input := by
  induction m generalizing n s input with
  | zero => omega
  | succ m ih =>
    cases n with
    | zero => omega
    | succ n =>
      by_cases hend : ended s = true
      · rw [rounds_of_ended hend, rounds_of_ended hend]
      by_cases hinput : input = []
      · subst hinput
        rw [rounds_nil, rounds_nil]
      have hgoes : ended s = false := by simpa using hend
      rw [rounds_succ hgoes hinput, rounds_succ hgoes hinput]
      cases hstep : step s input with
      | error e => rfl
      | ok next =>
        obtain ⟨t, rest⟩ := next
        obtain ⟨-, hshort | ht⟩ := h.takes hs hgoes hinput hstep
        · exact ih (h.keeps hs hgoes hinput hstep) (by dsimp only; omega) (by dsimp only; omega)
        · exact (rounds_of_ended ht m rest).trans (rounds_of_ended ht n rest).symm

@[simp] theorem gather_nil (s : σ) : gather ended step s [] = .ok (s, []) := rfl

theorem gather_of_ended {s : σ} (h : ended s = true) (input : List α) :
    gather ended step s input = .ok (s, input) :=
  rounds_of_ended h _ input

theorem gather_eq (h : Shortens ended step I) {s : σ} {input : List α} (hs : I s)
    (hend : ended s = false) (hinput : input ≠ []) :
    gather ended step s input = step s input >>= fun next => gather ended step next.1 next.2 := by
  rw [gather, rounds_succ hend hinput]
  cases hstep : step s input with
  | error e => rfl
  | ok next =>
    obtain ⟨t, rest⟩ := next
    obtain ⟨-, hshort | ht⟩ := h.takes hs hend hinput hstep
    · exact rounds_eq h (h.keeps hs hend hinput hstep) hshort (Nat.lt_succ_self _)
    · exact (rounds_of_ended ht _ rest).trans (rounds_of_ended ht _ rest).symm

/-- What a step makes of a state is what the loop makes of it, once that holds where
the loop stops. -/
theorem gather_induction (h : Shortens ended step I) {P : σ → List α → σ → List α → Prop}
    (hstop : ∀ s input, I s → input = [] ∨ ended s = true → P s input s input)
    (hgo : ∀ s input t rest s' rest', I s → ended s = false → input ≠ [] →
      step s input = .ok (t, rest) → I t → gather ended step t rest = .ok (s', rest') →
      P t rest s' rest' → P s input s' rest')
    {s s' : σ} {input rest' : List α} (hs : I s) (hrun : gather ended step s input = .ok (s', rest')) :
    P s input s' rest' := by
  have hall : ∀ (n : Nat) (s : σ) (input : List α), I s → input.length < n →
      gather ended step s input = .ok (s', rest') → P s input s' rest' := by
    intro n
    induction n with
    | zero =>
      intro s input _ hn
      omega
    | succ n ih =>
      intro s input hs hn hrun
      by_cases hend : ended s = true
      · rw [gather_of_ended hend] at hrun
        cases hrun
        exact hstop _ _ hs (.inr hend)
      by_cases hinput : input = []
      · subst hinput
        rw [gather_nil] at hrun
        cases hrun
        exact hstop _ [] hs (.inl rfl)
      have hgoes : ended s = false := by simpa using hend
      rw [gather_eq h hs hgoes hinput] at hrun
      cases hstep : step s input with
      | error e =>
        rw [hstep] at hrun
        cases hrun
      | ok next =>
        obtain ⟨t, rest⟩ := next
        rw [hstep] at hrun
        have hrun : gather ended step t rest = .ok (s', rest') := hrun
        have ht : I t := h.keeps hs hgoes hinput hstep
        refine hgo s input t rest s' rest' hs hgoes hinput hstep ht hrun ?_
        obtain ⟨-, hshort | hended⟩ := h.takes hs hgoes hinput hstep
        · exact ih t rest ht (by omega) hrun
        · rw [gather_of_ended hended] at hrun
          cases hrun
          exact hstop _ _ ht (.inr hended)
  exact hall _ s input hs (Nat.lt_succ_self _) hrun

theorem gather_spec (h : Shortens ended step I) {s s' : σ} {input rest : List α} (hs : I s)
    (hrun : gather ended step s input = .ok (s', rest)) :
    I s' ∧ rest <:+ input ∧ (rest = [] ∨ ended s' = true) := by
  refine gather_induction h (P := fun _ input s' rest => I s' ∧ rest <:+ input ∧
    (rest = [] ∨ ended s' = true)) ?_ ?_ hs hrun
  · exact fun s input hs hstop => ⟨hs, List.suffix_refl input, hstop⟩
  · rintro s input t rest s' rest' hs hend hinput hstep - - ⟨hs', hsuffix, hstop⟩
    exact ⟨hs', hsuffix.trans (h.takes hs hend hinput hstep).1, hstop⟩

end Reader
