import Mathlib.Data.List.Basic
import Mathlib.Data.List.Infix

/-! Rose trees addressed by paths of child numbers. A tree is read through two
functions of the path, the label and the number of children, so that an update
is described by what it does to them. -/
inductive RoseTree (α : Type*) where
  | node (label : α) (children : List (RoseTree α))

namespace RoseTree
variable {α : Type*}

def label : RoseTree α → α
  | node a _ => a

def children : RoseTree α → List (RoseTree α)
  | node _ cs => cs

def get? (t : RoseTree α) : List Nat → Option (RoseTree α)
  | [] => some t
  | i :: p => t.children[i]?.bind fun c => c.get? p

def labelAt (t : RoseTree α) (p : List Nat) : Option α := (t.get? p).map label

def arityAt (t : RoseTree α) (p : List Nat) : Option Nat := (t.get? p).map fun u => u.children.length

def modify (f : RoseTree α → RoseTree α) : List Nat → RoseTree α → RoseTree α
  | [], t => f t
  | i :: p, node a cs => node a (cs.modify i (modify f p))

mutual
def mapLabels (f : α → α) : RoseTree α → RoseTree α
  | node a cs => node (f a) (mapChildren f cs)
def mapChildren (f : α → α) : List (RoseTree α) → List (RoseTree α)
  | [] => []
  | c :: cs => mapLabels f c :: mapChildren f cs
end

def mapRoot (f : α → α) : RoseTree α → RoseTree α
  | node a cs => node (f a) cs

mutual
def map {β : Type*} (f : α → β) : RoseTree α → RoseTree β
  | node a cs => node (f a) (maps f cs)
def maps {β : Type*} (f : α → β) : List (RoseTree α) → List (RoseTree β)
  | [] => []
  | c :: cs => map f c :: maps f cs
end

theorem map_eq {β : Type*} (f : α → β) (t : RoseTree α) : t.map f = node (f t.label) (t.children.map (map f)) := by
  have hmaps : ∀ cs : List (RoseTree α), maps f cs = cs.map (map f) := by
    intro cs
    induction cs with
    | nil => rfl
    | cons c cs ih => rw [maps, List.map_cons, ih]
  obtain ⟨a, cs⟩ := t
  rw [map, hmaps]
  rfl

theorem not_concat_isPrefix {ν : Type*} {ns : List ν} {n : ν} : ¬ ns ++ [n] <+: ns := by
  intro h
  have hlen := h.length_le
  rw [List.length_append, List.length_singleton] at hlen
  omega

theorem mapChildren_eq_map (f : α → α) (cs : List (RoseTree α)) :
    mapChildren f cs = cs.map (mapLabels f) := by
  induction cs with
  | nil => rfl
  | cons c cs ih => simp [mapChildren, ih]

@[simp] theorem get?_nil (t : RoseTree α) : t.get? [] = some t := rfl

@[simp] theorem get?_cons (t : RoseTree α) (i : Nat) (p : List Nat) :
    t.get? (i :: p) = t.children[i]?.bind fun c => c.get? p := rfl

theorem get?_append (t : RoseTree α) (p q : List Nat) :
    t.get? (p ++ q) = (t.get? p).bind fun u => u.get? q := by
  induction p generalizing t with
  | nil => rfl
  | cons i p ih =>
    rw [List.cons_append, get?_cons, get?_cons]
    cases t.children[i]? with
    | none => rfl
    | some c => exact ih c

theorem get?_mapLabels (f : α → α) (t : RoseTree α) (p : List Nat) :
    (mapLabels f t).get? p = (t.get? p).map (mapLabels f) := by
  induction p generalizing t with
  | nil => rfl
  | cons i p ih =>
    obtain ⟨a, cs⟩ := t
    simp only [get?_cons, mapLabels, children, mapChildren_eq_map, List.getElem?_map]
    cases cs[i]? with
    | none => rfl
    | some c => exact ih c

@[simp] theorem labelAt_mapLabels (f : α → α) (t : RoseTree α) (p : List Nat) :
    (mapLabels f t).labelAt p = (t.labelAt p).map f := by
  rw [labelAt, labelAt, get?_mapLabels]
  cases t.get? p with
  | none => rfl
  | some u => obtain ⟨a, cs⟩ := u; rfl

@[simp] theorem arityAt_mapLabels (f : α → α) (t : RoseTree α) (p : List Nat) :
    (mapLabels f t).arityAt p = t.arityAt p := by
  rw [arityAt, arityAt, get?_mapLabels]
  cases t.get? p with
  | none => rfl
  | some u => obtain ⟨a, cs⟩ := u; simp [mapLabels, children, mapChildren_eq_map]

theorem get?_modify_append (f : RoseTree α → RoseTree α) (p q : List Nat) (t : RoseTree α) :
    (modify f p t).get? (p ++ q) = (t.get? p).bind fun u => (f u).get? q := by
  induction p generalizing t with
  | nil => obtain ⟨a, cs⟩ := t; rfl
  | cons i p ih =>
    obtain ⟨a, cs⟩ := t
    simp only [List.cons_append, modify, get?_cons, children, List.getElem?_modify_eq]
    cases cs[i]? with
    | none => rfl
    | some c => exact ih c

/-- Away from the address, labels and arities are untouched; the nodes above it
keep theirs too. -/
theorem view_modify_away (f : RoseTree α → RoseTree α) {p q : List Nat}
    (h : ¬ p <+: q) (t : RoseTree α) :
    (modify f p t).labelAt q = t.labelAt q ∧ (modify f p t).arityAt q = t.arityAt q := by
  induction p generalizing q t with
  | nil => exact absurd List.nil_prefix h
  | cons i p ih =>
    obtain ⟨a, cs⟩ := t
    cases q with
    | nil => simp [labelAt, arityAt, modify, label, children]
    | cons j q =>
      by_cases hij : i = j
      · subst j
        have hpq : ¬ p <+: q := fun hp => h (List.cons_prefix_cons.mpr ⟨rfl, hp⟩)
        simp only [labelAt, arityAt, modify, get?_cons, children, List.getElem?_modify_eq]
        cases hc : cs[i]? with
        | none => simp
        | some c => exact ih hpq c
      · simp [labelAt, arityAt, modify, children, hij]

theorem labelAt_modify_away (f : RoseTree α → RoseTree α) {p q : List Nat}
    (h : ¬ p <+: q) (t : RoseTree α) : (modify f p t).labelAt q = t.labelAt q :=
  (view_modify_away f h t).1

theorem labelAt_modify_mapLabels (f : α → α) (p q : List Nat) (t : RoseTree α) :
    (modify (mapLabels f) p t).labelAt q = if p <+: q then (t.labelAt q).map f else t.labelAt q := by
  by_cases h : p <+: q
  · obtain ⟨r, rfl⟩ := h
    rw [if_pos (List.prefix_append p r), labelAt, get?_modify_append, labelAt, get?_append]
    cases t.get? p with
    | none => rfl
    | some u => exact labelAt_mapLabels f u r
  · rw [if_neg h, labelAt_modify_away _ h]

theorem arityAt_modify_mapLabels (f : α → α) (p q : List Nat) (t : RoseTree α) :
    (modify (mapLabels f) p t).arityAt q = t.arityAt q := by
  by_cases h : p <+: q
  · obtain ⟨r, rfl⟩ := h
    rw [arityAt, get?_modify_append, arityAt, get?_append]
    cases t.get? p with
    | none => rfl
    | some u => exact arityAt_mapLabels f u r
  · exact (view_modify_away _ h t).2

theorem labelAt_modify_mapRoot (f : α → α) (p q : List Nat) (t : RoseTree α) :
    (modify (mapRoot f) p t).labelAt q = if q = p then (t.labelAt q).map f else t.labelAt q := by
  by_cases h : p <+: q
  · obtain ⟨r, rfl⟩ := h
    rw [labelAt, get?_modify_append, labelAt, get?_append]
    cases t.get? p with
    | none => simp
    | some u =>
      obtain ⟨a, cs⟩ := u
      cases r with
      | nil => simp [mapRoot, label]
      | cons i r => simp [mapRoot, children]
  · rw [labelAt_modify_away _ h, if_neg]
    rintro rfl
    exact h (List.prefix_refl q)

theorem arityAt_modify_mapRoot (f : α → α) (p q : List Nat) (t : RoseTree α) :
    (modify (mapRoot f) p t).arityAt q = t.arityAt q := by
  by_cases h : p <+: q
  · obtain ⟨r, rfl⟩ := h
    rw [arityAt, get?_modify_append, arityAt, get?_append]
    cases t.get? p with
    | none => rfl
    | some u =>
      obtain ⟨a, cs⟩ := u
      cases r with
      | nil => simp [mapRoot, children]
      | cons i r => simp [mapRoot, children]
  · exact (view_modify_away _ h t).2

mutual
theorem induct {P : RoseTree α → Prop} (h : ∀ a cs, (∀ c ∈ cs, P c) → P (node a cs)) :
    (t : RoseTree α) → P t
  | node a cs => h a cs (inductChildren h cs)
theorem inductChildren {P : RoseTree α → Prop} (h : ∀ a cs, (∀ c ∈ cs, P c) → P (node a cs)) :
    (cs : List (RoseTree α)) → ∀ c ∈ cs, P c
  | [], _, hc => absurd hc (List.not_mem_nil)
  | d :: ds, _, hc =>
    (List.mem_cons.mp hc).elim (fun he => he ▸ induct h d) (inductChildren h ds _)
end

def Everywhere (P : RoseTree α → Prop) (t : RoseTree α) : Prop := ∀ q u, t.get? q = some u → P u

theorem everywhere_node {P : RoseTree α → Prop} {a : α} {cs : List (RoseTree α)} :
    Everywhere P (node a cs) ↔ P (node a cs) ∧ ∀ c ∈ cs, Everywhere P c := by
  constructor
  · intro h
    refine ⟨h [] _ rfl, ?_⟩
    intro c hc q u hu
    obtain ⟨i, hi⟩ := List.mem_iff_getElem?.mp hc
    apply h (i :: q) u
    simpa [children, hi] using hu
  · intro ⟨hown, hcs⟩ q u hu
    cases q with
    | nil =>
      obtain rfl : node a cs = u := by simpa using hu
      exact hown
    | cons i q =>
      cases hi : cs[i]? with
      | none => simp [children, hi] at hu
      | some c =>
        apply hcs c (List.mem_of_getElem? hi) q u
        simpa [children, hi] using hu

theorem mem_modify_children {f : RoseTree α → RoseTree α} {cs : List (RoseTree α)} {j : Nat}
    {c : RoseTree α} (h : c ∈ cs.modify j f) : c ∈ cs ∨ ∃ d ∈ cs, c = f d := by
  obtain ⟨i, hi⟩ := List.mem_iff_getElem?.mp h
  rw [List.getElem?_modify] at hi
  cases hd : cs[i]? with
  | none => simp [hd] at hi
  | some d =>
    simp only [hd, Option.map_eq_map, Option.map_some, Option.some.injEq] at hi
    split_ifs at hi
    · exact .inr ⟨d, List.mem_of_getElem? hd, hi.symm⟩
    · exact .inl (hi ▸ List.mem_of_getElem? hd)

theorem mapLabels_modify {f : α → α} {g : RoseTree α → RoseTree α}
    (h : ∀ u, mapLabels f (g u) = mapLabels f u) (p : List Nat) (t : RoseTree α) :
    mapLabels f (modify g p t) = mapLabels f t := by
  induction p generalizing t with
  | nil => cases t; exact h _
  | cons i p ih =>
    obtain ⟨a, cs⟩ := t
    simp only [modify, mapLabels, mapChildren_eq_map]
    congr 1
    apply List.ext_getElem?
    intro j
    simp only [List.getElem?_map, List.getElem?_modify]
    cases cs[j]? with
    | none => rfl
    | some c =>
      by_cases hij : i = j
      · simp [hij, ih]
      · simp [hij]

theorem mapLabels_mapLabels {f g : α → α} (h : ∀ a, f (g a) = f a) (t : RoseTree α) :
    mapLabels f (mapLabels g t) = mapLabels f t := by
  induction t using RoseTree.induct with
  | h a cs ih =>
    simp only [mapLabels, mapChildren_eq_map, List.map_map, h]
    congr 1
    exact List.map_congr_left ih

theorem mapLabels_mapRoot {f g : α → α} (h : ∀ a, f (g a) = f a) (t : RoseTree α) :
    mapLabels f (mapRoot g t) = mapLabels f t := by
  obtain ⟨a, cs⟩ := t
  simp only [mapRoot, mapLabels, h]

theorem everywhere_mapLabels {P : RoseTree α → Prop} {f : α → α}
    (hP : ∀ u, P (mapLabels f u) ↔ P u) (t : RoseTree α) :
    Everywhere P (mapLabels f t) ↔ Everywhere P t := by
  constructor
  · intro h q u hu
    apply (hP u).mp
    apply h q
    rw [get?_mapLabels, hu]
    rfl
  · intro h q u hu
    rw [get?_mapLabels] at hu
    obtain ⟨v, hv, rfl⟩ := Option.map_eq_some_iff.mp hu
    exact (hP v).mpr (h q v hv)

end RoseTree
