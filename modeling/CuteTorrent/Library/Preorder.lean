import CuteTorrent.Library.RoseTree

/-! A tree walked through its first children: from a node to its first child or, where it
has none, to the next sibling of it or of the nearest node above that has one. A place is
the way back to the root, the last child number first. -/
namespace RoseTree
variable {α : Type*}

def seek (t : RoseTree α) : List Nat → Option (RoseTree α)
  | [] => some t
  | i :: p => (t.seek p).bind fun u => u.children[i]?

/-- The next sibling, or that of the nearest node above that has one. -/
def behind (t : RoseTree α) : List Nat → Option (List Nat)
  | [] => none
  | i :: p => if (t.seek ((i + 1) :: p)).isSome then some ((i + 1) :: p) else t.behind p

def nextPlace (t : RoseTree α) (p : List Nat) : Option (List Nat) :=
  if (t.seek (0 :: p)).isSome then some (0 :: p) else t.behind p

mutual
/-- The places of a tree that stands at `p`, each before those below it. -/
def places (p : List Nat) : RoseTree α → List (List Nat)
  | node _ cs => p :: childPlaces p 0 cs
def childPlaces (p : List Nat) (i : Nat) : List (RoseTree α) → List (List Nat)
  | [] => []
  | c :: cs => c.places (i :: p) ++ childPlaces p (i + 1) cs
end

mutual
def preorder : RoseTree α → List (RoseTree α)
  | node a cs => node a cs :: preorders cs
def preorders : List (RoseTree α) → List (RoseTree α)
  | [] => []
  | c :: cs => c.preorder ++ preorders cs
end

def follow {β : Type*} (next : β → Option β) : Nat → Option β → List β
  | 0, _ => []
  | _ + 1, none => []
  | n + 1, some b => b :: follow next n (next b)

theorem follow_childPlaces {t : RoseTree α} {p : List Nat} {cs : List (RoseTree α)}
    (hcs : ∀ c ∈ cs, ∀ i, t.seek (i :: p) = some c → ∀ n,
      follow t.nextPlace ((c.places (i :: p)).length + n) (some (i :: p)) =
        c.places (i :: p) ++ follow t.nextPlace n (t.behind (i :: p)))
    {i : Nat} (hseek : ∀ j, t.seek ((i + j) :: p) = cs[j]?) (hne : cs ≠ []) (n : Nat) :
    follow t.nextPlace ((childPlaces p i cs).length + n) (some (i :: p)) =
      childPlaces p i cs ++ follow t.nextPlace n (t.behind p) := by
  induction cs generalizing i with
  | nil => exact absurd rfl hne
  | cons c cs ih =>
    have hfirst : t.seek (i :: p) = some c := hseek 0
    have hrest : ∀ j, t.seek ((i + 1 + j) :: p) = cs[j]? := by
      intro j
      rw [Nat.add_assoc, Nat.add_comm 1 j]
      exact hseek (j + 1)
    rw [childPlaces, List.length_append, Nat.add_assoc, hcs c List.mem_cons_self i hfirst, List.append_assoc]
    congr 1
    cases cs with
    | nil =>
      have hlast : t.behind (i :: p) = t.behind p := by
        rw [behind, if_neg]
        rw [show t.seek ((i + 1) :: p) = none from hrest 0]
        exact Bool.false_ne_true
      rw [hlast, childPlaces]
      simp
    | cons d ds =>
      have hnext : t.behind (i :: p) = some ((i + 1) :: p) := by
        rw [behind, if_pos]
        rw [show t.seek ((i + 1) :: p) = some d from hrest 0]
        rfl
      rw [hnext]
      exact ih (fun e he => hcs e (List.mem_cons_of_mem c he)) hrest (List.cons_ne_nil d ds)

/-- The walk leads through a tree in the order of its places, and then behind it. -/
theorem follow_places {t : RoseTree α} (u : RoseTree α) {p : List Nat} (hp : t.seek p = some u) (n : Nat) :
    follow t.nextPlace ((u.places p).length + n) (some p) =
      u.places p ++ follow t.nextPlace n (t.behind p) := by
  induction u using RoseTree.induct generalizing p n with
  | h a cs ih =>
    have hseek : ∀ j, t.seek (j :: p) = cs[j]? := by
      intro j
      rw [seek, hp]
      rfl
    rw [places, List.length_cons, Nat.add_right_comm, follow, List.cons_append]
    congr 1
    by_cases hcs : cs = []
    · subst hcs
      have hnone : t.nextPlace p = t.behind p := by
        rw [nextPlace, hseek, if_neg]
        exact Bool.false_ne_true
      rw [hnone, childPlaces]
      simp
    · have hsome : t.nextPlace p = some (0 :: p) := by
        rw [nextPlace, hseek, if_pos]
        simpa [List.length_pos_iff] using hcs
      rw [hsome]
      exact follow_childPlaces (fun c hc i hi m => ih c hc hi m) (fun j => by rw [Nat.zero_add, hseek]) hcs n

theorem seek_childPlaces {t : RoseTree α} {p : List Nat} {cs : List (RoseTree α)}
    (hcs : ∀ c ∈ cs, ∀ i, t.seek (i :: p) = some c → (c.places (i :: p)).map t.seek = c.preorder.map some)
    {i : Nat} (hseek : ∀ j, t.seek ((i + j) :: p) = cs[j]?) :
    (childPlaces p i cs).map t.seek = (preorders cs).map some := by
  induction cs generalizing i with
  | nil => rfl
  | cons c cs ih =>
    have hrest : ∀ j, t.seek ((i + 1 + j) :: p) = cs[j]? := by
      intro j
      rw [Nat.add_assoc, Nat.add_comm 1 j]
      exact hseek (j + 1)
    rw [childPlaces, preorders, List.map_append, List.map_append, hcs c List.mem_cons_self i (hseek 0),
      ih (fun d hd => hcs d (List.mem_cons_of_mem c hd)) hrest]

theorem seek_places {t : RoseTree α} (u : RoseTree α) {p : List Nat} (hp : t.seek p = some u) :
    (u.places p).map t.seek = u.preorder.map some := by
  induction u using RoseTree.induct generalizing p with
  | h a cs ih =>
    have hseek : ∀ j, t.seek (j :: p) = cs[j]? := by
      intro j
      rw [seek, hp]
      rfl
    rw [places, preorder, List.map_cons, List.map_cons, hp]
    congr 1
    exact seek_childPlaces (fun c hc i hi => ih c hc hi) fun j => by rw [Nat.zero_add, hseek]

theorem preorders_eq_flatMap (cs : List (RoseTree α)) : preorders cs = cs.flatMap preorder := by
  induction cs with
  | nil => rfl
  | cons c cs ih => rw [preorders, List.flatMap_cons, ih]

theorem preorder_eq (t : RoseTree α) : t.preorder = t :: t.children.flatMap preorder := by
  obtain ⟨a, cs⟩ := t
  rw [preorder, preorders_eq_flatMap]
  rfl

theorem preorder_map {β : Type*} (f : α → β) (t : RoseTree α) : (t.map f).preorder = t.preorder.map (map f) := by
  induction t using RoseTree.induct with
  | h a cs ih =>
    rw [preorder_eq, preorder_eq, List.map_cons, map_eq]
    simp only [children, List.map_flatMap, List.flatMap_map]
    congr 1
    exact List.flatMap_congr ih

theorem everywhere_iff_forall_preorder {P : RoseTree α → Prop} (t : RoseTree α) :
    t.Everywhere P ↔ ∀ u ∈ t.preorder, P u := by
  induction t using RoseTree.induct with
  | h a cs ih =>
    have hbelow : (∀ c ∈ cs, c.Everywhere P) ↔ ∀ u ∈ cs.flatMap preorder, P u := by
      rw [List.forall_mem_flatMap]
      exact forall₂_congr ih
    rw [everywhere_node, preorder_eq, List.forall_mem_cons]
    exact and_congr_right fun _ => hbelow

end RoseTree
