import Mathlib.Data.List.Basic

/-! Steps through a tree of folders. A folder is the list of the names from the
root down to it; nothing lies above the root. -/
namespace Paths
variable {ν : Type*}

inductive Step (ν : Type*) where
  | up
  | into (name : ν)

def step (folder : List ν) : Step ν → List ν
  | .up => folder.dropLast
  | .into name => folder ++ [name]

def walk (folder : List ν) (steps : List (Step ν)) : List ν := steps.foldl step folder

@[simp] theorem walk_nil (folder : List ν) : walk folder [] = folder := rfl

@[simp] theorem walk_cons (folder : List ν) (s : Step ν) (steps : List (Step ν)) :
    walk folder (s :: steps) = walk (step folder s) steps := rfl

theorem walk_append (folder : List ν) (steps steps' : List (Step ν)) :
    walk folder (steps ++ steps') = walk (walk folder steps) steps' :=
  List.foldl_append

/-- So many folders up, and down again by these names. -/
structure Route (ν : Type*) where
  ups : Nat
  names : List ν

def Route.extend (r : Route ν) : Step ν → Route ν
  | .up =>
    match r.names with
    | [] => ⟨r.ups + 1, []⟩
    | name :: names => ⟨r.ups, (name :: names).dropLast⟩
  | .into name => ⟨r.ups, r.names ++ [name]⟩

/-- What the steps come to once names and steps up have cancelled. -/
def route (steps : List (Step ν)) : Route ν := steps.foldl Route.extend ⟨0, []⟩

def Route.follow (r : Route ν) (folder : List ν) : List ν :=
  folder.take (folder.length - r.ups) ++ r.names

theorem Route.follow_extend (r : Route ν) (folder : List ν) (s : Step ν) :
    (r.extend s).follow folder = step (r.follow folder) s := by
  obtain ⟨ups, names⟩ := r
  cases s with
  | into name => simp [Route.extend, Route.follow, step]
  | up =>
    cases names with
    | nil =>
      simp only [Route.extend, Route.follow, step, List.append_nil]
      rw [List.dropLast_eq_take, List.take_take, List.length_take, Nat.sub_add_eq,
        Nat.min_eq_left (Nat.sub_le _ _), Nat.min_eq_left (Nat.sub_le _ _)]
    | cons name names =>
      simp only [Route.extend, Route.follow, step]
      rw [List.dropLast_append_of_ne_nil (List.cons_ne_nil name names)]

theorem walk_eq_follow (folder : List ν) (steps : List (Step ν)) :
    walk folder steps = (route steps).follow folder := by
  have hrun : ∀ r : Route ν,
      walk (r.follow folder) steps = (steps.foldl Route.extend r).follow folder := by
    induction steps with
    | nil => exact fun _ => rfl
    | cons s steps ih =>
      intro r
      rw [walk_cons, ← Route.follow_extend, ih]
      rfl
  have hstart := hrun ⟨0, []⟩
  rwa [Route.follow, Nat.sub_zero, List.take_length, List.append_nil] at hstart

/-- The steps lead to `name` in the folder they start from exactly when they come
down again on the way they went up. -/
theorem walk_eq_concat_iff (folder : List ν) (steps : List (Step ν)) (name : ν) :
    walk folder steps = folder ++ [name] ↔
      (route steps).names = folder.drop (folder.length - (route steps).ups) ++ [name] := by
  have hfolder := List.take_append_drop (folder.length - (route steps).ups) folder
  rw [walk_eq_follow, Route.follow]
  constructor
  · intro h
    rw [← List.append_cancel_left_eq (folder.take (folder.length - (route steps).ups)), h,
      ← List.append_assoc, hfolder]
  · intro h
    rw [h, ← List.append_assoc, hfolder]

end Paths
