import CuteTorrent.Library.Assoc

/-! Folders of files. Several names may stand for one file; the file is kept
under the name they all resolve to. -/

class Naming (ν : Type*) where
  resolve : ν → ν
  resolve_resolve : ∀ s, resolve (resolve s) = resolve s

structure Disk (ν β : Type*) [Naming ν] where
  files : List (ν × β)
  canonical : ∀ k ∈ Assoc.keys files, Naming.resolve k = k

namespace Disk
open Naming
variable {ν β : Type*} [Naming ν]

def empty : Disk ν β := ⟨[], by simp⟩

def names (d : Disk ν β) : List ν := Assoc.keys d.files

variable [DecidableEq ν]

def read (d : Disk ν β) (s : ν) : Option β := Assoc.find (resolve s) d.files

def fileExists (d : Disk ν β) (s : ν) : Bool := (d.read s).isSome

def remove (d : Disk ν β) (s : ν) : Disk ν β where
  files := Assoc.erase (resolve s) d.files
  canonical k hk := d.canonical k ((Assoc.mem_keys_erase _ _ _).mp hk).1

theorem read_remove (d : Disk ν β) (s t : ν) :
    (d.remove t).read s = if resolve s = resolve t then none else d.read s :=
  Assoc.find_erase _ _ _

theorem read_remove_of_ne (d : Disk ν β) {s t : ν} (h : resolve s ≠ resolve t) :
    (d.remove t).read s = d.read s := by
  rw [read_remove, if_neg h]

theorem mem_names_iff (d : Disk ν β) (k : ν) :
    k ∈ d.names ↔ resolve k = k ∧ (d.read k).isSome := by
  rw [names, read]
  constructor
  · intro h
    have hk := d.canonical k h
    exact ⟨hk, by rwa [hk, Assoc.find_isSome]⟩
  · intro ⟨hk, h⟩
    rwa [hk, Assoc.find_isSome] at h

variable [LT ν] [DecidableLT ν]

def write (d : Disk ν β) (s : ν) (b : β) : Disk ν β where
  files := Assoc.insert (resolve s) b d.files
  canonical k hk := by
    cases (Assoc.mem_keys_insert _ _ _ _).mp hk with
    | inl heq =>
      subst heq
      exact resolve_resolve s
    | inr hk => exact d.canonical k hk

theorem read_write (d : Disk ν β) (s t : ν) (b : β) :
    (d.write t b).read s = if resolve s = resolve t then some b else d.read s :=
  Assoc.find_insert _ _ _ _

theorem read_foldl_write_of_ne (d : Disk ν β) {files : List (ν × β)} {s : ν}
    (h : ∀ f ∈ files, resolve s ≠ resolve f.1) :
    (files.foldl (fun d f => d.write f.1 f.2) d).read s = d.read s := by
  induction files generalizing d with
  | nil => rfl
  | cons f files ih =>
    rw [List.forall_mem_cons] at h
    rw [List.foldl_cons, ih _ h.2, read_write, if_neg h.1]

theorem read_foldl_write_of_mem (d : Disk ν β) {files : List (ν × β)} {s : ν} {b : β}
    (hmem : ∃ f ∈ files, resolve s = resolve f.1) (hall : ∀ f ∈ files, resolve s = resolve f.1 → f.2 = b) :
    (files.foldl (fun d f => d.write f.1 f.2) d).read s = some b := by
  induction files generalizing d with
  | nil =>
    obtain ⟨f, hf, -⟩ := hmem
    cases hf
  | cons f files ih =>
    rw [List.forall_mem_cons] at hall
    rw [List.foldl_cons]
    by_cases hlater : ∃ g ∈ files, resolve s = resolve g.1
    · exact ih _ hlater hall.2
    · have hfirst : resolve s = resolve f.1 := by
        obtain ⟨g, hg, hs⟩ := hmem
        rcases List.mem_cons.mp hg with rfl | hg
        · exact hs
        · exact absurd ⟨g, hg, hs⟩ hlater
      rw [read_foldl_write_of_ne _ fun g hg hs => hlater ⟨g, hg, hs⟩, read_write, if_pos hfirst,
        hall.1 hfirst]

/-- A copy never replaces a file. -/
def copy (d : Disk ν β) (source target : ν) : Disk ν β :=
  match d.read source with
  | some b => if d.fileExists target then d else d.write target b
  | none => d

theorem read_copy_of_ne (d : Disk ν β) {s source target : ν} (h : resolve s ≠ resolve target) :
    (d.copy source target).read s = d.read s := by
  unfold copy
  cases d.read source with
  | none => rfl
  | some b =>
    simp only
    split_ifs
    · rfl
    · rw [read_write, if_neg h]

theorem read_copy_of_isSome (d : Disk ν β) {s : ν} (source target : ν) (h : (d.read s).isSome) :
    (d.copy source target).read s = d.read s := by
  by_cases hs : resolve s = resolve target
  · have hex : d.fileExists target = true := by
      rw [fileExists, read, ← hs]
      exact h
    unfold copy
    cases d.read source with
    | none => rfl
    | some b => simp only [hex, if_true]
  · exact d.read_copy_of_ne hs

theorem read_copy_cases (d : Disk ν β) (s source target : ν) :
    (d.copy source target).read s = d.read s ∨
      (resolve s = resolve target ∧ d.read s = none ∧ (d.copy source target).read s = d.read source) := by
  by_cases hs : resolve s = resolve target
  · cases hr : d.read s with
    | some b => exact Or.inl ((d.read_copy_of_isSome source target (by simp [hr])).trans hr)
    | none =>
      have hex : d.fileExists target = false := by
        rw [fileExists, read, ← hs, ← read, hr]
        rfl
      refine Or.inr ⟨hs, rfl, ?_⟩
      unfold copy
      cases hb : d.read source with
      | none => exact hr
      | some b => simp [hex, read_write, hs]
  · exact Or.inl (d.read_copy_of_ne hs)

end Disk
