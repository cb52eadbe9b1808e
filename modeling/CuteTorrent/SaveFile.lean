import Mathlib.Logic.Function.Basic
import CuteTorrent.Library.Runs
import CuteTorrent.Qt

/-! `TorrentManager::save_file` and `load_file`: what is written through
`libtorrent::file` is read back through `fopen`. -/
namespace CuteTorrent

/-- The file that a name stands for: `file::open` converts the name, `fopen` takes its
bytes as they are. -/
class FileLayers (φ : Type) where
  opened : QByteArray → φ
  fopened : QByteArray → φ

abbrev FileSystem (φ : Type) := φ → Option QByteArray

namespace SaveFile

/-- What the system does with a save: whether the file is opened, how many bytes reach
it, and whether `writev` reports an error. -/
structure Outcome (v : QByteArray) where
  opens : Bool
  written : Nat
  written_le : written ≤ v.length
  fails : Bool

structure LoadResult where
  r : Int
  v : QByteArray
  ec : Option Nat
deriving DecidableEq

/-- What the system does with a load of a file that is there: the error number of each
call that fails, and how many bytes `fread` gives at most. -/
structure LoadOutcome where
  fopen : Option Nat
  seekEnd : Option Nat
  ftell : Option Nat
  seekSet : Option Nat
  fread : Nat

def LoadOutcome.Whole (o : LoadOutcome) (length : Nat) : Prop :=
  o.fopen = none ∧ o.seekEnd = none ∧ o.ftell = none ∧ o.seekSet = none ∧ length ≤ o.fread

def ENOENT : Nat := 2

def resize (v : QByteArray) (s : Nat) : QByteArray := v.take s ++ List.replicate (s - v.length) 0

section
variable {φ : Type} [FileLayers φ]
open FileLayers

/-- `w` is the vector that the call is given. -/
def load_file (fs : FileSystem φ) (filename w : QByteArray) (limit : Nat) (o : LoadOutcome) :
    LoadResult :=
  match fs (fopened filename), o.fopen with
  | none, _ => ⟨-1, w, some ENOENT⟩
  | some _, some errno => ⟨-1, w, some errno⟩
  | some content, none =>
    match o.seekEnd, o.ftell with
    | some errno, _ | none, some errno => ⟨-1, w, some errno⟩
    | none, none =>
      if content.length > limit then ⟨-2, w, none⟩
      else
        match o.seekSet with
        | some errno => ⟨-1, w, some errno⟩
        | none =>
          if content.length = 0 then ⟨0, [], none⟩
          else
            let v := content.take o.fread ++ (resize w content.length).drop o.fread
            if o.fread < content.length then ⟨-3, v, none⟩ else ⟨0, v, none⟩

def defaultLimit : Nat := 8000000

@[simp] theorem length_resize (v : QByteArray) (s : Nat) : (resize v s).length = s := by
  rw [resize, List.length_append, List.length_take, List.length_replicate]
  omega

theorem load_file_eq_iff {fs : FileSystem φ} {filename v : QByteArray} (hv : v ≠ [])
    (w : QByteArray) (limit : Nat) (o : LoadOutcome) :
    load_file fs filename w limit o = ⟨0, v, none⟩ ↔
      (fs (fopened filename) = some v ∧ v.length ≤ limit) ∧ o.Whole v.length := by
  obtain ⟨fopen, seekEnd, ftell, seekSet, fread⟩ := o
  rw [load_file, LoadOutcome.Whole]
  cases fs (fopened filename) with
  | none => simp
  | some content =>
    cases fopen with
    | some errno => simp
    | none =>
    cases seekEnd with
    | some errno => simp
    | none =>
    cases ftell with
    | some errno => simp
    | none =>
    cases seekSet with
    | some errno =>
      dsimp only
      split_ifs <;> simp
    | none =>
      dsimp only
      split_ifs with hlimit hempty hshort
      · refine iff_of_false (by simp) ?_
        rintro ⟨⟨heq, hle⟩, -⟩
        cases heq
        exact absurd hle (not_le.mpr hlimit)
      · rw [List.length_eq_zero_iff] at hempty
        simp [hempty, Ne.symm hv]
      · refine iff_of_false (by simp) ?_
        rintro ⟨⟨heq, -⟩, -, -, -, -, hread⟩
        cases heq
        omega
      · have htail : (resize w content.length).drop fread = [] :=
          List.drop_eq_nil_of_le (by simpa using hshort)
        rw [List.take_of_length_le (by omega), htail, List.append_nil]
        constructor
        · intro h
          cases h
          exact ⟨⟨rfl, not_lt.mp hlimit⟩, rfl, rfl, rfl, rfl, not_lt.mp hshort⟩
        · rintro ⟨⟨heq, -⟩, -⟩
          cases heq
          rfl

variable [DecidableEq φ]

/-- `file::open(write_only)`: a file that is not there is created, no file is cut. -/
def openWriteOnly (fs : FileSystem φ) (file : φ) : FileSystem φ :=
  Function.update fs file (some ((fs file).getD []))

def writeAtStart (fs : FileSystem φ) (file : φ) (bytes : QByteArray) : FileSystem φ :=
  Function.update fs file ((fs file).map fun content => bytes ++ content.drop bytes.length)

def save_file (fs : FileSystem φ) (filename v : QByteArray) (o : Outcome v) :
    Int × FileSystem φ :=
  if !o.opens then (-1, fs)
  else
    let created := openWriteOnly fs (opened filename)
    let left := writeAtStart created (opened filename) (v.take o.written)
    let written : Int := if o.fails then -1 else o.written
    if written ≠ wrapInt v.length then (-3, left)
    else if o.fails then (-3, left)
    else (0, left)

def overwritten (prev : Option QByteArray) (v : QByteArray) : QByteArray :=
  v ++ (prev.getD []).drop v.length

variable {fs : FileSystem φ} {filename v : QByteArray} {o : Outcome v}

/-- A save that returns 0 has counted the bytes as an `int` does. -/
theorem save_file_eq_zero (h : (save_file fs filename v o).1 = 0) :
    (o.written : Int) = wrapInt v.length ∧
      (save_file fs filename v o).2 = Function.update fs (opened filename)
        (some (overwritten (fs (opened filename)) (v.take o.written))) := by
  rw [save_file] at h ⊢
  cases hopens : o.opens with
  | false => simp [hopens] at h
  | true =>
    cases hfails : o.fails with
    | true =>
      simp only [hopens, hfails] at h
      split_ifs at h <;> simp_all
    | false =>
      by_cases hcount : (o.written : Int) = wrapInt v.length
      · refine ⟨hcount, ?_⟩
        simp [openWriteOnly, writeAtStart, overwritten, hcount]
      · simp [hopens, hfails, hcount] at h

theorem save_file_of_length_lt (h : (save_file fs filename v o).1 = 0) (hlen : v.length < 2 ^ 31) :
    (save_file fs filename v o).2 =
      Function.update fs (opened filename) (some (overwritten (fs (opened filename)) v)) := by
  obtain ⟨hcount, hleft⟩ := save_file_eq_zero h
  have hwritten : o.written = v.length := by
    rw [wrapInt, Int.bmod_eq_of_le (by omega) (by omega)] at hcount
    exact_mod_cast hcount
  rw [hleft, hwritten, List.take_length]

/-- When a save can be read back: the reader takes files of that size, and the content
before was no longer, or, where the two layers find different files, the other one
holds the same bytes already. -/
def Restores (fs : FileSystem φ) (filename v : QByteArray) : Prop :=
  v.length ≤ defaultLimit ∧
    if opened filename = (fopened filename : φ) then
      ((fs (opened filename)).getD []).length ≤ v.length
    else fs (fopened filename) = some v

theorem overwritten_eq_iff (prev : Option QByteArray) (v : QByteArray) :
    overwritten prev v = v ↔ (prev.getD []).length ≤ v.length := by
  rw [overwritten, List.append_right_eq_self, List.drop_eq_nil_iff]

/-- What `save_file` wrote is what `load_file` gives back, exactly when it can be and the
system lets it be read. -/
theorem load_file_save_file_iff (fs : FileSystem φ) (filename v w : QByteArray) (o : Outcome v)
    (r : LoadOutcome) (hv : v ≠ []) (hsaved : (save_file fs filename v o).1 = 0) :
    load_file (save_file fs filename v o).2 filename w defaultLimit r = ⟨0, v, none⟩ ↔
      Restores fs filename v ∧ r.Whole v.length := by
  rw [load_file_eq_iff hv, Restores]
  refine and_congr_left fun _ => ?_
  rw [and_comm]
  refine and_congr_right fun hlimit => ?_
  rw [save_file_of_length_lt hsaved (lt_of_le_of_lt hlimit (by decide))]
  split_ifs with hfile
  · rw [← hfile, Function.update_self, Option.some_inj, overwritten_eq_iff]
  · rw [Function.update_of_ne (Ne.symm hfile)]

/-! ### Saves one after another -/

structure Save where
  v : QByteArray
  outcome : Outcome v

/-- What a save leaves of a content; none is a file that is not there. -/
def contentAfter (prev : Option QByteArray) (save : Save) : Option QByteArray :=
  if save.outcome.opens then some (overwritten prev (save.v.take save.outcome.written)) else prev

theorem save_file_snd (fs : FileSystem φ) (filename : QByteArray) (save : Save) :
    (save_file fs filename save.v save.outcome).2 =
      Function.update fs (opened filename) (contentAfter (fs (opened filename)) save) := by
  rw [save_file, contentAfter]
  cases save.outcome.opens with
  | false => simp
  | true =>
    have hleft : writeAtStart (openWriteOnly fs (opened filename)) (opened filename)
        (save.v.take save.outcome.written) = Function.update fs (opened filename)
          (some (overwritten (fs (opened filename)) (save.v.take save.outcome.written))) := by
      simp [openWriteOnly, writeAtStart, overwritten]
    simp only [Bool.not_true, Bool.false_eq_true, if_false, if_true, ← hleft]
    split_ifs <;> rfl

def step (filename : QByteArray) (fs : FileSystem φ) (save : Save) : FileSystem φ :=
  (save_file fs filename save.v save.outcome).2

def Saved (filename : QByteArray) (fs : FileSystem φ) (save : Save) : Prop :=
  (save_file fs filename save.v save.outcome).1 = 0 ∧ save.v.length < 2 ^ 31

def contentLength (filename : QByteArray) (fs : FileSystem φ) : Nat :=
  ((fs (opened filename)).getD []).length

theorem length_step_le_iff {save : Save} (h : Saved filename fs save) (n : Nat) :
    contentLength filename (step filename fs save) ≤ n ↔
      contentLength filename fs ≤ n ∧ save.v.length ≤ n := by
  rw [contentLength, contentLength, step, save_file_of_length_lt h.1 h.2, Function.update_self,
    Option.getD_some, overwritten, List.length_append, List.length_drop]
  omega

theorem length_final_le_iff {saves : List Save}
    (h : Runs.Along (step filename) (Saved filename) fs saves) (n : Nat) :
    contentLength filename (Runs.final (step filename) fs saves) ≤ n ↔
      contentLength filename fs ≤ n ∧ ∀ save ∈ saves, save.v.length ≤ n := by
  induction saves generalizing fs with
  | nil => simp
  | cons save saves ih =>
    rw [Runs.final_cons, ih h.2, length_step_le_iff h.1, List.forall_mem_cons, and_assoc]

/-- After saves one after another, the last one is given back exactly when the reader
takes it, neither the content before nor any of the saves was longer, and nothing fails. -/
theorem load_file_saves_iff {saves : List Save} {last : Save} (w : QByteArray) (r : LoadOutcome)
    (hfile : opened filename = (fopened filename : φ)) (hv : last.v ≠ [])
    (hsaves : Runs.Along (step filename) (Saved filename) fs saves)
    (hlast : Saved filename (Runs.final (step filename) fs saves) last) :
    load_file (step filename (Runs.final (step filename) fs saves) last) filename w defaultLimit r =
        ⟨0, last.v, none⟩ ↔
      (last.v.length ≤ defaultLimit ∧ contentLength filename fs ≤ last.v.length ∧
        ∀ save ∈ saves, save.v.length ≤ last.v.length) ∧ r.Whole last.v.length := by
  rw [← length_final_le_iff hsaves, load_file_eq_iff hv]
  refine and_congr_left fun _ => ?_
  rw [and_comm, step, save_file_of_length_lt hlast.1 hlast.2, ← hfile, Function.update_self,
    Option.some_inj, overwritten_eq_iff]
  rfl

end

/-! ### A shorter file over a longer one -/

section sample
local instance : FileLayers QByteArray := ⟨id, id⟩

def longer : FileSystem QByteArray := fun name => if name = [1] then some [7, 8, 9] else none

def readAll : LoadOutcome := ⟨none, none, none, none, defaultLimit⟩

theorem load_file_save_file_longest :
    (save_file longer [1] [4, 5, 6] ⟨true, 3, by decide, false⟩).1 = 0 ∧
      load_file (save_file longer [1] [4, 5, 6] ⟨true, 3, by decide, false⟩).2 [1] [] defaultLimit
        readAll = ⟨0, [4, 5, 6], none⟩ :=
  ⟨by decide,
    (load_file_save_file_iff longer [1] [4, 5, 6] [] ⟨true, 3, by decide, false⟩ readAll (by decide)
      (by decide)).mpr ⟨⟨by decide, by decide⟩, by unfold LoadOutcome.Whole; decide⟩⟩

theorem leftovers_read_back :
    (save_file longer [1] [4] ⟨true, 1, by decide, false⟩).1 = 0 ∧
      load_file (save_file longer [1] [4] ⟨true, 1, by decide, false⟩).2 [1] [] defaultLimit readAll =
        ⟨0, [4, 8, 9], none⟩ ∧
      ¬ load_file (save_file longer [1] [4] ⟨true, 1, by decide, false⟩).2 [1] [] defaultLimit readAll =
        ⟨0, [4], none⟩ := by
  decide

end sample
end SaveFile
end CuteTorrent
