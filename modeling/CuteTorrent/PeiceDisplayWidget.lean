import Mathlib.Data.List.Nodup
import Mathlib.Data.List.Perm.Basic
import CuteTorrent.Qt

/-! `PeiceDisplayWidget`: lists of piece numbers become intervals that are drawn. -/
namespace CuteTorrent
namespace PeiceDisplayWidget

/-- The loop of both setters: what is collected, the number before, the rest. -/
def collect : List (Int × Int) → Int → List Int → Except Fault (List (Int × Int))
  | collected, _, [] => .ok collected
  | collected, previusPicNumber, piceNumber :: parts =>
    if wrapInt (piceNumber - previusPicNumber) = 1 then
      match collected.getLast? with
      | some last => collect (collected.dropLast ++ [(last.1, piceNumber)]) piceNumber parts
      | none => .error .indexOutOfRange
    else collect (collected ++ [(piceNumber, wrapInt (piceNumber + 1))]) piceNumber parts

def setDowloadedParts (parts : List Int) : Except Fault (List (Int × Int)) := collect [] 0 parts

def setDowloadingParts (parts : List Int) : Except Fault (List (Int × Int)) := collect [] (-1) parts

def IsPiece (n : Int) : Prop := 0 ≤ n ∧ n < 2 ^ 31 - 1

instance (n : Int) : Decidable (IsPiece n) := inferInstanceAs (Decidable (_ ∧ _))

def Holds (i : Int × Int) (n : Int) : Prop := i.1 ≤ n ∧ n < i.2

structure Covers (parts : List Int) (intervals : List (Int × Int)) : Prop where
  disjoint : intervals.Pairwise fun i j => ∀ n, ¬ (Holds i n ∧ Holds j n)
  union : ∀ n, (∃ i ∈ intervals, Holds i n) ↔ n ∈ parts

def Apart (parts : List Int) : Prop := parts.IsChain fun a b => b ≠ a + 1

/-! ### The intervals of a list -/

def intervalsFrom : Int × Int → Int → List Int → List (Int × Int)
  | i, _, [] => [i]
  | i, last, n :: parts =>
    if n = last + 1 then intervalsFrom (i.1, n) n parts
    else i :: intervalsFrom (n, n + 1) n parts

theorem wrapInt_sub_eq_one_iff {m n : Int} (hm : -1 ≤ m ∧ m < 2 ^ 31 - 1) (hn : IsPiece n) :
    wrapInt (n - m) = 1 ↔ n = m + 1 := by
  obtain ⟨hlo, hhi⟩ := hn
  rw [wrapInt]
  constructor
  · intro h
    have hdvd := Int.dvd_bmod_sub_self (x := n - m) (m := 2 ^ 32)
    omega
  · rintro rfl
    have hone : m + 1 - m = 1 := by omega
    rw [hone]
    decide

theorem wrapInt_succ {n : Int} (hn : IsPiece n) : wrapInt (n + 1) = n + 1 := by
  obtain ⟨hlo, hhi⟩ := hn
  exact Int.bmod_eq_of_le (by omega) (by omega)

theorem IsPiece.bounds {n : Int} (h : IsPiece n) : -1 ≤ n ∧ n < 2 ^ 31 - 1 := by
  obtain ⟨hlo, hhi⟩ := h
  omega

theorem collect_eq (collected : List (Int × Int)) (i : Int × Int) {last : Int} (hlast : IsPiece last)
    {parts : List Int} (h : ∀ n ∈ parts, IsPiece n) :
    collect (collected ++ [i]) last parts = .ok (collected ++ intervalsFrom i last parts) := by
  induction parts generalizing collected i last with
  | nil => rfl
  | cons n parts ih =>
    obtain ⟨hn, hparts⟩ := List.forall_mem_cons.mp h
    rw [collect, intervalsFrom, List.getLast?_concat, List.dropLast_concat]
    by_cases hnext : n = last + 1
    · rw [if_pos ((wrapInt_sub_eq_one_iff hlast.bounds hn).mpr hnext), if_pos hnext]
      exact ih collected (i.1, n) hn hparts
    · rw [if_neg (fun he => hnext ((wrapInt_sub_eq_one_iff hlast.bounds hn).mp he)), if_neg hnext,
        wrapInt_succ hn]
      refine (ih (collected ++ [i]) (n, n + 1) hn hparts).trans ?_
      rw [List.append_assoc, List.singleton_append]

/-- The first number opens an interval, or writes into one that is not there. -/
theorem collect_nil {previous : Int} (hprevious : -1 ≤ previous ∧ previous < 2 ^ 31 - 1) {n : Int}
    {parts : List Int} (h : ∀ m ∈ n :: parts, IsPiece m) : collect [] previous (n :: parts) =
      if n = previous + 1 then .error .indexOutOfRange else .ok (intervalsFrom (n, n + 1) n parts) := by
  obtain ⟨hn, hparts⟩ := List.forall_mem_cons.mp h
  rw [collect]
  by_cases hnext : n = previous + 1
  · rw [if_pos ((wrapInt_sub_eq_one_iff hprevious hn).mpr hnext), if_pos hnext]
    rfl
  · rw [if_neg (fun he => hnext ((wrapInt_sub_eq_one_iff hprevious hn).mp he)), if_neg hnext,
      wrapInt_succ hn]
    exact collect_eq [] (n, n + 1) hn hparts

/-! ### How many pieces they hold -/

def piecesOf (i : Int × Int) : List Int := (List.range (i.2 - i.1).toNat).map fun k : Nat => i.1 + k

theorem mem_piecesOf {i : Int × Int} {n : Int} : n ∈ piecesOf i ↔ Holds i n := by
  rw [piecesOf, List.mem_map, Holds]
  constructor
  · rintro ⟨k, hk, rfl⟩
    have hlt := List.mem_range.mp hk
    omega
  · rintro ⟨hlo, hhi⟩
    exact ⟨(n - i.1).toNat, List.mem_range.mpr (by omega), by omega⟩

theorem nodup_piecesOf (i : Int × Int) : (piecesOf i).Nodup :=
  List.nodup_range.map fun _ _ hab => Int.ofNat.inj (Int.add_left_cancel hab)

theorem Covers.length_eq {parts : List Int} {intervals : List (Int × Int)} (h : Covers parts intervals)
    (hnodup : parts.Nodup) : (intervals.flatMap piecesOf).length = parts.length := by
  have hpieces : (intervals.flatMap piecesOf).Nodup := by
    rw [List.nodup_flatMap]
    refine ⟨fun i _ => nodup_piecesOf i, h.disjoint.imp fun {i j} hij n hi hj => ?_⟩
    exact hij n ⟨mem_piecesOf.mp hi, mem_piecesOf.mp hj⟩
  have hperm : (intervals.flatMap piecesOf).Perm parts := by
    rw [List.perm_ext_iff_of_nodup hpieces hnodup]
    intro n
    rw [List.mem_flatMap, ← h.union n]
    exact exists_congr fun i => and_congr_right fun _ => mem_piecesOf
  exact hperm.length_eq

theorem length_piecesOf (i : Int × Int) : (piecesOf i).length = (i.2 - i.1).toNat := by
  rw [piecesOf, List.length_map, List.length_range]

theorem length_intervalsFrom_le {i : Int × Int} {last : Int} (hi : i.1 ≤ last ∧ last ≤ i.2)
    (parts : List Int) : ((intervalsFrom i last parts).flatMap piecesOf).length ≤
      (i.2 - i.1).toNat + parts.length := by
  induction parts generalizing i last with
  | nil => simp [intervalsFrom, length_piecesOf]
  | cons n parts ih =>
    rw [intervalsFrom, List.length_cons]
    split_ifs with hnext
    · have hopen := ih (show (i.1, n).1 ≤ n ∧ n ≤ (i.1, n).2 by omega)
      have hgrown : (n - i.1).toNat ≤ (i.2 - i.1).toNat + 1 := by omega
      dsimp only at hopen
      omega
    · have hrest := ih (show (n, n + 1).1 ≤ n ∧ n ≤ (n, n + 1).2 by omega)
      rw [List.flatMap_cons, List.length_append, length_piecesOf]
      dsimp only at hrest
      omega

theorem length_intervalsFrom_lt {i : Int × Int} {last : Int} (hi : i.1 ≤ last ∧ i.2 = last + 1)
    {parts : List Int} (h : ¬ Apart (last :: parts)) :
    ((intervalsFrom i last parts).flatMap piecesOf).length < (i.2 - i.1).toNat + parts.length := by
  induction parts generalizing i last with
  | nil => exact absurd (List.IsChain.singleton last) h
  | cons n parts ih =>
    rw [intervalsFrom, List.length_cons]
    split_ifs with hnext
    · have hopen := length_intervalsFrom_le (show (i.1, n).1 ≤ n ∧ n ≤ (i.1, n).2 by omega) parts
      have hsame : (n - i.1).toNat = (i.2 - i.1).toNat := by omega
      dsimp only at hopen
      omega
    · have hrest : ¬ Apart (n :: parts) := fun hapart => h (hapart.cons_cons hnext)
      have hlost := ih (show (n, n + 1).1 ≤ n ∧ (n, n + 1).2 = n + 1 by omega) hrest
      rw [List.flatMap_cons, List.length_append, length_piecesOf]
      dsimp only at hlost
      omega

theorem intervalsFrom_of_apart {i : Int × Int} {last : Int} {parts : List Int}
    (h : Apart (last :: parts)) : intervalsFrom i last parts = i :: parts.map fun n => (n, n + 1) := by
  induction parts generalizing i last with
  | nil => rfl
  | cons n parts ih =>
    obtain ⟨hnext, hrest⟩ := List.isChain_cons_cons.mp h
    rw [intervalsFrom, if_neg hnext, ih hrest, List.map_cons]

theorem covers_singles {parts : List Int} (hnodup : parts.Nodup) :
    Covers parts (parts.map fun n => (n, n + 1)) := by
  constructor
  · rw [List.pairwise_map]
    refine hnodup.imp fun {a b} hab n hn => hab ?_
    obtain ⟨⟨halo, hahi⟩, hblo, hbhi⟩ := hn
    dsimp only at halo hahi hblo hbhi
    omega
  · intro n
    constructor
    · rintro ⟨i, hi, hlo, hhi⟩
      obtain ⟨m, hm, rfl⟩ := List.mem_map.mp hi
      have hmn : n = m := by
        dsimp only at hlo hhi
        omega
      exact hmn ▸ hm
    · intro hn
      exact ⟨(n, n + 1), List.mem_map.mpr ⟨n, hn, rfl⟩, le_rfl, Int.lt_succ n⟩

/-- The loop goes through and covers the list exactly where the list does not begin
with the number after the sentinel and no number follows the one before it. -/
theorem collect_covers_iff {previous : Int} (hprevious : -1 ≤ previous ∧ previous < 2 ^ 31 - 1)
    {parts : List Int} (h : ∀ n ∈ parts, IsPiece n) (hnodup : parts.Nodup) :
    (∃ intervals, collect [] previous parts = .ok intervals ∧ Covers parts intervals) ↔
      parts.head? ≠ some (previous + 1) ∧ Apart parts := by
  cases parts with
  | nil => exact iff_of_true ⟨[], rfl, covers_singles hnodup⟩ ⟨by simp, List.IsChain.nil⟩
  | cons n parts =>
    rw [collect_nil hprevious h, List.head?_cons, ne_eq, Option.some_inj]
    by_cases hfirst : n = previous + 1
    · rw [if_pos hfirst]
      refine iff_of_false ?_ fun hand => hand.1 hfirst
      rintro ⟨intervals, herror, -⟩
      cases herror
    · rw [if_neg hfirst]
      constructor
      · rintro ⟨intervals, hok, hcovers⟩
        obtain rfl := Except.ok.inj hok
        refine ⟨hfirst, ?_⟩
        by_contra hapart
        have hlost := length_intervalsFrom_lt (i := (n, n + 1)) ⟨le_rfl, rfl⟩ hapart
        rw [hcovers.length_eq hnodup, List.length_cons] at hlost
        dsimp only at hlost
        omega
      · rintro ⟨-, hapart⟩
        refine ⟨_, rfl, ?_⟩
        rw [intervalsFrom_of_apart hapart]
        exact covers_singles hnodup

/-- The bar shows exactly the pieces of both lists where neither begins with the
number behind its sentinel and no piece follows the one before it. -/
theorem shows_pieces_iff {downloaded downloading : List Int} (hdownloaded : ∀ n ∈ downloaded, IsPiece n)
    (hincreasing : downloaded.Pairwise (· < ·)) (hdownloading : ∀ n ∈ downloading, IsPiece n)
    (hnodup : downloading.Nodup) :
    ((∃ intervals, setDowloadedParts downloaded = .ok intervals ∧ Covers downloaded intervals) ↔
      downloaded.head? ≠ some 1 ∧ Apart downloaded) ∧
    ((∃ intervals, setDowloadingParts downloading = .ok intervals ∧ Covers downloading intervals) ↔
      downloading.head? ≠ some 0 ∧ Apart downloading) := by
  have hdistinct : downloaded.Nodup := hincreasing.imp fun {a b} hab => ne_of_lt hab
  exact ⟨collect_covers_iff (by decide) hdownloaded hdistinct,
    collect_covers_iff (by decide) hdownloading hnodup⟩

theorem shows_pieces_scattered :
    ((∃ intervals, setDowloadedParts [0, 2] = .ok intervals ∧ Covers [0, 2] intervals) ↔
      ([0, 2] : List Int).head? ≠ some 1 ∧ Apart [0, 2]) ∧
    ((∃ intervals, setDowloadingParts [7, 1, 4] = .ok intervals ∧ Covers [7, 1, 4] intervals) ↔
      ([7, 1, 4] : List Int).head? ≠ some 0 ∧ Apart [7, 1, 4]) :=
  shows_pieces_iff (by decide) (by decide) (by decide) (by decide)

/-- Of two pieces in a row the second is not drawn, and a list that begins with
piece 1, or with piece 0 among those being downloaded, takes the last of nothing. -/
theorem second_piece_missing :
    (¬ ∃ intervals, setDowloadedParts [0, 1] = .ok intervals ∧ Covers [0, 1] intervals) ∧
      setDowloadedParts [1] = .error .indexOutOfRange ∧
      setDowloadingParts [0] = .error .indexOutOfRange := by
  refine ⟨?_, rfl, rfl⟩
  rintro ⟨intervals, hok, hcovers⟩
  have hfirst : setDowloadedParts [0, 1] = .ok [(0, 1)] := rfl
  obtain rfl := Except.ok.inj (hfirst.symm.trans hok)
  obtain ⟨i, hi, hlo, hhi⟩ := (hcovers.union 1).mpr (by decide)
  obtain rfl := List.mem_singleton.mp hi
  exact absurd hhi (by decide)

end PeiceDisplayWidget
end CuteTorrent
