import Mathlib.Data.Finset.Basic
import CuteTorrent.Library.Assoc
import CuteTorrent.Library.Leader
import CuteTorrent.FileViewModel

/-! `StaticHelpers`: sizes as texts, and the suffix that decides on the icon of a torrent. -/
namespace CuteTorrent
open Leader

namespace Platform

def fromNativeSeparators (p : Platform) (s : QString) : QString :=
  match p with
  | windows => s.map fun c => if c = '\\' then '/' else c
  | unix => s

/-- `QFileInfo(file).fileName()` -/
def fileName (p : Platform) (file : QString) : QString :=
  ((p.fromNativeSeparators file).reverse.takeWhile fun c => decide (c ≠ '/')).reverse

theorem fileName_below (p : Platform) (dir name : QString) :
    p.fileName (dir ++ p.separator :: name) = p.fileName name := by
  have hsplit : p.fromNativeSeparators (dir ++ p.separator :: name) =
      p.fromNativeSeparators dir ++ '/' :: p.fromNativeSeparators name := by
    cases p with
    | windows => simp [fromNativeSeparators, separator]
    | unix => rfl
  have hstop : ∀ l l' : QString, (l ++ '/' :: l').takeWhile (fun c => decide (c ≠ '/')) =
      l.takeWhile fun c => decide (c ≠ '/') := by
    intro l l'
    induction l with
    | nil => rfl
    | cons c l ih =>
      rw [List.cons_append, List.takeWhile_cons, List.takeWhile_cons, ih]
  rw [fileName, hsplit, List.reverse_append, List.reverse_cons, List.append_assoc,
    List.singleton_append, hstop, fileName]

/-- `QFileInfo(file).suffix()` -/
def suffix (p : Platform) (file : QString) : QString :=
  if '.' ∈ p.fileName file then
    ((p.fileName file).reverse.takeWhile fun c => decide (c ≠ '.')).reverse
  else []

end Platform

/-- Numbers of type `float`: from an integer and back into one, divided, and as a text with so
many digits behind the point. -/
class QtFloat where
  Single : Type
  ofInt : Int → Single
  toSizeType : Single → Int
  divide : Single → Nat → Single
  number : Single → Nat → QString

namespace StaticHelpers

section
variable [QtFloat]
open QtFloat

def Suffix : List QString :=
  [" B", " KB", " MB", " GB", " TB", " PB", " EB", " ZB"].map String.toList

/-- The loop of `toKbMbGb`, along the suffixes that are left; no size of 64 bits exhausts them. -/
def appendSuffix (dblSByte : Single) (precision : Nat) : List QString → QString
  | [] => number dblSByte precision
  | suffix :: larger =>
    if 0 < toSizeType (divide dblSByte 1024) then appendSuffix (divide dblSByte 1024) 2 larger
    else number dblSByte precision ++ suffix

def toKbMbGb (size : Int) : QString :=
  if size > 1024 then appendSuffix (ofInt size) 0 Suffix
  else number (ofInt size) 0 ++ " B".toList

end

structure SuffixLoop where
  base_suffix : QString
  maxSuffix : Nat
  suffixesCount : List (QString × Nat)
deriving DecidableEq, Repr

def counted (suffixesCount : List (QString × Nat)) (suffix : QString) : List (QString × Nat) :=
  if !Assoc.contains suffix suffixesCount then Assoc.insert suffix 1 suffixesCount
  else Assoc.modify suffix (· + 1) suffixesCount

/-- What a file does whose suffix is that of neither a disk image nor a video. -/
def countSuffix (l : SuffixLoop) (suffix : QString) : SuffixLoop :=
  let suffixesCount := counted l.suffixesCount suffix
  let count := (Assoc.find suffix suffixesCount).getD 0
  if count > l.maxSuffix then ⟨suffix, count, suffixesCount⟩
  else { l with suffixesCount }

section
variable (p : Platform) (disk video : Finset QString)

def baseSuffix : SuffixLoop → List FileEntry → QString
  | l, [] => l.base_suffix
  | l, file :: files =>
    let suffix := p.suffix (fromUtf8 (cString file.path))
    if suffix ∈ disk then suffix
    else if suffix ∈ video then suffix
    else baseSuffix (countSuffix l suffix) files

def GetBaseSuffix (storrage : List FileEntry) : QString := baseSuffix p disk video ⟨[], 0, []⟩ storrage

end

def fileSuffixes (p : Platform) (files : List FileEntry) : List QString :=
  files.map fun file => p.suffix (fromUtf8 (cString file.path))

/-- What the variables of the loop are once it has counted the suffixes. -/
structure Counted (suffixes : List QString) (l : SuffixLoop) : Prop where
  count_eq : ∀ s, (Assoc.find s l.suffixesCount).getD 0 = suffixes.count s
  count_le : ∀ s, suffixes.count s ≤ l.maxSuffix
  none_yet : suffixes = [] → l.base_suffix = [] ∧ l.maxSuffix = 0
  leads : suffixes ≠ [] →
    Leads suffixes l.base_suffix ∧ suffixes.count l.base_suffix = l.maxSuffix

theorem counted_nil : Counted [] ⟨[], 0, []⟩ where
  count_eq _ := rfl
  count_le _ := Nat.le_refl 0
  none_yet _ := ⟨rfl, rfl⟩
  leads h := absurd rfl h

theorem find_counted (suffixesCount : List (QString × Nat)) (suffix s : QString) :
    (Assoc.find s (counted suffixesCount suffix)).getD 0 =
      (Assoc.find s suffixesCount).getD 0 + [suffix].count s := by
  unfold counted
  by_cases hs : s = suffix
  · subst hs
    rw [List.count_singleton_self]
    cases hfind : Assoc.find s suffixesCount with
    | none => simp [Assoc.contains, hfind]
    | some n => simp [Assoc.contains, hfind, Assoc.find_modify]
  · have hnone : [suffix].count s = 0 := List.count_eq_zero.mpr (by simpa using hs)
    rw [hnone, Nat.add_zero]
    split
    · rw [Assoc.find_insert_of_ne hs]
    · rw [Assoc.find_modify, if_neg hs]

theorem Counted.countSuffix {suffixes : List QString} {l : SuffixLoop} (h : Counted suffixes l)
    (suffix : QString) : Counted (suffixes ++ [suffix]) (countSuffix l suffix) := by
  have hcount : ∀ s, (Assoc.find s (counted l.suffixesCount suffix)).getD 0 =
      (suffixes ++ [suffix]).count s := by
    intro s
    rw [find_counted, h.count_eq, List.count_append]
  have hsome : ∀ {P : Prop}, suffixes ++ [suffix] = [] → P := fun he => absurd he (by simp)
  unfold StaticHelpers.countSuffix
  dsimp only
  rw [hcount suffix]
  split
  case isTrue hgt =>
    have hleads : Leads (suffixes ++ [suffix]) suffix := Leads.of_overtakes h.count_le hgt
    exact ⟨hcount, hleads.count_le, hsome, fun _ => ⟨hleads, rfl⟩⟩
  case isFalse hle =>
    have hone : 0 < (suffixes ++ [suffix]).count suffix := by
      rw [List.count_append, List.count_singleton_self]
      exact Nat.succ_pos _
    have hne : suffixes ≠ [] := fun hnil => hle ((h.none_yet hnil).2 ▸ hone)
    obtain ⟨hleads, hmax⟩ := h.leads hne
    have hbehind : (suffixes ++ [suffix]).count suffix ≤ suffixes.count l.base_suffix := by omega
    obtain ⟨hkept, hsame⟩ := hleads.append hbehind
    refine ⟨hcount, ?_, hsome, fun _ => ⟨hkept, hsame.trans hmax⟩⟩
    intro s
    exact (hkept.count_le s).trans (hsame.trans hmax).le

theorem leads_baseSuffix {p : Platform} {disk video : Finset QString} {files : List FileEntry}
    (hother : ∀ s ∈ fileSuffixes p files, s ∉ disk ∧ s ∉ video) {l : SuffixLoop}
    {suffixes : List QString} (h : Counted suffixes l) :
    ∃ l', baseSuffix p disk video l files = l'.base_suffix ∧
      Counted (suffixes ++ fileSuffixes p files) l' := by
  induction files generalizing suffixes l with
  | nil => exact ⟨l, rfl, by simpa [fileSuffixes] using h⟩
  | cons file files ih =>
    rw [fileSuffixes, List.map_cons, List.forall_mem_cons] at hother
    obtain ⟨⟨hdisk, hvideo⟩, hrest⟩ := hother
    obtain ⟨l', hl', hcounted⟩ := ih hrest (h.countSuffix _)
    refine ⟨l', ?_, ?_⟩
    · rw [baseSuffix, if_neg hdisk, if_neg hvideo]
      exact hl'
    · rw [fileSuffixes, List.map_cons, ← List.singleton_append, ← List.append_assoc]
      exact hcounted

/-- The first file that is a disk image or a video ends the loop. -/
theorem baseSuffix_of_find {p : Platform} {disk video : Finset QString} {files : List FileEntry}
    {s : QString} (h : (fileSuffixes p files).find? (fun s => s ∈ disk ∨ s ∈ video) = some s)
    (l : SuffixLoop) : baseSuffix p disk video l files = s := by
  induction files generalizing l with
  | nil => cases h
  | cons file files ih =>
    rw [fileSuffixes, List.map_cons, List.find?_cons] at h
    rw [baseSuffix]
    by_cases hdisk : p.suffix (fromUtf8 (cString file.path)) ∈ disk
    · simp only [hdisk, true_or, decide_true] at h
      rw [if_pos hdisk]
      exact Option.some.inj h
    by_cases hvideo : p.suffix (fromUtf8 (cString file.path)) ∈ video
    · simp only [hvideo, or_true, decide_true] at h
      rw [if_neg hdisk, if_pos hvideo]
      exact Option.some.inj h
    · simp only [hdisk, hvideo, or_self, decide_false] at h
      rw [if_neg hdisk, if_neg hvideo]
      exact ih h _

theorem counted_base_suffix {p : Platform} {disk video : Finset QString} {files : List FileEntry}
    (hother : ∀ s ∈ fileSuffixes p files, s ∉ disk ∧ s ∉ video) :
    ∃ l, GetBaseSuffix p disk video files = l.base_suffix ∧ Counted (fileSuffixes p files) l := by
  have hloop := leads_baseSuffix hother counted_nil
  rwa [List.nil_append] at hloop

/-- The base suffix is that of the first disk image or video; where there is none, the suffix
of the most files, the one that reached their number first. -/
theorem getBaseSuffix_spec (p : Platform) (disk video : Finset QString) (files : List FileEntry) :
    (∀ s, (fileSuffixes p files).find? (fun s => s ∈ disk ∨ s ∈ video) = some s →
      GetBaseSuffix p disk video files = s) ∧
    ((fileSuffixes p files).find? (fun s => s ∈ disk ∨ s ∈ video) = none →
      (files = [] → GetBaseSuffix p disk video files = []) ∧
      (files ≠ [] → Leads (fileSuffixes p files) (GetBaseSuffix p disk video files))) := by
  refine ⟨fun s h => baseSuffix_of_find h _, fun h => ?_⟩
  have hother : ∀ s ∈ fileSuffixes p files, s ∉ disk ∧ s ∉ video := by
    simpa [not_or] using h
  obtain ⟨l, hl, hcounted⟩ := counted_base_suffix hother
  rw [hl]
  constructor
  · rintro rfl
    exact (hcounted.none_yet rfl).1
  · intro hne
    exact (hcounted.leads (by simpa [fileSuffixes] using hne)).1

end StaticHelpers
end CuteTorrent
