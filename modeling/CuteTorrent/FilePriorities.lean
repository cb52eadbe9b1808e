import CuteTorrent.TorrentManager

/-! The two loops that turn a map of priorities by path into a vector by file
index: the one of `AddTorrent` and the one of `AddMagnet`. -/
namespace CuteTorrent
namespace TorrentManager

abbrev PriorityMap := List (QString × Int8)

section loops
variable (p : Platform)

def nativeKey (path : QByteArray) : QString := p.toNativeSeparators (p.fromCString path)

/-- What `AddTorrent` pushes for a file, into a vector of `boost::uint8_t`. -/
def torrentPriority (filePriorities : PriorityMap) (path : QByteArray) : UInt8 :=
  match Assoc.find (nativeKey p path) filePriorities with
  | some v => v.toUInt8
  | none => 1

theorem filePrioritiesVector_eq {filePriorities : PriorityMap} (h : filePriorities ≠ [])
    (files : List QByteArray) :
    filePrioritiesVector p files (filePriorities.map fun e => (e.1, e.2.toUInt8.toNat)) =
      files.map fun path => (torrentPriority p filePriorities path).toNat := by
  rw [filePrioritiesVector, if_neg (by simpa using h)]
  apply List.map_congr_left
  intro path _
  rw [Assoc.find_map fun v : Int8 => v.toUInt8.toNat, torrentPriority, nativeKey]
  cases Assoc.find (p.toNativeSeparators (p.fromCString path)) filePriorities with
  | none => rfl
  | some v => rfl

/-- `filePriorities[key]`, which inserts a missing key. -/
def subscript (key : QString) (filePriorities : PriorityMap) : Int8 × PriorityMap :=
  match Assoc.find key filePriorities with
  | some v => (v, filePriorities)
  | none => (0, Assoc.insert key 0 filePriorities)

/-- The loop of `AddMagnet`, with the map as it leaves it, before `filePriorities.~QMap()`.
It asks for the native path and reads under the path as it is. -/
def magnetPriorities : List QByteArray → PriorityMap → List Int × PriorityMap
  | [], filePriorities => ([], filePriorities)
  | path :: files, filePriorities =>
    let (v, filePriorities) :=
      if Assoc.contains (nativeKey p path) filePriorities then
        let (v, filePriorities) := subscript (p.fromCString path) filePriorities
        (v.toInt, filePriorities)
      else (7, filePriorities)
    let (vs, filePriorities) := magnetPriorities files filePriorities
    (v :: vs, filePriorities)

/-- One entry for each file: the value the map has for it, or a default. -/
def selectionOr (default : Int) (filePriorities : PriorityMap) (path : QByteArray) : Int :=
  ((Assoc.find (nativeKey p path) filePriorities).map Int8.toInt).getD default

def SameSelection (files : List QByteArray) (filePriorities : PriorityMap) : Prop :=
  (∃ default,
    (files.map fun path => ((torrentPriority p filePriorities path).toNat : Int)) =
      files.map (selectionOr p default filePriorities) ∧
    (magnetPriorities p files filePriorities).1 =
      files.map (selectionOr p default filePriorities)) ∧
  ∀ key v, Assoc.find key filePriorities = some v →
    Assoc.find key (magnetPriorities p files filePriorities).2 = some v

def NativeKeys (filePriorities : PriorityMap) : Prop :=
  ∀ key ∈ Assoc.keys filePriorities, p.toNativeSeparators key = key

end loops

theorem toNat_toUInt8_eq_iff (v : Int8) : (v.toUInt8.toNat : Int) = v.toInt ↔ 0 ≤ v.toInt := by
  have hv : v.toInt = if 2 * v.toUInt8.toNat < 2 ^ 8 then (v.toUInt8.toNat : Int)
      else (v.toUInt8.toNat : Int) - 2 ^ 8 :=
    BitVec.toInt_eq_toNat_cond v.toBitVec
  have hlt : v.toUInt8.toNat < 2 ^ 8 := v.toUInt8.toNat_lt
  split_ifs at hv <;> omega

section selection
variable {p : Platform} {filePriorities : PriorityMap}

/-- What the loop finds for a file: the keys it has inserted are not native, and
their value is 0. -/
def magnetPriority (p : Platform) (filePriorities : PriorityMap) (path : QByteArray) : Int :=
  match Assoc.find (nativeKey p path) filePriorities with
  | some v => if p.fromCString path = nativeKey p path then v.toInt else 0
  | none => 7

structure Extends (p : Platform) (filePriorities now : PriorityMap) : Prop where
  native : ∀ key, p.toNativeSeparators key = key →
    Assoc.find key now = Assoc.find key filePriorities
  inserted : ∀ key, p.toNativeSeparators key ≠ key →
    Assoc.find key now = none ∨ Assoc.find key now = some 0

theorem extends_self (hkeys : NativeKeys p filePriorities) :
    Extends p filePriorities filePriorities where
  native _ _ := rfl
  inserted key hne := .inl ((Assoc.find_eq_none key _).mpr fun hmem => hne (hkeys key hmem))

theorem find_nativeKey {now : PriorityMap} (h : Extends p filePriorities now) (path : QByteArray) :
    Assoc.find (nativeKey p path) now = Assoc.find (nativeKey p path) filePriorities :=
  h.native _ (p.toNativeSeparators_idem _)

theorem extends_insert {now : PriorityMap} (h : Extends p filePriorities now) {key : QString}
    (hne : p.toNativeSeparators key ≠ key) :
    Extends p filePriorities (Assoc.insert key 0 now) where
  native j hj := by
    have hjk : j ≠ key := fun he => hne (he ▸ hj)
    rw [Assoc.find_insert_of_ne hjk, h.native j hj]
  inserted j hj := by
    rw [Assoc.find_insert]
    split_ifs
    · exact .inr rfl
    · exact h.inserted j hj

theorem subscript_spec {now : PriorityMap} (h : Extends p filePriorities now) {path : QByteArray}
    {v : Int8} (hv : Assoc.find (nativeKey p path) filePriorities = some v) :
    (subscript (p.fromCString path) now).1.toInt = magnetPriority p filePriorities path ∧
      Extends p filePriorities (subscript (p.fromCString path) now).2 := by
  rw [magnetPriority, hv]
  by_cases hkey : p.fromCString path = nativeKey p path
  · have hfind : Assoc.find (p.fromCString path) now = some v := by
      rw [hkey, find_nativeKey h, hv]
    simp only [subscript, hfind, if_pos hkey]
    exact ⟨trivial, h⟩
  · have hne : p.toNativeSeparators (p.fromCString path) ≠ p.fromCString path :=
      fun he => hkey he.symm
    simp only [if_neg hkey]
    cases h.inserted _ hne with
    | inl hfind =>
      simp only [subscript, hfind]
      exact ⟨rfl, extends_insert h hne⟩
    | inr hfind =>
      simp only [subscript, hfind]
      exact ⟨rfl, h⟩

theorem magnetPriorities_spec (files : List QByteArray) {now : PriorityMap}
    (h : Extends p filePriorities now) :
    (magnetPriorities p files now).1 = files.map (magnetPriority p filePriorities) ∧
      Extends p filePriorities (magnetPriorities p files now).2 := by
  induction files generalizing now with
  | nil => exact ⟨rfl, h⟩
  | cons path files ih =>
    cases hv : Assoc.find (nativeKey p path) filePriorities with
    | some v =>
      have hin : Assoc.contains (nativeKey p path) now = true := by
        rw [Assoc.contains, find_nativeKey h, hv]
        rfl
      obtain ⟨hvalue, hext⟩ := subscript_spec h hv
      obtain ⟨hrest, hlast⟩ := ih hext
      simp only [magnetPriorities, hin, if_true, List.map_cons]
      exact ⟨by rw [hvalue, hrest], hlast⟩
    | none =>
      have hin : Assoc.contains (nativeKey p path) now = false := by
        rw [Assoc.contains, find_nativeKey h, hv]
        rfl
      have hvalue : magnetPriority p filePriorities path = 7 := by rw [magnetPriority, hv]
      obtain ⟨hrest, hlast⟩ := ih h
      simp only [magnetPriorities, hin, Bool.false_eq_true, if_false, List.map_cons]
      exact ⟨by rw [hvalue, hrest], hlast⟩

theorem priorities_agree_iff (default : Int) (path : QByteArray) :
    ((torrentPriority p filePriorities path).toNat : Int) =
        selectionOr p default filePriorities path ∧
      magnetPriority p filePriorities path = selectionOr p default filePriorities path ↔
    ∃ v, Assoc.find (nativeKey p path) filePriorities = some v ∧ 0 ≤ v.toInt ∧
      (p.fromCString path ≠ nativeKey p path → v = 0) := by
  rw [torrentPriority, magnetPriority, selectionOr]
  cases hv : Assoc.find (nativeKey p path) filePriorities with
  | none =>
    refine ⟨fun h => ?_, fun ⟨v, hc, _⟩ => absurd hc (by simp)⟩
    have hone : (1 : Int) = default := h.1
    have hseven : (7 : Int) = default := h.2
    omega
  | some v =>
    simp only [Option.map_some, Option.getD_some, toNat_toUInt8_eq_iff, Option.some.injEq,
      exists_eq_left']
    refine and_congr_right fun _ => ?_
    by_cases hkey : p.fromCString path = nativeKey p path
    · simp [hkey]
    · have hzero : (0 : Int) = v.toInt ↔ v = 0 := by
        rw [← Int8.toInt_inj, Int8.toInt_zero, eq_comm]
      simp [hkey, hzero]

end selection

end TorrentManager
end CuteTorrent
