import Mathlib.Tactic.Linarith
import CuteTorrent.Qt

/-! `UpdateNotifier::replyFinished`: the version of the client and the one that is
received are each folded into one number, and the numbers are compared. -/
namespace CuteTorrent
namespace UpdateNotifier

structure Version where
  major : Nat
  minor : Nat
  revision : Nat
  tag : Nat

def Version.components (v : Version) : List Int := [v.major, v.minor, v.revision, v.tag]

structure QNetworkReply where
  readAll : QByteArray
  isFinished : Bool
  errorString : QString

structure Shown where
  balloons : List QString
  showUpdateNitify : Option QString
deriving DecidableEq

def InInt (n : Int) : Prop := -2 ^ 31 ≤ n ∧ n < 2 ^ 31

instance (n : Int) : Decidable (InInt n) := inferInstanceAs (Decidable (_ ∧ _))

/-- The result of `int` arithmetic; none where it overflows, which is undefined. -/
def checked (n : Int) : Option Int := if InInt n then some n else none

def currentVersion (v : Version) : Option Int := do
  let major ← checked (1000 * v.major)
  let minor ← checked (100 * v.minor)
  let sum ← checked (major + minor)
  let revision ← checked (10 * v.revision)
  let sum ← checked (sum + revision)
  checked (sum + v.tag)

def receive : Nat → Int → List QString → Option Int
  | _, recevedVersion, [] => some recevedVersion
  | mul, recevedVersion, part :: parts => do
    let product ← checked (mul * (toInt part).getD 0)
    let sum ← checked (recevedVersion + product)
    receive (mul / 10) sum parts

def replyFinished (p : Platform) (version : Version) (pReply : QNetworkReply) : Option Shown := do
  let str := p.fromCString pReply.readAll
  let current ← currentVersion version
  let parts := str.splitOn '.'
  let receved ← receive 1000 0 parts
  some
    { balloons :=
        (if parts.length ≠ 4 then ["ERROR_GETTING_VERSION_STR".toList] else []) ++
          (if !pReply.isFinished then [pReply.errorString] else [])
      showUpdateNitify := if receved > current then some str else none }

/-! ### Versions as texts -/

def number (s : QString) : Option Int :=
  let signed := trimmed s
  let digits := match signed with
    | '-' :: t => t
    | '+' :: t => t
    | t => t
  if digits ≠ [] ∧ digits.all Char.isDigit then
    some (if signed.head? = some '-' then -decimalValue digits else decimalValue digits)
  else none

def numbers (str : QString) : Option (List Int) :=
  if (str.splitOn '.').length = 4 then (str.splitOn '.').mapM number else none

/-- What `toInt` makes of a number: what an `int` cannot hold is read as 0. -/
def taken (n : Int) : Int := if InInt n then n else 0

theorem toInt_getD_eq_taken {part : QString} {n : Int} (h : number part = some n) :
    (toInt part).getD 0 = taken n := by
  have hread : toInt part = if InInt n then some n else none := by
    rw [number] at h
    split_ifs at h with hdigits hsign
    · cases h
      refine (if_pos hdigits).trans ?_
      simp only [if_pos hsign]
      rfl
    · cases h
      refine (if_pos hdigits).trans ?_
      simp only [if_neg hsign]
      rfl
  rw [hread, taken]
  split_ifs <;> rfl

theorem values_eq_taken {parts : List QString} {received : List Int}
    (h : parts.mapM number = some received) :
    parts.map (fun part => (toInt part).getD 0) = received.map taken := by
  induction parts generalizing received with
  | nil =>
    cases h
    rfl
  | cons part parts ih =>
    rw [List.mapM_cons] at h
    obtain ⟨n, hn, h⟩ := Option.bind_eq_some_iff.mp h
    obtain ⟨ns, hns, h⟩ := Option.bind_eq_some_iff.mp h
    cases h
    rw [List.map_cons, List.map_cons, toInt_getD_eq_taken hn, ih hns]

/-! ### The weights -/

/-- The sum of the components, with a weight that is a tenth of the one before, and 0 in
the end. -/
def weigh : Nat → List Int → Int
  | _, [] => 0
  | mul, n :: ns => mul * n + weigh (mul / 10) ns

def Fits : Nat → Int → List Int → Prop
  | _, _, [] => True
  | mul, sum, n :: ns => InInt (mul * n) ∧ InInt (sum + mul * n) ∧ Fits (mul / 10) (sum + mul * n) ns

/-- The later components do not outweigh the first one that differs: behind a greater
component the rest loses less than is won, behind a smaller one it wins no more than
is lost. -/
def Leads : Nat → List Int → List Int → Prop
  | mul, c :: current, r :: received =>
    if c = r then Leads (mul / 10) current received
    else if c < r then
      weigh (mul / 10) current - weigh (mul / 10) (received.map taken) < mul * (taken r - c)
    else
      weigh (mul / 10) (received.map taken) - weigh (mul / 10) current ≤ mul * (c - taken r)
  | _, _, _ => True

theorem checked_eq_some {n m : Int} : checked n = some m ↔ InInt n ∧ m = n := by
  rw [checked]
  split_ifs with h <;> simp [h, eq_comm]

theorem receive_eq_some (mul : Nat) (sum : Int) (parts : List QString) (v : Int) :
    receive mul sum parts = some v ↔
      Fits mul sum (parts.map fun part => (toInt part).getD 0) ∧
        v = sum + weigh mul (parts.map fun part => (toInt part).getD 0) := by
  induction parts generalizing mul sum with
  | nil => simp [receive, Fits, weigh, eq_comm]
  | cons part parts ih =>
    simp only [receive, List.map_cons, Fits, weigh, Option.bind_eq_bind, Option.bind_eq_some_iff,
      checked_eq_some, ih]
    constructor
    · rintro ⟨product, ⟨hproduct, rfl⟩, sum', ⟨hsum, rfl⟩, hrest, rfl⟩
      exact ⟨⟨hproduct, hsum, hrest⟩, by rw [Int.add_assoc]⟩
    · rintro ⟨⟨hproduct, hsum, hrest⟩, rfl⟩
      exact ⟨_, ⟨hproduct, rfl⟩, _, ⟨hsum, rfl⟩, hrest, by rw [Int.add_assoc]⟩

theorem currentVersion_eq_some (version : Version) (v : Int) :
    currentVersion version = some v ↔
      Fits 1000 0 version.components ∧ v = weigh 1000 version.components := by
  simp only [currentVersion, Option.bind_eq_bind, Option.bind_eq_some_iff, checked_eq_some,
    Version.components, Fits, weigh, Nat.reduceDiv, Nat.cast_ofNat, Nat.cast_one, one_mul, zero_add,
    and_true, add_zero]
  constructor
  · rintro ⟨_, ⟨hmajor, rfl⟩, _, ⟨hminor, rfl⟩, _, ⟨htwo, rfl⟩, _, ⟨hrevision, rfl⟩, _,
      ⟨hthree, rfl⟩, hall, rfl⟩
    have htag : InInt version.tag := by
      simp only [InInt] at hall ⊢
      omega
    exact ⟨⟨hmajor, hmajor, hminor, htwo, hrevision, hthree, htag, hall⟩, by omega⟩
  · rintro ⟨⟨hmajor, -, hminor, htwo, hrevision, hthree, -, hall⟩, rfl⟩
    exact ⟨_, ⟨hmajor, rfl⟩, _, ⟨hminor, rfl⟩, _, ⟨htwo, rfl⟩, _, ⟨hrevision, rfl⟩, _, ⟨hthree, rfl⟩,
      hall, by omega⟩

theorem mul_taken {mul : Nat} {n : Int} (h : InInt (mul * n)) : (mul : Int) * taken n = mul * n := by
  obtain rfl | hmul := Nat.eq_zero_or_pos mul
  · simp
  · have hn : InInt n := by
      have hmul' : (1 : Int) ≤ mul := by exact_mod_cast hmul
      rw [InInt] at h ⊢
      constructor <;> by_contra hout <;> nlinarith
    rw [taken, if_pos hn]

/-- What is compared is what the components say, exactly when the first that differs
leads. -/
theorem weigh_lt_iff {mul : Nat} {sum : Int} {current received : List Int}
    (hfits : Fits mul sum current) (hlen : current.length = received.length) :
    ((weigh mul current < weigh mul (received.map taken)) ↔ current < received) ↔
      Leads mul current received := by
  induction current generalizing mul sum received with
  | nil =>
    cases received with
    | nil => simp [Leads]
    | cons r received => exact absurd hlen (by simp)
  | cons c current ih =>
    cases received with
    | nil => exact absurd hlen (by simp)
    | cons r received =>
      obtain ⟨hproduct, -, hrest⟩ := hfits
      rw [List.map_cons, weigh, weigh, List.cons_lt_cons_iff, Leads]
      by_cases heq : c = r
      · subst heq
        have htaken := mul_taken hproduct
        rw [if_pos rfl, ← ih hrest (Nat.succ.inj hlen), htaken]
        simp
      · rw [if_neg heq]
        by_cases hlt : c < r
        · have hlex : c < r ∨ c = r ∧ current < received := .inl hlt
          rw [if_pos hlt, iff_true_right hlex]
          constructor <;> intro h <;> linarith
        · have hnot : ¬ (c < r ∨ c = r ∧ current < received) := by
            rintro (h | ⟨h, -⟩)
            · exact hlt h
            · exact heq h
          rw [if_neg hlt, iff_false_right hnot, not_lt]
          constructor <;> intro h <;> linarith

/-! ### What is announced -/

def text (p : Platform) (pReply : QNetworkReply) : QString := p.fromCString pReply.readAll

def values (str : QString) : List Int := (str.splitOn '.').map fun part => (toInt part).getD 0

def Announces (p : Platform) (version : Version) (pReply : QNetworkReply) : Prop :=
  ∃ shown, replyFinished p version pReply = some shown ∧
    shown.showUpdateNitify = some (text p pReply)

def Silent (p : Platform) (version : Version) (pReply : QNetworkReply) : Prop :=
  ∃ shown, replyFinished p version pReply = some shown ∧ shown.showUpdateNitify = none

/-- Of four numbers, none of them negative, an update is announced when they come after
the version of the client in lexicographic order, and else not; of anything but four
numbers it is not. -/
def ComparesVersions (p : Platform) (version : Version) (pReply : QNetworkReply) : Prop :=
  match numbers (text p pReply) with
  | some received =>
    (∀ n ∈ received, 0 ≤ n) →
      if version.components < received then Announces p version pReply
      else Silent p version pReply
  | none => Silent p version pReply

def WithinInt (version : Version) (str : QString) : Prop :=
  Fits 1000 0 version.components ∧ Fits 1000 0 (values str)

theorem replyFinished_eq_some (p : Platform) (version : Version) (pReply : QNetworkReply)
    (shown : Shown) :
    replyFinished p version pReply = some shown ↔
      WithinInt version (text p pReply) ∧
        shown =
          { balloons :=
              (if ((text p pReply).splitOn '.').length ≠ 4 then ["ERROR_GETTING_VERSION_STR".toList]
                else []) ++
                (if !pReply.isFinished then [pReply.errorString] else [])
            showUpdateNitify :=
              if weigh 1000 (values (text p pReply)) > weigh 1000 version.components then
                some (text p pReply) else none } := by
  simp only [replyFinished, Option.bind_eq_bind, Option.bind_eq_some_iff, currentVersion_eq_some,
    receive_eq_some, zero_add]
  constructor
  · rintro ⟨_, ⟨hcurrent, rfl⟩, _, ⟨hreceived, rfl⟩, h⟩
    exact ⟨⟨hcurrent, hreceived⟩, (Option.some.inj h).symm⟩
  · rintro ⟨⟨hcurrent, hreceived⟩, rfl⟩
    exact ⟨_, ⟨hcurrent, rfl⟩, _, ⟨hreceived, rfl⟩, rfl⟩

theorem announces_iff (p : Platform) (version : Version) (pReply : QNetworkReply) :
    Announces p version pReply ↔ WithinInt version (text p pReply) ∧
      weigh 1000 version.components < weigh 1000 (values (text p pReply)) := by
  simp only [Announces, replyFinished_eq_some]
  constructor
  · rintro ⟨_, ⟨hwithin, rfl⟩, hshown⟩
    refine ⟨hwithin, ?_⟩
    by_contra hle
    simp [hle] at hshown
  · rintro ⟨hwithin, hlt⟩
    exact ⟨_, ⟨hwithin, rfl⟩, if_pos hlt⟩

theorem silent_iff (p : Platform) (version : Version) (pReply : QNetworkReply) :
    Silent p version pReply ↔ WithinInt version (text p pReply) ∧
      weigh 1000 (values (text p pReply)) ≤ weigh 1000 version.components := by
  simp only [Silent, replyFinished_eq_some]
  constructor
  · rintro ⟨_, ⟨hwithin, rfl⟩, hshown⟩
    refine ⟨hwithin, ?_⟩
    by_contra hlt
    simp [not_le.mp hlt] at hshown
  · rintro ⟨hwithin, hle⟩
    exact ⟨_, ⟨hwithin, rfl⟩, if_neg (not_lt.mpr hle)⟩

theorem values_of_numbers {str : QString} {received : List Int} (h : numbers str = some received) :
    values str = received.map taken ∧ received.length = 4 := by
  rw [numbers] at h
  split_ifs at h with hlen
  have hmap := values_eq_taken h
  refine ⟨hmap, ?_⟩
  have hlength := congrArg List.length hmap
  rw [List.length_map, List.length_map, hlen] at hlength
  exact hlength.symm

/-- When the notice is right: no arithmetic overflows, and of four numbers, none of them
negative, the later do not outweigh the first that differs from the client's; of
anything else the first four parts weigh no more than the client's version. -/
def Comparable (version : Version) (str : QString) : Prop :=
  match numbers str with
  | some received =>
    (∀ n ∈ received, 0 ≤ n) → WithinInt version str ∧ Leads 1000 version.components received
  | none => WithinInt version str ∧ weigh 1000 (values str) ≤ weigh 1000 version.components

theorem comparesVersions_iff (p : Platform) (version : Version) (pReply : QNetworkReply) :
    ComparesVersions p version pReply ↔ Comparable version (text p pReply) := by
  rw [ComparesVersions, Comparable]
  cases hnumbers : numbers (text p pReply) with
  | none => exact silent_iff p version pReply
  | some received =>
    obtain ⟨hvalues, hlen⟩ := values_of_numbers hnumbers
    refine imp_congr_right fun _ => ?_
    rw [announces_iff, silent_iff, hvalues]
    have hlead : WithinInt version (text p pReply) →
        ((weigh 1000 version.components < weigh 1000 (received.map taken) ↔
          version.components < received) ↔ Leads 1000 version.components received) :=
      fun hwithin => weigh_lt_iff hwithin.1 hlen.symm
    split_ifs with hlt
    · refine and_congr_right fun hwithin => ?_
      rw [← hlead hwithin, iff_true_right hlt]
    · refine and_congr_right fun hwithin => ?_
      rw [← hlead hwithin, iff_false_right hlt, not_lt]

/-- 0.8.12.9 weighs more than 0.9.2.8. -/
theorem older_version_announced :
    Announces Platform.unix ⟨0, 9, 2, 8⟩ ⟨literal "0.8.12.9", true, []⟩ ∧
      ¬ ComparesVersions Platform.unix ⟨0, 9, 2, 8⟩ ⟨literal "0.8.12.9", true, []⟩ := by
  have hshown : replyFinished Platform.unix ⟨0, 9, 2, 8⟩ ⟨literal "0.8.12.9", true, []⟩ =
      some ⟨[], some "0.8.12.9".toList⟩ := by decide +kernel
  have htext : text Platform.unix ⟨literal "0.8.12.9", true, []⟩ = "0.8.12.9".toList := by
    decide +kernel
  have hnumbers : numbers "0.8.12.9".toList = some [0, 8, 12, 9] := by decide +kernel
  have hlt : ¬ (⟨0, 9, 2, 8⟩ : Version).components < [0, 8, 12, 9] := by decide
  refine ⟨⟨_, hshown, congrArg some htext.symm⟩, fun hright => ?_⟩
  rw [ComparesVersions, htext, hnumbers] at hright
  have hsilent := hright (by decide)
  rw [if_neg hlt] at hsilent
  obtain ⟨shown, hrun, hnone⟩ := hsilent
  rw [hshown] at hrun
  cases hrun
  exact absurd hnone (Option.some_ne_none _)

end UpdateNotifier
end CuteTorrent
