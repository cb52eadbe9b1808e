import CuteTorrent.Library.Assoc
import CuteTorrent.Qt

/-! `QApplicationSettings`: values by group and key, the groups of file filters
among them. -/
namespace CuteTorrent

/-- `QVariant`, as far as settings and JSON texts hold it; numbers are whole. -/
inductive QVariant where
  | invalid
  | bool (b : Bool)
  | int (n : Int)
  | string (s : QString)
  | list (values : List QVariant)
  | map (entries : List (QString × QVariant))

namespace QVariant

def isValid : QVariant → Bool
  | invalid => false
  | _ => true

def toBool : QVariant → Bool
  | bool b => b
  | int n => decide (n ≠ 0)
  | string s => !(["".toList, "0".toList, "false".toList].contains (s.map Char.toLower))
  | _ => false

/-- A number that is no `int` is cut to one. -/
def toInt : QVariant → Int
  | bool b => if b then 1 else 0
  | int n => wrapInt n
  | string s => (CuteTorrent.toInt s).getD 0
  | _ => 0

def toString : QVariant → QString
  | bool b => if b then "true".toList else "false".toList
  | int n => n.repr.toList
  | string s => s
  | _ => []

def toList : QVariant → List QVariant
  | list values => values
  | _ => []

def member (key : QString) : QVariant → QVariant
  | map entries => (Assoc.find key entries).getD invalid
  | _ => invalid

end QVariant

/-- The iteration order of a `QSet`. -/
class QtHash where
  setOrder : List QString → List QString
  setOrder_perm : ∀ s, (setOrder s).Perm s

@[reducible] def plainHash : QtHash := ⟨id, fun s => List.Perm.refl s⟩

structure GroupForFileFiltering where
  name : QString
  extensions : List QString
  path : QString

namespace GroupForFileFiltering

/-- The constructor, on extensions separated by bars. -/
def ofText (name extensions path : QString) : GroupForFileFiltering :=
  ⟨name, ((extensions.splitOn '|').filter fun e => decide (e ≠ [])).dedup, path⟩

def extensionsText [QtHash] (g : GroupForFileFiltering) : QString :=
  (QtHash.setOrder g.extensions).flatMap fun e => e ++ ['|']

end GroupForFileFiltering

abbrev Settings := List (QString × List (QString × QVariant))

namespace QApplicationSettings

def stored (s : Settings) (group key : QString) : QVariant :=
  ((Assoc.find group s).bind (Assoc.find key)).getD .invalid

def setValue (s : Settings) (group key : QString) (value : QVariant) : Settings :=
  Assoc.insert group (Assoc.insert key value ((Assoc.find group s).getD [])) s

/-- A value that is not there is read as its default, and stored. -/
def value (s : Settings) (group key : QString) (defaultVal : QVariant) : QVariant × Settings :=
  let res := stored s group key
  if !res.isValid && defaultVal.isValid then (defaultVal, setValue s group key defaultVal)
  else (res, s)

def valueInt (s : Settings) (group key : QString) (defalt : Int) : Int × Settings :=
  let (val, s) := value s group key (.int defalt)
  (val.toInt, s)

def valueString (s : Settings) (group key defalt : QString) : QString × Settings :=
  let (val, s) := value s group key (.string defalt)
  (val.toString, s)

def valueBool (s : Settings) (group key : QString) (defalt : Bool) : Bool × Settings :=
  let (val, s) := value s group key (.bool defalt)
  (val.toBool, s)

def fileFiltering : QString := "FileFiltering".toList

def saveFilterGropups [QtHash] (s : Settings) (filters : List GroupForFileFiltering) : Settings :=
  let text (g : GroupForFileFiltering) :=
    arg (arg "savepath;;%1;;extensions;;%2".toList g.path) g.extensionsText
  Assoc.insert fileFiltering
    (filters.foldl (fun m g => Assoc.insert g.name (.string (text g)) m) []) s

/-- One key of the group; none where the loop continues. -/
def filterGroup (name : QString) (val : QVariant) : Except Fault (Option GroupForFileFiltering) :=
  let tmpVal := splitText ";;".toList 0 [] val.toString
  if tmpVal.head? ≠ some "savepath".toList ∧ tmpVal.length < 4 then .ok none
  else
    match tmpVal with
    | _ :: savepath :: _ :: extensions :: _ => .ok (some (.ofText name extensions savepath))
    | _ => .error .indexOutOfRange

def filterGroups : List (QString × QVariant) → Except Fault (List GroupForFileFiltering)
  | [] => .ok []
  | (name, val) :: entries => do
    let group ← filterGroup name val
    let res ← filterGroups entries
    return group.toList ++ res

def getFileFilterGroups (s : Settings) : Except Fault (List GroupForFileFiltering) :=
  filterGroups ((Assoc.find fileFiltering s).getD [])

theorem stored_setValue (s : Settings) (group key : QString) (v : QVariant) :
    stored (setValue s group key v) group key = v := by
  simp [stored, setValue]

theorem stored_setValue_of_ne (s : Settings) {group key key' : QString} (h : key' ≠ key)
    (v : QVariant) : stored (setValue s group key v) group key' = stored s group key' := by
  rw [stored, stored, setValue, Assoc.find_insert_self, Option.bind_some,
    Assoc.find_insert_of_ne h]
  cases Assoc.find group s with
  | none => rfl
  | some m => rfl

theorem value_of_isValid {s : Settings} {group key : QString}
    (h : (stored s group key).isValid = true) (defaultVal : QVariant) :
    value s group key defaultVal = (stored s group key, s) := by
  simp [value, h]

theorem value_of_not_isValid {s : Settings} {group key : QString} {defaultVal : QVariant}
    (h : ¬ (stored s group key).isValid = true) (hd : defaultVal.isValid = true) :
    value s group key defaultVal = (defaultVal, setValue s group key defaultVal) := by
  simp [value, h, hd]

theorem find_value_of_ne {group group' : QString} (h : group' ≠ group) (s : Settings) (key : QString)
    (defaultVal : QVariant) :
    Assoc.find group' (value s group key defaultVal).2 = Assoc.find group' s := by
  rw [value]
  split_ifs
  · exact Assoc.find_insert_of_ne h _ _
  · rfl

theorem stored_value_of_ne {group key key' : QString} (h : key' ≠ key) (s : Settings)
    (defaultVal : QVariant) :
    stored (value s group key defaultVal).2 group key' = stored s group key' := by
  rw [value]
  split_ifs
  · exact stored_setValue_of_ne s h defaultVal
  · rfl

theorem isValid_value_snd {s : Settings} {group key key' : QString}
    (h : (stored s group key').isValid = true) (defaultVal : QVariant) :
    (stored (value s group key defaultVal).2 group key').isValid = true := by
  rw [value]
  split_ifs with hmissing
  · by_cases hkey : key' = key
    · rw [hkey, stored_setValue]
      exact (Bool.and_eq_true_iff.mp hmissing).2
    · rw [stored_setValue_of_ne s hkey]
      exact h
  · exact h

theorem isValid_value_self (s : Settings) (group key : QString) {defaultVal : QVariant}
    (hd : defaultVal.isValid = true) :
    (stored (value s group key defaultVal).2 group key).isValid = true := by
  by_cases h : (stored s group key).isValid = true
  · rw [value_of_isValid h]
    exact h
  · rw [value_of_not_isValid h hd, stored_setValue]
    exact hd

theorem value_fst (s : Settings) (group key : QString) {defaultVal : QVariant}
    (hd : defaultVal.isValid = true) :
    (value s group key defaultVal).1 =
      if (stored s group key).isValid then stored s group key else defaultVal := by
  by_cases h : (stored s group key).isValid = true
  · rw [value_of_isValid h, if_pos h]
  · rw [value_of_not_isValid h hd, if_neg h]

theorem value_value {group key key' : QString} {defaultVal defaultVal' : QVariant}
    (hd : defaultVal.isValid = true) (hsame : key' = key → defaultVal' = defaultVal) (s : Settings) :
    (value (value s group key' defaultVal').2 group key defaultVal).1 =
      (value s group key defaultVal).1 := by
  by_cases hkey : key' = key
  · subst hkey
    obtain rfl := hsame rfl
    by_cases h : (stored s group key').isValid = true
    · rw [value_of_isValid h]
      exact congrArg Prod.fst (value_of_isValid h _)
    · rw [value_of_not_isValid h hd, value_fst _ _ _ hd, stored_setValue, if_pos hd]
  · rw [value_fst _ _ _ hd, value_fst _ _ _ hd, stored_value_of_ne (Ne.symm hkey)]

theorem value_value_of_ne {group group' key key' : QString} {defaultVal defaultVal' : QVariant}
    (hd : defaultVal.isValid = true) (hkey : key' ≠ key) (s : Settings) :
    (value (value s group' key' defaultVal').2 group key defaultVal).1 =
      (value s group key defaultVal).1 := by
  by_cases hgroup : group = group'
  · subst hgroup
    exact value_value hd (fun he => absurd he hkey) s
  · rw [value_fst _ _ _ hd, value_fst _ _ _ hd, stored, find_value_of_ne hgroup, stored]

end QApplicationSettings
end CuteTorrent
