import CuteTorrent.ApplicationSettings
import CuteTorrent.Library.Fuel

/-! `QtJson::parse`. A position in the text is the text from there on. -/
namespace CuteTorrent

/-- `QVariant(text.toDouble())`, of a text with a decimal point. -/
class QtDouble where
  toDouble : QString → QVariant

namespace Json

inductive JsonToken where
  | none
  | curlyOpen
  | curlyClose
  | squaredOpen
  | squaredClose
  | colon
  | comma
  | string
  | number
  | true
  | false
  | null
deriving DecidableEq, Repr

def eatWhitespace (s : QString) : QString := s.dropWhile fun c => decide (c ∈ " \t\n\r".toList)

def punctuation : List (Char × JsonToken) :=
  [('{', .curlyOpen), ('}', .curlyClose), ('[', .squaredOpen), (']', .squaredClose), (',', .comma),
    ('"', .string), (':', .colon)]

/-- The token at the position, and the position behind it. Before what starts no
token only the white space is passed. -/
def nextToken (s : QString) : JsonToken × QString :=
  match eatWhitespace s with
  | [] => (.none, [])
  | c :: rest =>
    match Assoc.find c punctuation with
    | some token => (token, rest)
    | none =>
      if c.isDigit ∨ c = '-' then (.number, rest)
      else if "true".toList.isPrefixOf (c :: rest) then (.true, rest.drop 3)
      else if "false".toList.isPrefixOf (c :: rest) then (.false, rest.drop 4)
      else if "null".toList.isPrefixOf (c :: rest) then (.null, rest.drop 3)
      else (.none, c :: rest)

def lookAhead (s : QString) : JsonToken := (nextToken s).1

/-- `toInt(0, 16)`, with 0 for what it cannot read. -/
def hexValue (s : QString) : Int :=
  let signed := trimmed s
  let unsigned := if signed.head? = some '-' ∨ signed.head? = some '+' then signed.tail else signed
  let digits := if "0x".toList.isPrefixOf (unsigned.map Char.toLower) then unsigned.drop 2 else unsigned
  let value (c : Char) : Option Nat :=
    if c.isDigit then some (c.toNat - 48)
    else if 'a' ≤ c.toLower ∧ c.toLower ≤ 'f' then some (c.toLower.toNat - 87)
    else none
  let number := if digits = [] then none
    else digits.foldlM (fun n c => (value c).map fun d => 16 * n + d) 0
  let n : Int := (number.getD 0 : Nat)
  if signed.head? = some '-' then -n else n

/-- `QChar(symbol)`. Half of a surrogate pair is no `Char`; U+FFFD stands for it. -/
def unicode (s : QString) : Char :=
  let n := (hexValue s % 2 ^ 16).toNat
  if 0xD800 ≤ n ∧ n < 0xE000 then replacementChar else Char.ofNat n

/-- What stands for the character behind a backslash: nothing for an unknown one. -/
def escaped : Char → QString
  | '"' => ['"']
  | '\\' => ['\\']
  | '/' => ['/']
  | 'b' => ['\x08']
  | 'f' => ['\x0c']
  | 'n' => ['\n']
  | 'r' => ['\r']
  | 't' => ['\t']
  | _ => []

/-- The loop of `parseString`; none when the text ends before the quote. -/
def stringLoop : QString → Option (QString × QString)
  | [] => none
  | '"' :: rest => some ([], rest)
  | ['\\'] => none
  | '\\' :: 'u' :: a :: b :: c :: d :: rest =>
    (stringLoop rest).map fun r => (unicode [a, b, c, d] :: r.1, r.2)
  | '\\' :: 'u' :: _ => none
  | '\\' :: c :: rest => (stringLoop rest).map fun r => (escaped c ++ r.1, r.2)
  | c :: rest => (stringLoop rest).map fun r => (c :: r.1, r.2)

/-- The first character is taken for the opening quote, whatever it is. -/
def parseString (s : QString) : Option (QString × QString) := stringLoop (eatWhitespace s).tail

def isNumberChar (c : Char) : Bool := decide (c ∈ "0123456789+-.eE".toList)

/-- An `int`, a `uint` or a 64-bit number; else the text itself. -/
def wholeNumber (s : QString) : QVariant :=
  let digits := if s.head? = some '-' then s.tail else s
  let n := decimalValue digits
  if digits ≠ [] ∧ digits.all Char.isDigit then
    if s.head? = some '-' then if n ≤ 2 ^ 63 then .int (-n) else .string s
    else if n < 2 ^ 64 then .int n else .string s
  else .string s

section
variable [QtDouble]

def parseNumber (s : QString) : QVariant × QString :=
  let text := eatWhitespace s
  let numberStr := text.takeWhile isNumberChar
  (if '.' ∈ numberStr then QtDouble.toDouble numberStr else wholeNumber numberStr,
    text.dropWhile isNumberChar)

section loops
variable (value : QString → Option (QVariant × QString))

def parseObject : Nat → List (QString × QVariant) → QString →
    Option (List (QString × QVariant) × QString)
  | 0, _, _ => none
  | fuel + 1, map, s =>
    let token := lookAhead s
    if token = .none then none
    else if token = .comma then parseObject fuel map (nextToken s).2
    else if token = .curlyClose then some (map, (nextToken s).2)
    else do
      let name ← parseString s
      if lookAhead name.2 = .colon then
        let v ← value (nextToken name.2).2
        parseObject fuel (Assoc.insert name.1 v.1 map) v.2
      else none

def parseArray : Nat → QString → Option (List QVariant × QString)
  | 0, _ => none
  | fuel + 1, s =>
    let token := lookAhead s
    if token = .none then none
    else if token = .comma then parseArray fuel (nextToken s).2
    else if token = .squaredClose then some ([], (nextToken s).2)
    else do
      let v ← value s
      let list ← parseArray fuel v.2
      return (v.1 :: list.1, list.2)

end loops

/-- The value at the position; none where `success` becomes false. -/
def parseValue : Nat → QString → Option (QVariant × QString)
  | 0, _ => none
  | fuel + 1, s =>
    let rest := (nextToken s).2
    match lookAhead s with
    | .string => (parseString s).map fun r => (.string r.1, r.2)
    | .number => some (parseNumber s)
    | .curlyOpen => (parseObject (parseValue fuel) rest.length [] rest).map fun r => (.map r.1, r.2)
    | .squaredOpen => (parseArray (parseValue fuel) rest.length rest).map fun r => (.list r.1, r.2)
    | .true => some (.bool true, rest)
    | .false => some (.bool false, rest)
    | .null => some (.invalid, rest)
    | _ => none

/-- `parse` of a text that is not null, as none made from a byte array is. What
follows the value is not looked at. -/
def parse (json : QString) : QVariant × Bool :=
  match parseValue json.length json with
  | some (value, _) => (value, true)
  | none => (.invalid, false)

end

/-! ### The fuel is no bound on what is parsed -/

theorem length_eatWhitespace (s : QString) : (eatWhitespace s).length ≤ s.length :=
  List.length_dropWhile_le _ s

theorem nextToken_length_le (s : QString) : (nextToken s).2.length ≤ s.length := by
  have hle := length_eatWhitespace s
  rw [nextToken]
  cases h : eatWhitespace s with
  | nil => simp
  | cons c rest =>
    rw [h, List.length_cons] at hle
    dsimp only
    split
    · dsimp only
      omega
    · split_ifs <;> simp only [List.length_drop, List.length_cons] <;> omega

theorem nextToken_length_lt {s : QString} (hne : (nextToken s).1 ≠ .none) :
    (nextToken s).2.length < s.length := by
  have hle := length_eatWhitespace s
  rw [nextToken] at hne ⊢
  cases h : eatWhitespace s with
  | nil =>
    rw [h] at hne
    exact absurd rfl hne
  | cons c rest =>
    rw [h, List.length_cons] at hle
    rw [h] at hne
    dsimp only at hne ⊢
    split at hne
    · dsimp only
      omega
    · split_ifs at hne ⊢ <;> simp only [List.length_drop] <;> first | omega | exact absurd rfl hne

theorem stringLoop_length {s name rest : QString} (h : stringLoop s = some (name, rest)) :
    rest.length < s.length := by
  induction s using stringLoop.induct generalizing name with
  | case1 => simp [stringLoop] at h
  | case2 tail =>
    simp only [stringLoop, Option.some.injEq, Prod.mk.injEq] at h
    simp [h.2]
  | case3 => simp [stringLoop] at h
  | case4 a b c d tail ih =>
    simp only [stringLoop, Option.map_eq_some_iff, Prod.mk.injEq] at h
    obtain ⟨r, hr, -, rfl⟩ := h
    have hlen := ih hr
    simp only [List.length_cons]
    omega
  | case5 tail hnot =>
    simp only [stringLoop] at h
    exact absurd h (by simp)
  | case6 c tail hshort hu ih =>
    rw [stringLoop.eq_6 _ _ hshort hu, Option.map_eq_some_iff] at h
    obtain ⟨⟨n, tail'⟩, hr, heq⟩ := h
    obtain ⟨-, rfl⟩ := Prod.mk.inj heq
    have hlen := ih hr
    dsimp only at hlen ⊢
    rw [List.length_cons, List.length_cons]
    omega
  | case7 c tail hquote hend hlong hshort hescape ih =>
    rw [stringLoop.eq_7 _ _ hquote hend hlong hshort hescape, Option.map_eq_some_iff] at h
    obtain ⟨⟨n, tail'⟩, hr, heq⟩ := h
    obtain ⟨-, rfl⟩ := Prod.mk.inj heq
    have hlen := ih hr
    dsimp only at hlen ⊢
    rw [List.length_cons]
    omega

theorem parseString_length {s name rest : QString} (h : parseString s = some (name, rest)) :
    rest.length < s.length := by
  have hlen := stringLoop_length h
  have hle := length_eatWhitespace s
  rw [List.length_tail] at hlen
  omega

theorem isNumberChar_of_isDigit {c : Char} (h : c.isDigit = true) : isNumberChar c = true := by
  have hrange : 48 ≤ c.toNat ∧ c.toNat ≤ 57 := by
    simpa [Char.isDigit, UInt32.le_iff_toNat_le] using h
  have hall : ∀ n < 58, 48 ≤ n → isNumberChar (Char.ofNat n) = true := by decide
  rw [← Char.ofNat_toNat c]
  exact hall c.toNat (by omega) hrange.1

theorem lookAhead_number {s : QString} (h : lookAhead s = .number) :
    ∃ c rest, eatWhitespace s = c :: rest ∧ isNumberChar c = true := by
  rw [lookAhead, nextToken] at h
  cases hs : eatWhitespace s with
  | nil => simp [hs] at h
  | cons c rest =>
    rw [hs] at h
    dsimp only at h
    refine ⟨c, rest, rfl, ?_⟩
    split at h
    · next hfind =>
      have hmem := Assoc.mem_of_find hfind
      dsimp only at h
      subst h
      exact absurd hmem (by simp [punctuation])
    · split_ifs at h with hnumber
      rcases hnumber with hdigit | rfl
      · exact isNumberChar_of_isDigit hdigit
      · decide

section
variable [QtDouble]

theorem parseNumber_length {s : QString} (h : lookAhead s = .number) :
    (parseNumber s).2.length < s.length := by
  obtain ⟨c, rest, hs, hc⟩ := lookAhead_number h
  have hle := length_eatWhitespace s
  rw [parseNumber, hs]
  rw [hs, List.length_cons] at hle
  have hdrop : (rest.dropWhile isNumberChar).length ≤ rest.length := List.length_dropWhile_le _ _
  simp only [List.dropWhile_cons, if_pos hc]
  omega

end

section loops
variable {value value' : QString → Option (QVariant × QString)}

theorem parseObject_length (hvalue : ∀ t v, value t = some v → v.2.length < t.length) {fuel : Nat}
    {map : List (QString × QVariant)} {s : QString} {r : List (QString × QVariant) × QString}
    (h : parseObject value fuel map s = some r) : r.2.length < s.length := by
  induction fuel generalizing map s with
  | zero => simp [parseObject] at h
  | succ fuel ih =>
    simp only [parseObject] at h
    split_ifs at h with hnone hcomma hclose
    · have hlen := ih h
      have htoken := nextToken_length_lt hnone
      omega
    · rw [← Option.some.inj h]
      exact nextToken_length_lt hnone
    · obtain ⟨name, hname, h⟩ := Option.bind_eq_some_iff.mp h
      split_ifs at h with hcolon
      obtain ⟨v, hv, h⟩ := Option.bind_eq_some_iff.mp h
      have hlen := ih h
      have hvlen := hvalue _ _ hv
      have htoken := nextToken_length_le name.2
      have hstring := parseString_length hname
      omega

theorem parseArray_length (hvalue : ∀ t v, value t = some v → v.2.length < t.length) {fuel : Nat}
    {s : QString} {r : List QVariant × QString} (h : parseArray value fuel s = some r) :
    r.2.length < s.length := by
  induction fuel generalizing s r with
  | zero => simp [parseArray] at h
  | succ fuel ih =>
    simp only [parseArray] at h
    split_ifs at h with hnone hcomma hclose
    · have hlen := ih h
      have htoken := nextToken_length_lt hnone
      omega
    · rw [← Option.some.inj h]
      exact nextToken_length_lt hnone
    · obtain ⟨v, hv, h⟩ := Option.bind_eq_some_iff.mp h
      obtain ⟨list, hlist, h⟩ := Option.bind_eq_some_iff.mp h
      have hlen := ih hlist
      have hvlen := hvalue _ _ hv
      rw [← Option.some.inj h]
      dsimp only
      omega

theorem parseObject_succ_congr {f g : Nat} {s : QString}
    (hagree : ∀ t, t.length < s.length → value t = value' t)
    (hvalue : ∀ t v, value' t = some v → v.2.length < t.length)
    (hnext : ∀ map t, t.length < s.length → parseObject value f map t = parseObject value' g map t)
    (map : List (QString × QVariant)) :
    parseObject value (f + 1) map s = parseObject value' (g + 1) map s := by
  simp only [parseObject]
  split_ifs with hnone hcomma hclose
  · rfl
  · exact hnext map _ (nextToken_length_lt hnone)
  · rfl
  · cases hname : parseString s with
    | none => rfl
    | some name =>
      have hstring := parseString_length hname
      have htoken := nextToken_length_le name.2
      simp only [Option.bind_eq_bind, Option.bind_some]
      rw [hagree _ (by omega)]
      split_ifs with hcolon
      · cases hv : value' (nextToken name.2).2 with
        | none => rfl
        | some v =>
          have hvlen := hvalue _ _ hv
          exact hnext _ _ (by omega)
      · rfl

theorem parseArray_succ_congr {f g : Nat} {s : QString} (hagree : value s = value' s)
    (hvalue : ∀ t v, value' t = some v → v.2.length < t.length)
    (hnext : ∀ t, t.length < s.length → parseArray value f t = parseArray value' g t) :
    parseArray value (f + 1) s = parseArray value' (g + 1) s := by
  simp only [parseArray]
  split_ifs with hnone hcomma hclose
  · rfl
  · exact hnext _ (nextToken_length_lt hnone)
  · rfl
  · rw [hagree]
    cases hv : value' s with
    | none => rfl
    | some v =>
      simp only [Option.bind_eq_bind, Option.bind_some]
      rw [hnext _ (hvalue _ _ hv)]

/-- Parsers that agree on shorter texts are as good as each other. -/
theorem parseObject_congr {n : Nat} (hagree : ∀ t, t.length < n → value t = value' t) (fuel : Nat)
    (map : List (QString × QVariant)) {s : QString} (hs : s.length ≤ n)
    (hvalue : ∀ t v, value' t = some v → v.2.length < t.length) :
    parseObject value fuel map s = parseObject value' fuel map s := by
  induction fuel generalizing map s with
  | zero => rfl
  | succ fuel ih =>
    refine parseObject_succ_congr (fun t ht => hagree t (by omega)) hvalue ?_ map
    exact fun map t ht => ih map (by omega)

theorem parseArray_congr {n : Nat} (hagree : ∀ t, t.length ≤ n → value t = value' t) (fuel : Nat)
    {s : QString} (hs : s.length ≤ n) (hvalue : ∀ t v, value' t = some v → v.2.length < t.length) :
    parseArray value fuel s = parseArray value' fuel s := by
  induction fuel generalizing s with
  | zero => rfl
  | succ fuel ih => exact parseArray_succ_congr (hagree s hs) hvalue fun t ht => ih (by omega)

theorem parseObject_fuel (hvalue : ∀ t v, value t = some v → v.2.length < t.length) {f g : Nat}
    (map : List (QString × QVariant)) {s : QString} (hf : s.length ≤ f) (hg : s.length ≤ g) :
    parseObject value f map s = parseObject value g map s := by
  have hloop : (fun map => parseObject value f map s) = fun map => parseObject value g map s := by
    refine Fuel.eq_of_length_le (fun f s map => parseObject value f map s) ?_ ?_ hf hg
    · intro f g
      cases f <;> cases g <;> rfl
    · intro f g s _ ih
      funext map
      exact parseObject_succ_congr (fun _ _ => rfl) hvalue (fun map t ht => congrFun (ih t ht) map) map
  exact congrFun hloop map

theorem parseArray_fuel (hvalue : ∀ t v, value t = some v → v.2.length < t.length) {f g : Nat}
    {s : QString} (hf : s.length ≤ f) (hg : s.length ≤ g) :
    parseArray value f s = parseArray value g s := by
  refine Fuel.eq_of_length_le (parseArray value) ?_ ?_ hf hg
  · intro f g
    cases f <;> cases g <;> rfl
  · exact fun f g s _ ih => parseArray_succ_congr rfl hvalue ih

end loops

section
variable [QtDouble]

theorem parseValue_length {fuel : Nat} {s : QString} {v : QVariant × QString}
    (h : parseValue fuel s = some v) : v.2.length < s.length := by
  induction fuel generalizing s v with
  | zero => simp [parseValue] at h
  | succ fuel ih =>
    have hrest : lookAhead s ≠ .none → (nextToken s).2.length < s.length := nextToken_length_lt
    simp only [parseValue] at h
    split at h
    · obtain ⟨r, hr, rfl⟩ := Option.map_eq_some_iff.mp h
      exact parseString_length hr
    · next hnumber =>
      rw [← Option.some.inj h]
      exact parseNumber_length hnumber
    · next htoken =>
      obtain ⟨r, hr, rfl⟩ := Option.map_eq_some_iff.mp h
      have hlen := parseObject_length (fun _ _ => ih) hr
      have hlt := hrest (by simp [htoken])
      dsimp only
      omega
    · next htoken =>
      obtain ⟨r, hr, rfl⟩ := Option.map_eq_some_iff.mp h
      have hlen := parseArray_length (fun _ _ => ih) hr
      have hlt := hrest (by simp [htoken])
      dsimp only
      omega
    · next htoken =>
      rw [← Option.some.inj h]
      exact hrest (by simp [htoken])
    · next htoken =>
      rw [← Option.some.inj h]
      exact hrest (by simp [htoken])
    · next htoken =>
      rw [← Option.some.inj h]
      exact hrest (by simp [htoken])
    · exact absurd h (by simp)

theorem parseValue_fuel {f g : Nat} {s : QString} (hf : s.length ≤ f) (hg : s.length ≤ g) :
    parseValue f s = parseValue g s := by
  refine Fuel.eq_of_length_le parseValue ?_ ?_ hf hg
  · intro f g
    cases f <;> cases g <;> rfl
  · intro f g s _ ih
    simp only [parseValue]
    have hagree : lookAhead s ≠ .none → ∀ t : QString, t.length ≤ (nextToken s).2.length →
        parseValue f t = parseValue g t := by
      intro hne t ht
      exact ih t (Nat.lt_of_le_of_lt ht (nextToken_length_lt hne))
    split
    · rfl
    · rfl
    · next htoken =>
      have hne : lookAhead s ≠ .none := by simp [htoken]
      rw [parseObject_congr (fun t ht => hagree hne t (Nat.le_of_lt ht)) _ _ (Nat.le_refl _)
        fun _ _ => parseValue_length]
    · next htoken =>
      have hne : lookAhead s ≠ .none := by simp [htoken]
      rw [parseArray_congr (hagree hne) _ (Nat.le_refl _) fun _ _ => parseValue_length]
    all_goals rfl

/-- The parser runs out of neither the fuel of its levels nor that of its loops. -/
theorem parse_fuel (json : QString) {fuel : Nat} (hfuel : json.length ≤ fuel) :
    parseValue fuel json = parseValue json.length json ∧
      (∀ map, parseObject (parseValue fuel) fuel map json =
        parseObject (parseValue fuel) json.length map json) ∧
      parseArray (parseValue fuel) fuel json = parseArray (parseValue fuel) json.length json :=
  ⟨parseValue_fuel hfuel (Nat.le_refl _),
    fun map => parseObject_fuel (fun _ _ => parseValue_length) map hfuel (Nat.le_refl _),
    parseArray_fuel (fun _ _ => parseValue_length) hfuel (Nat.le_refl _)⟩

end
end Json
end CuteTorrent
