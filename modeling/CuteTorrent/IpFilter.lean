import CuteTorrent.Qt

/-! The IP filter of the web control: `RconWebService::parseIpFilter` reads its
rules, `HttpConnectionHandler` applies them. -/
namespace CuteTorrent

/-- `QPair<uint, uint>`: the first and the last address. -/
abbrev IpRange := Nat × Nat

namespace IpRange

def Contains (r : IpRange) (ip : Nat) : Prop := r.1 ≤ ip ∧ ip ≤ r.2

instance (r : IpRange) (ip : Nat) : Decidable (r.Contains ip) := inferInstanceAs (Decidable (_ ∧ _))

end IpRange

/-- The two static lists, and the verdict of the connection. -/
structure HttpConnectionHandler where
  allowedIP : List IpRange
  notAllowedIP : List IpRange
  blockClient : Bool
deriving DecidableEq

namespace HttpConnectionHandler

def scan (test : IpRange → Bool) : List IpRange → Bool → Bool
  | [], allowed => allowed
  | r :: rs, allowed => if test r then true else scan test rs allowed

/-- The two lists under `enable_ipfilter`. The second comparison has the bounds
of the range the other way round. -/
def handleConnection (h : HttpConnectionHandler) (enableIpfilter : Bool) (currentIP : Nat) :
    HttpConnectionHandler :=
  if enableIpfilter then
    let allowed := scan (fun r => decide (currentIP ≥ r.1 ∧ currentIP ≤ r.2)) h.allowedIP false
    let blockClient := if h.allowedIP.length > 0 then !allowed else false
    if !allowed && decide (h.notAllowedIP.length > 0) then
      let allowed :=
        scan (fun r => decide (currentIP ≤ r.1 ∧ currentIP ≥ r.2)) h.notAllowedIP allowed
      { h with blockClient := !allowed }
    else { h with blockClient := blockClient }
  else h

/-- `read` answers 403 and does not serve the request. -/
def forbidden (h : HttpConnectionHandler) (enableIpfilter : Bool) : Bool :=
  h.blockClient && enableIpfilter

theorem scan_iff (test : IpRange → Bool) (rs : List IpRange) (allowed : Bool) :
    scan test rs allowed = true ↔ (∃ r ∈ rs, test r = true) ∨ allowed = true := by
  induction rs with
  | nil => simp [scan]
  | cons r rs ih =>
    cases h : test r with
    | true => simp [scan, h]
    | false => simp [scan, h, ih]

/-- Two bounds in their order hold an address between them the other way round
only when all three are the same. -/
theorem inverted_iff {rs : List IpRange} (h : ∀ r ∈ rs, r.1 ≤ r.2) (ip : Nat) :
    (∃ r ∈ rs, ip ≤ r.1 ∧ ip ≥ r.2) ↔ (ip, ip) ∈ rs := by
  constructor
  · rintro ⟨r, hr, hlo, hhi⟩
    have horder := h r hr
    have heq : r = (ip, ip) := Prod.ext (by omega) (by omega)
    exact heq ▸ hr
  · intro hr
    exact ⟨_, hr, le_refl ip, le_refl ip⟩

theorem forbidden_iff (h : HttpConnectionHandler) (hdeny : ∀ r ∈ h.notAllowedIP, r.1 ≤ r.2)
    (ip : Nat) :
    (h.handleConnection true ip).forbidden true = true ↔
      (¬ ∃ r ∈ h.allowedIP, r.Contains ip) ∧ (h.allowedIP ≠ [] ∨ h.notAllowedIP ≠ []) ∧
        (ip, ip) ∉ h.notAllowedIP := by
  have hallowed := scan_iff (fun r => decide (ip ≥ r.1 ∧ ip ≤ r.2)) h.allowedIP false
  have hdenied := scan_iff (fun r => decide (ip ≤ r.1 ∧ ip ≥ r.2)) h.notAllowedIP false
  simp only [decide_eq_true_eq, Bool.false_eq_true, or_false] at hallowed hdenied
  rw [inverted_iff hdeny] at hdenied
  have hcontains : (∃ r ∈ h.allowedIP, r.Contains ip) ↔ ∃ r ∈ h.allowedIP, ip ≥ r.1 ∧ ip ≤ r.2 :=
    Iff.rfl
  rw [hcontains, ← hallowed, ← hdenied]
  simp only [handleConnection, forbidden, if_true]
  cases ha : scan (fun r => decide (ip ≥ r.1 ∧ ip ≤ r.2)) h.allowedIP false with
  | true => simp
  | false =>
    cases hd : h.notAllowedIP with
    | nil => cases hl : h.allowedIP <;> simp [scan]
    | cons r rs => simp

/-- What the rules say about an address: an allow range lets it in, a deny range
keeps it out, and without allow ranges it needs a deny range to be kept out. -/
structure DecidesByRules (h : HttpConnectionHandler) (ip : Nat) (blocked : Bool) : Prop where
  allow : (∃ r ∈ h.allowedIP, r.Contains ip) → blocked = false
  deny : (∃ r ∈ h.notAllowedIP, r.Contains ip) → (¬ ∃ r ∈ h.allowedIP, r.Contains ip) →
    blocked = true
  otherwise : h.allowedIP = [] → (¬ ∃ r ∈ h.notAllowedIP, r.Contains ip) → blocked = false

/-- The filter keeps to its rules on the addresses that are allowed, and on the
others as long as no deny range is just this address and, without allow ranges,
there is none or one that holds it. -/
theorem decides_by_rules_iff {h : HttpConnectionHandler} (hdeny : ∀ r ∈ h.notAllowedIP, r.1 ≤ r.2)
    (ip : Nat) :
    DecidesByRules h ip ((h.handleConnection true ip).forbidden true) ↔
      (∃ r ∈ h.allowedIP, r.Contains ip) ∨
        (ip, ip) ∉ h.notAllowedIP ∧
          (h.allowedIP = [] → h.notAllowedIP = [] ∨ ∃ r ∈ h.notAllowedIP, r.Contains ip) := by
  have hverdict := forbidden_iff h hdeny ip
  have hself : (ip, ip) ∈ h.notAllowedIP → ∃ r ∈ h.notAllowedIP, r.Contains ip :=
    fun hr => ⟨_, hr, le_refl ip, le_refl ip⟩
  have hempty : h.notAllowedIP = [] → ¬ ∃ r ∈ h.notAllowedIP, r.Contains ip := by
    rintro hnil ⟨r, hr, -⟩
    exact absurd hr (by simp [hnil])
  by_cases hin : ∃ r ∈ h.allowedIP, r.Contains ip
  · have hblocked : (h.handleConnection true ip).forbidden true = false := by
      rw [← Bool.not_eq_true, hverdict]
      exact fun hc => hc.1 hin
    refine ⟨fun _ => .inl hin, fun _ => ⟨fun _ => hblocked, fun _ hc => absurd hin hc, ?_⟩⟩
    exact fun _ _ => hblocked
  · constructor
    · intro hrules
      right
      refine ⟨fun hr => ?_, fun hnil => ?_⟩
      · have hblocked := hverdict.mp (hrules.deny (hself hr) hin)
        exact hblocked.2.2 hr
      · by_contra hne
        rw [not_or] at hne
        have hfree := hrules.otherwise hnil hne.2
        rw [← Bool.not_eq_true, hverdict] at hfree
        exact hfree ⟨hin, .inr hne.1, fun hr => hne.2 (hself hr)⟩
    · rintro (hc | ⟨hnot, hnil⟩)
      · exact absurd hc hin
      · refine ⟨fun hc => absurd hc hin, fun hr _ => ?_, fun hall hr => ?_⟩
        · exact hverdict.mpr ⟨hin, .inr fun hn => hempty hn hr, hnot⟩
        · rw [← Bool.not_eq_true, hverdict]
          rintro ⟨-, hne, -⟩
          cases hnil hall with
          | inl hn => exact hne.elim (fun ha => ha hall) (fun hd => hd hn)
          | inr hc => exact hr hc

theorem outsider_is_blocked :
    ¬ ∀ (h : HttpConnectionHandler) (ip : Nat), (∀ r ∈ h.allowedIP, r.1 ≤ r.2) →
      (∀ r ∈ h.notAllowedIP, r.1 ≤ r.2) →
      DecidesByRules h ip ((h.handleConnection true ip).forbidden true) := by
  intro h
  have hrules := h ⟨[], [(10, 20)], false⟩ 30 (by simp) (by simp)
  have hfree := hrules.otherwise rfl (by simp [IpRange.Contains])
  revert hfree
  decide

theorem allowed_is_served :
    DecidesByRules ⟨[(10, 20)], [(15, 15)], false⟩ 15
      ((handleConnection ⟨[(10, 20)], [(15, 15)], false⟩ true 15).forbidden true) :=
  (decides_by_rules_iff (by simp) 15).mpr (.inl ⟨(10, 20), by simp, by decide⟩)

end HttpConnectionHandler
/-! ### The text of the filter -/

def digitValue (c : Char) : Nat := c.toNat - 48

def octet (s : QString) : Option Nat :=
  if s ≠ [] ∧ s.all Char.isDigit then
    let n := s.foldl (fun n c => 10 * n + digitValue c) 0
    if n ≤ 255 then some n else none
  else none

def addressOf (octets : List Nat) : Nat := octets.foldl (fun n o => 256 * n + o) 0

def dottedQuad (address : QString) : Option Nat :=
  match (address.splitOn '.').mapM octet with
  | some [a, b, c, d] => some (addressOf [a, b, c, d])
  | _ => none

/-- `QHostAddress(address).toIPv4Address()`: a dotted quad, or 0. -/
def toIPv4Address (address : QString) : Nat := (dottedQuad address).getD 0

/-- The members of the service with the static lists of its connections;
`listening` is the state of the listener. -/
structure RconWebService where
  allowedIP : List IpRange
  notAllowedIP : List IpRange
  handlerAllowedIP : List IpRange
  handlerNotAllowedIP : List IpRange
  listening : Bool
deriving DecidableEq

namespace RconWebService

def fresh (listening : Bool) : RconWebService := ⟨[], [], [], [], listening⟩

/-- The range from `pattern` with every star as 1 to the one with every star as
255, its ends in order. -/
def starRange (pattern : QString) : IpRange :=
  let start := toIPv4Address (trimmed (replaceChar '*' "1".toList pattern))
  let last := toIPv4Address (trimmed (replaceChar '*' "255".toList pattern))
  if start > last then (last, start) else (start, last)

/-- What one rule appends to its list. The first branch leaves `parts[1]` with
its stars replaced. -/
def appendedRanges (part : QString) : List IpRange :=
  let starred := part.contains '*' && !part.contains '-'
  let rest := if starred then replaceChar '*' "255".toList part else part
  (if starred then [starRange part] else []) ++
    if rest.contains '-' && !rest.contains '*' then [starRange rest] else []

def words (line : QString) : List QString := (trimmed line).splitOn ' '

def parseLine (s : RconWebService) (line : QString) : Except Fault RconWebService :=
  if (trimmed line).head? = some '#' then .ok s
  else
    match words line with
    | [] => .error .indexOutOfRange
    | word :: parts =>
      if word = "allow".toList then
        match parts with
        | [] => .error .indexOutOfRange
        | part :: _ => .ok { s with allowedIP := s.allowedIP ++ appendedRanges part }
      else if word = "deny".toList then
        match parts with
        | [] => .error .indexOutOfRange
        | part :: _ =>
          .ok { s with
            notAllowedIP := s.notAllowedIP ++ appendedRanges part
            listening := s.listening && decide (part ≠ "all".toList) }
      else .ok s

def parseLines : List QString → RconWebService → Except Fault RconWebService
  | [], s => .ok s
  | line :: lines, s => do
    let s ← parseLine s line
    parseLines lines s

def parseIpFilter (s : RconWebService) (ipFilterStr : QString) : Except Fault RconWebService := do
  let s ← parseLines (ipFilterStr.splitOn '\n') s
  return { s with handlerAllowedIP := s.allowedIP, handlerNotAllowedIP := s.notAllowedIP }

end RconWebService

/-! ### What the patterns denote -/

/-- The addresses a pattern stands for: all with the leading octets before its
stars, or all from one address to another. -/
inductive Denotes : QString → IpRange → Prop
  | stars {part : QString} {leading : List QString} {octets : List Nat}
    (hlen : leading.length < 4)
    (hparts : part.splitOn '.' = leading ++ List.replicate (4 - leading.length) ['*'])
    (hoctets : leading.mapM octet = some octets) :
    Denotes part (addressOf (octets ++ List.replicate (4 - leading.length) 0),
      addressOf (octets ++ List.replicate (4 - leading.length) 255))
  | span {first last : QString} {m n : Nat} (hfirst : dottedQuad first = some m)
    (hlast : dottedQuad last = some n) (hle : m ≤ n) : Denotes (first ++ '-' :: last) (m, n)

theorem isDigit_of_octet {s : QString} {n : Nat} (h : octet s = some n) {c : Char} (hc : c ∈ s) :
    c.isDigit = true := by
  rw [octet] at h
  split_ifs at h with hs
  exact List.all_eq_true.mp hs.2 c hc

theorem exists_octet {parts : List QString} {octets : List Nat}
    (h : parts.mapM octet = some octets) {t : QString} (ht : t ∈ parts) :
    ∃ n, octet t = some n := by
  induction parts generalizing octets with
  | nil => exact absurd ht List.not_mem_nil
  | cons u parts ih =>
    simp only [List.mapM_cons, Option.bind_eq_bind, Option.bind_eq_some_iff] at h
    obtain ⟨n, hn, ns, hns, -⟩ := h
    cases List.mem_cons.mp ht with
    | inl heq =>
      subst heq
      exact ⟨n, hn⟩
    | inr ht => exact ih hns ht

theorem char_of_octets {s : QString} {octets : List Nat}
    (h : (s.splitOn '.').mapM octet = some octets) {c : Char} (hc : c ∈ s) :
    c = '.' ∨ c.isDigit = true := by
  by_cases hdot : c = '.'
  · exact .inl hdot
  · right
    obtain ⟨t, ht, hct⟩ := mem_of_mem_splitOn hc hdot
    obtain ⟨n, hn⟩ := exists_octet h ht
    exact isDigit_of_octet hn hct

theorem octets_of_dottedQuad {s : QString} {n : Nat} (h : dottedQuad s = some n) :
    ∃ octets, (s.splitOn '.').mapM octet = some octets := by
  rw [dottedQuad] at h
  cases ho : (s.splitOn '.').mapM octet with
  | none => simp [ho] at h
  | some octets => exact ⟨octets, rfl⟩

theorem dottedQuad_of_octets {s : QString} {octets : List Nat}
    (h : (s.splitOn '.').mapM octet = some octets) (hlen : octets.length = 4) :
    dottedQuad s = some (addressOf octets) := by
  obtain ⟨a, b, c, d, rfl⟩ := List.length_eq_four.mp hlen
  rw [dottedQuad, h]

theorem trimmed_of_octets {s : QString} {octets : List Nat}
    (h : (s.splitOn '.').mapM octet = some octets) : trimmed s = s := by
  apply trimmed_eq_self
  intro c hc
  cases char_of_octets h hc with
  | inl heq =>
    subst heq
    decide
  | inr hdigit => exact isSpace_of_isDigit hdigit

theorem length_of_mapM_octet {parts : List QString} {octets : List Nat}
    (h : parts.mapM octet = some octets) : octets.length = parts.length := by
  induction parts generalizing octets with
  | nil => simp_all
  | cons u parts ih =>
    simp only [List.mapM_cons, Option.bind_eq_bind, Option.bind_eq_some_iff] at h
    obtain ⟨n, -, ns, hns, hcons⟩ := h
    rw [← Option.some.inj hcons, List.length_cons, List.length_cons, ih hns]

theorem mapM_octet_replicate {t : QString} {n : Nat} (h : octet t = some n) (k : Nat) :
    (List.replicate k t).mapM octet = some (List.replicate k n) := by
  induction k with
  | zero => rfl
  | succ k ih =>
    rw [List.replicate_succ, List.mapM_cons, h, ih]
    rfl

theorem addressOf_append_lt (octets : List Nat) {a b : Nat} (hab : a < b) (k : Nat) :
    addressOf (octets ++ List.replicate (k + 1) a) <
      addressOf (octets ++ List.replicate (k + 1) b) := by
  have hfold : ∀ m n, m ≤ n → (List.replicate (k + 1) a).foldl (fun n o => 256 * n + o) m <
      (List.replicate (k + 1) b).foldl (fun n o => 256 * n + o) n := by
    induction k with
    | zero =>
      intro m n hmn
      change 256 * m + a < 256 * n + b
      omega
    | succ k ih =>
      intro m n hmn
      rw [List.replicate_succ, List.replicate_succ, List.foldl_cons, List.foldl_cons]
      have hstep : 256 * m + a ≤ 256 * n + b := by omega
      exact ih _ _ hstep
  rw [addressOf, addressOf, List.foldl_append, List.foldl_append]
  exact hfold _ _ (le_refl _)

theorem toIPv4Address_stars {part : QString} {leading : List QString} {octets : List Nat}
    (hlen : leading.length < 4)
    (hparts : part.splitOn '.' = leading ++ List.replicate (4 - leading.length) ['*'])
    (hoctets : leading.mapM octet = some octets) {after : QString} {n : Nat}
    (hafter : octet after = some n) :
    toIPv4Address (trimmed (replaceChar '*' after part)) =
      addressOf (octets ++ List.replicate (4 - leading.length) n) := by
  have hstar : ∀ t ∈ leading, '*' ∉ t := by
    intro t ht hc
    obtain ⟨m, hm⟩ := exists_octet hoctets ht
    exact absurd (isDigit_of_octet hm hc) (by decide)
  have hdot : '.' ∉ after := fun hc => absurd (isDigit_of_octet hafter hc) (by decide)
  have hkeep : leading.map (replaceChar '*' after) = leading :=
    (List.map_congr_left fun t ht => replaceChar_of_not_mem after (hstar t ht)).trans
      (List.map_id' leading)
  have hsplit : (replaceChar '*' after part).splitOn '.' =
      leading ++ List.replicate (4 - leading.length) after := by
    rw [splitOn_replaceChar (by decide) hdot, hparts, List.map_append, hkeep, List.map_replicate]
    simp [replaceChar]
  have hall : ((replaceChar '*' after part).splitOn '.').mapM octet =
      some (octets ++ List.replicate (4 - leading.length) n) := by
    rw [hsplit, List.mapM_append, hoctets, mapM_octet_replicate hafter]
    rfl
  have hfour : (octets ++ List.replicate (4 - leading.length) n).length = 4 := by
    rw [List.length_append, List.length_replicate, length_of_mapM_octet hoctets]
    omega
  rw [trimmed_of_octets hall, toIPv4Address, dottedQuad_of_octets hall hfour]
  rfl

namespace RconWebService

section stars
variable {part : QString} {leading : List QString} {octets : List Nat} (hlen : leading.length < 4)
  (hparts : part.splitOn '.' = leading ++ List.replicate (4 - leading.length) ['*'])
  (hoctets : leading.mapM octet = some octets)
include hparts

include hlen in
theorem star_mem_of_stars : '*' ∈ part := by
  have hpart : ['*'] ∈ part.splitOn '.' := by
    rw [hparts, show 4 - leading.length = (3 - leading.length) + 1 by omega, List.replicate_succ]
    simp
  exact mem_of_mem_part (List.mem_singleton.mpr rfl) hpart

include hoctets in
theorem dash_not_mem_of_stars : '-' ∉ part := by
  intro hdash
  obtain ⟨t, ht, hc⟩ := mem_of_mem_splitOn hdash (show '-' ≠ '.' by decide)
  rw [hparts] at ht
  cases List.mem_append.mp ht with
  | inl ht =>
    obtain ⟨n, hn⟩ := exists_octet hoctets ht
    exact absurd (isDigit_of_octet hn hc) (by decide)
  | inr ht =>
    rw [List.eq_of_mem_replicate ht] at hc
    exact absurd hc (by decide)

include hlen hoctets in
/-- The stars of a pattern hide the first of its addresses. -/
theorem starRange_misses_first :
    addressOf (octets ++ List.replicate (4 - leading.length) 0) < (starRange part).1 := by
  have hk : 4 - leading.length = (3 - leading.length) + 1 := by omega
  have hlo := toIPv4Address_stars hlen hparts hoctets (show octet "1".toList = some 1 from rfl)
  have hhi := toIPv4Address_stars hlen hparts hoctets (show octet "255".toList = some 255 from rfl)
  have hzero := addressOf_append_lt octets (show 0 < 1 by omega) (3 - leading.length)
  have hone := addressOf_append_lt octets (show 1 < 255 by omega) (3 - leading.length)
  rw [starRange, hlo, hhi, hk, if_neg (by omega)]
  exact hzero

end stars

theorem starRange_of_dash {part : QString} (hdash : '-' ∈ part) (hstar : '*' ∉ part)
    (hspace : ∀ c ∈ part, isSpace c = false) : starRange part = (0, 0) := by
  have hquad : dottedQuad part = none := by
    cases h : dottedQuad part with
    | none => rfl
    | some n =>
      obtain ⟨octets, ho⟩ := octets_of_dottedQuad h
      cases char_of_octets ho hdash with
      | inl hc => exact absurd hc (by decide)
      | inr hc => exact absurd hc (by decide)
  have hzero : toIPv4Address part = 0 := by rw [toIPv4Address, hquad, Option.getD_none]
  rw [starRange, replaceChar_of_not_mem _ hstar, replaceChar_of_not_mem _ hstar,
    trimmed_eq_self hspace, hzero, if_neg (lt_irrefl 0)]

theorem appendedRanges_of_starred {part : QString} (hstar : '*' ∈ part) (hdash : '-' ∉ part) :
    appendedRanges part = [starRange part] := by
  have hrest : '-' ∉ replaceChar '*' "255".toList part := by
    intro hc
    obtain ⟨c, hcp, hc⟩ := List.mem_flatMap.mp hc
    split_ifs at hc
    · exact absurd hc (by decide)
    · exact hdash (List.mem_singleton.mp hc ▸ hcp)
  have hdash' : part.contains '-' = false := by simpa using hdash
  have hrest' : (replaceChar '*' "255".toList part).contains '-' = false := by simpa using hrest
  have hstar' : part.contains '*' = true := by simpa using hstar
  rw [appendedRanges, hstar', hdash']
  simp only [Bool.not_false, Bool.and_true, if_true, hrest', Bool.false_and]
  rfl

theorem appendedRanges_of_dash {part : QString} (hdash : '-' ∈ part) (hstar : '*' ∉ part) :
    appendedRanges part = [starRange part] := by
  simp [appendedRanges, hstar, hdash]

theorem contains_iff_of_eq_zero {range : IpRange} (hle : range.1 ≤ range.2) :
    (∀ ip, IpRange.Contains (0, 0) ip ↔ range.Contains ip) ↔ range = (0, 0) := by
  constructor
  · intro h
    have hlo := (h range.1).mpr ⟨le_refl _, hle⟩
    have hhi := (h range.2).mpr ⟨hle, le_refl _⟩
    exact Prod.ext (Nat.le_zero.mp hlo.2) (Nat.le_zero.mp hhi.2)
  · rintro rfl ip
    rfl

theorem char_of_span {first last : QString} {m n : Nat} (hfirst : dottedQuad first = some m)
    (hlast : dottedQuad last = some n) :
    ∀ c ∈ first ++ '-' :: last, c = '-' ∨ c = '.' ∨ c.isDigit = true := by
  obtain ⟨fo, hfo⟩ := octets_of_dottedQuad hfirst
  obtain ⟨lo, hlo⟩ := octets_of_dottedQuad hlast
  intro c hc
  cases List.mem_append.mp hc with
  | inl hc => exact .inr (char_of_octets hfo hc)
  | inr hc => exact (List.mem_cons.mp hc).imp_right (char_of_octets hlo)

/-- The whole text of a span goes to `QHostAddress`, for both of its ends. -/
theorem appendedRanges_of_span {first last : QString} {m n : Nat}
    (hfirst : dottedQuad first = some m) (hlast : dottedQuad last = some n) :
    appendedRanges (first ++ '-' :: last) = [(0, 0)] := by
  have hchar := char_of_span hfirst hlast
  have hdash : '-' ∈ first ++ '-' :: last := by simp
  have hstar : '*' ∉ first ++ '-' :: last := by
    intro hc
    have hstar := hchar _ hc
    revert hstar
    decide
  have hspace : ∀ c ∈ first ++ '-' :: last, isSpace c = false := by
    intro c hc
    rcases hchar c hc with rfl | rfl | hdigit
    · decide
    · decide
    · exact isSpace_of_isDigit hdigit
  rw [appendedRanges_of_dash hdash hstar, starRange_of_dash hdash hstar hspace]

/-- A pattern with a meaning appends one range, and that range has this meaning
only when it is the single address 0.0.0.0. -/
theorem appendedRanges_iff {part : QString} {range : IpRange} (h : Denotes part range) :
    ∃ r, appendedRanges part = [r] ∧
      ((∀ ip, r.Contains ip ↔ range.Contains ip) ↔ range = (0, 0)) := by
  cases h with
  | @stars _ leading octets hlen hparts hoctets =>
    have hdash := dash_not_mem_of_stars hparts hoctets
    refine ⟨_, appendedRanges_of_starred (star_mem_of_stars hlen hparts) hdash, ?_⟩
    have hlt := starRange_misses_first hlen hparts hoctets
    have hwide := addressOf_append_lt octets (show 0 < 255 by omega) (3 - leading.length)
    rw [show 3 - leading.length + 1 = 4 - leading.length by omega] at hwide
    constructor
    · intro hall
      have hfirst := (hall (addressOf (octets ++ List.replicate (4 - leading.length) 0))).mpr
        ⟨le_refl _, hwide.le⟩
      have hge := hfirst.1
      omega
    · intro hzero
      have hhi := congrArg Prod.snd hzero
      simp only at hhi
      omega
  | @span first last m n hfirst hlast hle =>
    refine ⟨_, appendedRanges_of_span hfirst hlast, ?_⟩
    exact contains_iff_of_eq_zero hle

/-! ### Lines and texts -/

def IsRule (word : QString) : Prop := word = "allow".toList ∨ word = "deny".toList

def Truncated (line : QString) : Prop := ∃ word, IsRule word ∧ words line = [word]

def ruleRanges (word line : QString) : List IpRange :=
  match words line with
  | w :: part :: _ => if w = word then appendedRanges part else []
  | _ => []

theorem head_of_words {line : QString} {c : Char} {word : QString} {parts : List QString}
    (h : words line = (c :: word) :: parts) : (trimmed line).head? = some c := by
  rw [words] at h
  cases ht : trimmed line with
  | nil => simp [ht] at h
  | cons d s =>
    rw [ht, List.splitOn_cons_eq_if_modifyHead] at h
    obtain ⟨t, ts, hts⟩ := List.exists_cons_of_ne_nil (List.splitOn_ne_nil ' ' s)
    rw [hts] at h
    split_ifs at h
    · simp at h
    · rw [List.modifyHead_cons, List.cons.injEq, List.cons.injEq] at h
      rw [List.head?_cons, h.1.1]

theorem not_comment_of_rule {line word : QString} {parts : List QString}
    (h : words line = word :: parts) (hrule : IsRule word) : (trimmed line).head? ≠ some '#' := by
  cases hrule with
  | inl heq =>
    subst heq
    rw [head_of_words h]
    decide
  | inr heq =>
    subst heq
    rw [head_of_words h]
    decide

theorem parseLine_of_truncated {line : QString} (h : Truncated line) (s : RconWebService) :
    parseLine s line = .error .indexOutOfRange := by
  obtain ⟨word, hrule, hw⟩ := h
  rw [parseLine, if_neg (not_comment_of_rule hw hrule), hw]
  cases hrule with
  | inl heq =>
    subst heq
    rfl
  | inr heq =>
    subst heq
    rfl

theorem parseLine_of_whole {line : QString} (h : ¬ Truncated line) (s : RconWebService) :
    ∃ listening, parseLine s line = .ok { s with
      allowedIP := s.allowedIP ++ ruleRanges "allow".toList line
      notAllowedIP := s.notAllowedIP ++ ruleRanges "deny".toList line
      listening := listening } := by
  have hne : words line ≠ [] := List.splitOn_ne_nil _ _
  obtain ⟨word, parts, hw⟩ := List.exists_cons_of_ne_nil hne
  by_cases hrule : IsRule word
  · cases parts with
    | nil => exact absurd ⟨word, hrule, hw⟩ h
    | cons part rest =>
      rw [parseLine, if_neg (not_comment_of_rule hw hrule), ruleRanges, ruleRanges, hw]
      cases hrule with
      | inl heq =>
        subst heq
        exact ⟨s.listening, by simp⟩
      | inr heq =>
        subst heq
        exact ⟨s.listening && decide (part ≠ "all".toList), by simp⟩
  · have hallow : word ≠ "allow".toList := fun hc => hrule (.inl hc)
    have hdeny : word ≠ "deny".toList := fun hc => hrule (.inr hc)
    have hnone : ∀ w, IsRule w → ruleRanges w line = [] := by
      intro w hwrule
      have hword : word ≠ w := fun hc => hrule (hc ▸ hwrule)
      rw [ruleRanges, hw]
      cases parts with
      | nil => rfl
      | cons part rest => exact if_neg hword
    refine ⟨s.listening, ?_⟩
    rw [hnone _ (.inl rfl), hnone _ (.inr rfl), List.append_nil, List.append_nil, parseLine, hw]
    split_ifs
    · rfl
    · simp only [hallow, hdeny, if_false]

def textRanges (word text : QString) : List IpRange :=
  (text.splitOn '\n').flatMap (ruleRanges word)

theorem parseLines_of_truncated {lines : List QString} (h : ∃ line ∈ lines, Truncated line)
    (s : RconWebService) : parseLines lines s = .error .indexOutOfRange := by
  induction lines generalizing s with
  | nil =>
    obtain ⟨line, hline, -⟩ := h
    exact absurd hline List.not_mem_nil
  | cons line lines ih =>
    by_cases ht : Truncated line
    · rw [parseLines, parseLine_of_truncated ht]
      rfl
    · have hrest : ∃ line ∈ lines, Truncated line := by
        obtain ⟨l, hl, hlt⟩ := h
        cases List.mem_cons.mp hl with
        | inl heq =>
          subst heq
          exact absurd hlt ht
        | inr hl => exact ⟨l, hl, hlt⟩
      obtain ⟨listening, hs⟩ := parseLine_of_whole ht s
      rw [parseLines, hs]
      exact ih hrest _

theorem parseLines_of_whole {lines : List QString} (h : ∀ line ∈ lines, ¬ Truncated line)
    (s : RconWebService) :
    ∃ listening, parseLines lines s = .ok { s with
      allowedIP := s.allowedIP ++ lines.flatMap (ruleRanges "allow".toList)
      notAllowedIP := s.notAllowedIP ++ lines.flatMap (ruleRanges "deny".toList)
      listening := listening } := by
  induction lines generalizing s with
  | nil => exact ⟨s.listening, by simp [parseLines]⟩
  | cons line lines ih =>
    obtain ⟨listening, hs⟩ := parseLine_of_whole (h line List.mem_cons_self) s
    obtain ⟨listening', hs'⟩ := ih (fun l hl => h l (List.mem_cons_of_mem _ hl)) { s with
      allowedIP := s.allowedIP ++ ruleRanges "allow".toList line
      notAllowedIP := s.notAllowedIP ++ ruleRanges "deny".toList line
      listening := listening }
    refine ⟨listening', ?_⟩
    rw [parseLines, hs]
    simp only [Bind.bind, Except.bind, hs', List.flatMap_cons, List.append_assoc]

def Whole (text : QString) : Prop := ∀ line ∈ text.splitOn '\n', ¬ Truncated line

theorem parseIpFilter_of_whole {text : QString} (h : Whole text) (s : RconWebService) :
    ∃ listening, parseIpFilter s text = .ok
      ⟨s.allowedIP ++ textRanges "allow".toList text, s.notAllowedIP ++ textRanges "deny".toList text,
        s.allowedIP ++ textRanges "allow".toList text, s.notAllowedIP ++ textRanges "deny".toList text,
        listening⟩ := by
  obtain ⟨listening, hs⟩ := parseLines_of_whole h s
  refine ⟨listening, ?_⟩
  rw [parseIpFilter, hs]
  rfl

theorem parseIpFilter_ok_iff {text : QString} (s : RconWebService) :
    (∃ s', parseIpFilter s text = .ok s') ↔ Whole text := by
  constructor
  · rintro ⟨s', hs⟩ line hline ht
    rw [parseIpFilter, parseLines_of_truncated ⟨line, hline, ht⟩] at hs
    exact absurd hs (by simp [Bind.bind, Except.bind])
  · intro h
    obtain ⟨listening, hs⟩ := parseIpFilter_of_whole h s
    exact ⟨_, hs⟩

def MeansWhatItSays (line : QString) : Prop :=
  ∀ word part rest range, words line = word :: part :: rest → IsRule word → Denotes part range →
    ∀ s, ∃ s' r, parseLine s line = .ok s' ∧
      s'.allowedIP = s.allowedIP ++ (if word = "allow".toList then [r] else []) ∧
      s'.notAllowedIP = s.notAllowedIP ++ (if word = "deny".toList then [r] else []) ∧
      ∀ ip, r.Contains ip ↔ range.Contains ip

def DenotesZero (line : QString) : Prop :=
  ∀ word part rest range, words line = word :: part :: rest → IsRule word → Denotes part range →
    range = (0, 0)

theorem ruleRanges_of_words {line w part : QString} {rest : List QString}
    (hw : words line = w :: part :: rest) (word : QString) :
    ruleRanges word line = if w = word then appendedRanges part else [] := by
  rw [ruleRanges, hw]

/-- One rule, in any state of the service: its range is the one denoted exactly
when that is 0.0.0.0. -/
theorem rule_means_iff {line word part : QString} {rest : List QString} {range : IpRange}
    (hw : words line = word :: part :: rest) (hrule : IsRule word) (hden : Denotes part range) :
    (∀ s, ∃ s' r, parseLine s line = .ok s' ∧
      s'.allowedIP = s.allowedIP ++ (if word = "allow".toList then [r] else []) ∧
      s'.notAllowedIP = s.notAllowedIP ++ (if word = "deny".toList then [r] else []) ∧
      ∀ ip, r.Contains ip ↔ range.Contains ip) ↔ range = (0, 0) := by
  have hwhole : ¬ Truncated line := by
    rintro ⟨w, -, hc⟩
    rw [hw] at hc
    exact absurd hc (by simp)
  obtain ⟨r, hr, hiff⟩ := appendedRanges_iff hden
  rw [← hiff]
  constructor
  · intro h
    obtain ⟨s', r', hs', hallow, hdeny, hsame⟩ := h (fresh true)
    obtain ⟨listening, hs⟩ := parseLine_of_whole hwhole (fresh true)
    obtain rfl := Except.ok.inj (hs.symm.trans hs')
    have hrr : r = r' := by
      cases hrule with
      | inl heq =>
        subst heq
        simpa [ruleRanges_of_words hw, hr] using hallow
      | inr heq =>
        subst heq
        simpa [ruleRanges_of_words hw, hr] using hdeny
    exact hrr ▸ hsame
  · intro hsame s
    obtain ⟨listening, hs⟩ := parseLine_of_whole hwhole s
    refine ⟨_, r, hs, ?_, ?_, hsame⟩
    · simp only [ruleRanges_of_words hw, hr]
    · simp only [ruleRanges_of_words hw, hr]

theorem meansWhatItSays_iff (line : QString) : MeansWhatItSays line ↔ DenotesZero line := by
  constructor
  · intro h word part rest range hw hrule hden
    exact (rule_means_iff hw hrule hden).mp (h word part rest range hw hrule hden)
  · intro h word part rest range hw hrule hden
    exact (rule_means_iff hw hrule hden).mpr (h word part rest range hw hrule hden)

/-- A text is read to its end, and every rule in it means what it says, exactly
when none is cut short and none denotes anything but 0.0.0.0. -/
theorem filter_means_iff (s : RconWebService) (text : QString) :
    ((∃ s', parseIpFilter s text = .ok s') ∧ ∀ line ∈ text.splitOn '\n', MeansWhatItSays line) ↔
      ∀ line ∈ text.splitOn '\n', ¬ Truncated line ∧ DenotesZero line := by
  rw [parseIpFilter_ok_iff]
  simp only [meansWhatItSays_iff]
  constructor
  · intro h line hline
    exact ⟨h.1 line hline, h.2 line hline⟩
  · intro h
    exact ⟨fun line hline => (h line hline).1, fun line hline => (h line hline).2⟩

theorem star_rule_misses_address :
    ¬ ∀ (s : RconWebService) (text : QString), (∃ s', parseIpFilter s text = .ok s') ∧
      ∀ line ∈ text.splitOn '\n', MeansWhatItSays line := by
  intro h
  have hline := (h (fresh true) "allow 10.0.0.*".toList).2 "allow 10.0.0.*".toList (by decide)
  have hden := @Denotes.stars "10.0.0.*".toList ["10".toList, "0".toList, "0".toList] [10, 0, 0]
    (by decide) (by decide) (by decide)
  have hzero := (meansWhatItSays_iff _).mp hline "allow".toList _ [] _ (by decide) (.inl rfl) hden
  revert hzero
  decide

/-! ### One text after another -/

def parseIpFilters : List QString → RconWebService → Except Fault RconWebService
  | [], s => .ok s
  | text :: texts, s => do
    let s ← parseIpFilter s text
    parseIpFilters texts s

/-- After the earlier texts the last one leaves the lists a new service would
have from it. -/
def ReplacesRules (earlier : List QString) (text : QString) : Prop :=
  ∃ s s' new, parseIpFilters earlier (fresh true) = .ok s ∧ parseIpFilter s text = .ok s' ∧
    parseIpFilter (fresh true) text = .ok new ∧ s'.handlerAllowedIP = new.handlerAllowedIP ∧
    s'.handlerNotAllowedIP = new.handlerNotAllowedIP

/-- Every rule has a second part, with a star and a dash or with neither. -/
def RulesNothing (text : QString) : Prop :=
  ∀ line ∈ text.splitOn '\n', ¬ Truncated line ∧
    ∀ word part rest, words line = word :: part :: rest → IsRule word →
      ('*' ∈ part ↔ '-' ∈ part)

theorem appendedRanges_eq_nil_iff (part : QString) :
    appendedRanges part = [] ↔ ('*' ∈ part ↔ '-' ∈ part) := by
  by_cases hstar : '*' ∈ part
  · by_cases hdash : '-' ∈ part
    · simp [appendedRanges, hstar, hdash]
    · simp [appendedRanges_of_starred hstar hdash, hstar, hdash]
  · by_cases hdash : '-' ∈ part
    · simp [appendedRanges_of_dash hdash hstar, hstar, hdash]
    · simp [appendedRanges, hstar, hdash]

theorem rulesNothing_iff (text : QString) :
    RulesNothing text ↔ Whole text ∧ ∀ word, IsRule word → textRanges word text = [] := by
  constructor
  · intro h
    refine ⟨fun line hline => (h line hline).1, fun word hrule => ?_⟩
    refine List.flatMap_eq_nil_iff.mpr fun line hline => ?_
    rw [ruleRanges]
    split
    next w part rest hw =>
      split_ifs with hword
      · exact (appendedRanges_eq_nil_iff part).mpr
          ((h line hline).2 w part rest hw (hword ▸ hrule))
      · rfl
    next => rfl
  · intro h line hline
    refine ⟨h.1 line hline, fun word part rest hw hrule => ?_⟩
    have hnil := List.flatMap_eq_nil_iff.mp (h.2 word hrule) line hline
    rw [ruleRanges_of_words hw, if_pos rfl] at hnil
    exact (appendedRanges_eq_nil_iff part).mp hnil

theorem parseIpFilters_of_whole {texts : List QString} (h : ∀ text ∈ texts, Whole text)
    (s : RconWebService) :
    ∃ s', parseIpFilters texts s = .ok s' ∧
      s'.allowedIP = s.allowedIP ++ texts.flatMap (textRanges "allow".toList) ∧
      s'.notAllowedIP = s.notAllowedIP ++ texts.flatMap (textRanges "deny".toList) := by
  induction texts generalizing s with
  | nil => exact ⟨s, rfl, by simp, by simp⟩
  | cons text texts ih =>
    obtain ⟨listening, hs⟩ := parseIpFilter_of_whole (h text List.mem_cons_self) s
    obtain ⟨s', hs', hallow, hdeny⟩ := ih (fun t ht => h t (List.mem_cons_of_mem _ ht))
      ⟨s.allowedIP ++ textRanges "allow".toList text, s.notAllowedIP ++ textRanges "deny".toList text,
        s.allowedIP ++ textRanges "allow".toList text, s.notAllowedIP ++ textRanges "deny".toList text,
        listening⟩
    refine ⟨s', ?_, ?_, ?_⟩
    · rw [parseIpFilters, hs]
      exact hs'
    · rw [hallow, List.flatMap_cons, List.append_assoc]
    · rw [hdeny, List.flatMap_cons, List.append_assoc]

theorem whole_of_parseIpFilters {texts : List QString} {s s' : RconWebService}
    (h : parseIpFilters texts s = .ok s') : ∀ text ∈ texts, Whole text := by
  induction texts generalizing s with
  | nil => exact fun text ht => absurd ht List.not_mem_nil
  | cons text texts ih =>
    rw [parseIpFilters] at h
    cases hp : parseIpFilter s text with
    | error f => simp [hp, Bind.bind, Except.bind] at h
    | ok s₁ =>
      rw [hp] at h
      intro t ht
      cases List.mem_cons.mp ht with
      | inl heq =>
        subst heq
        exact (parseIpFilter_ok_iff s).mp ⟨s₁, hp⟩
      | inr ht => exact ih h t ht

/-- The last text replaces the rules exactly when the earlier ones had none and
no text is cut short. -/
theorem replaces_rules_iff (earlier : List QString) (text : QString) :
    ReplacesRules earlier text ↔ (∀ t ∈ earlier, RulesNothing t) ∧ Whole text := by
  constructor
  · rintro ⟨s, s', new, hearlier, hs', hnew, hallow, hdeny⟩
    have hwholes := whole_of_parseIpFilters hearlier
    have hwhole : Whole text := (parseIpFilter_ok_iff s).mp ⟨s', hs'⟩
    obtain ⟨s₁, hs₁, hallow₁, hdeny₁⟩ := parseIpFilters_of_whole hwholes (fresh true)
    obtain rfl := Except.ok.inj (hs₁.symm.trans hearlier)
    obtain ⟨l, hl⟩ := parseIpFilter_of_whole hwhole s₁
    obtain ⟨l', hl'⟩ := parseIpFilter_of_whole hwhole (fresh true)
    obtain rfl := Except.ok.inj (hl.symm.trans hs')
    obtain rfl := Except.ok.inj (hl'.symm.trans hnew)
    have hno : ∀ word, IsRule word → earlier.flatMap (textRanges word) = [] := by
      rintro word (rfl | rfl)
      · simpa [hallow₁, fresh] using hallow
      · simpa [hdeny₁, fresh] using hdeny
    refine ⟨fun t ht => (rulesNothing_iff t).mpr ⟨hwholes t ht, fun word hrule => ?_⟩, hwhole⟩
    exact List.flatMap_eq_nil_iff.mp (hno word hrule) t ht
  · rintro ⟨hearlier, hwhole⟩
    have hwholes : ∀ t ∈ earlier, Whole t := fun t ht => ((rulesNothing_iff t).mp (hearlier t ht)).1
    have hno : ∀ word, IsRule word → earlier.flatMap (textRanges word) = [] := fun word hrule =>
      List.flatMap_eq_nil_iff.mpr fun t ht => ((rulesNothing_iff t).mp (hearlier t ht)).2 word hrule
    obtain ⟨s, hs, hallow, hdeny⟩ := parseIpFilters_of_whole hwholes (fresh true)
    rw [hno _ (.inl rfl), List.append_nil] at hallow
    rw [hno _ (.inr rfl), List.append_nil] at hdeny
    obtain ⟨l, hl⟩ := parseIpFilter_of_whole hwhole s
    obtain ⟨l', hl'⟩ := parseIpFilter_of_whole hwhole (fresh true)
    refine ⟨s, _, _, hs, hl, hl', ?_, ?_⟩
    · simp only [hallow]
    · simp only [hdeny]

/-- An address that the second text no longer allows is still allowed. -/
theorem revoked_rule_stays :
    ¬ ∀ earlier text, ReplacesRules [earlier] text := by
  intro h
  have hnothing := ((replaces_rules_iff _ _).mp
    (h "allow 10.0.0.*".toList "allow 10.1.0.*".toList)).1 _ List.mem_cons_self
  have hsame := (hnothing "allow 10.0.0.*".toList (by decide)).2 "allow".toList "10.0.0.*".toList []
    (by decide) (.inl rfl)
  revert hsame
  decide

end RconWebService
end CuteTorrent
