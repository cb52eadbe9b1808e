import CuteTorrent.Library.Numeral

/-! Messages of HTTP/1.1 as the other side of a connection writes and reads them:
requests as a client sends them, responses as it takes them from the stream. -/
namespace Http

abbrev Bytes := List UInt8

structure Header where
  name : Bytes
  value : Bytes
deriving DecidableEq

structure Request where
  method : Bytes
  target : Bytes
  headers : List Header
  body : Bytes
deriving DecidableEq

structure Response where
  status : Bytes
  headers : List Header
  body : Bytes
deriving DecidableEq

def crlf : Bytes := [13, 10]

/-- `HTTP/1.1` -/
def version : Bytes := [72, 84, 84, 80, 47, 49, 46, 49]

/-- `Content-Length` -/
def contentLength : Bytes := [67, 111, 110, 116, 101, 110, 116, 45, 76, 101, 110, 103, 116, 104]

/-- `Transfer-Encoding` -/
def transferEncoding : Bytes :=
  [84, 114, 97, 110, 115, 102, 101, 114, 45, 69, 110, 99, 111, 100, 105, 110, 103]

/-- `chunked` -/
def chunked : Bytes := [99, 104, 117, 110, 107, 101, 100]

def Header.text (h : Header) : Bytes := h.name ++ 58 :: (if h.value = [] then [] else 32 :: h.value)

namespace Request

def requestLine (q : Request) : Bytes := q.method ++ 32 :: (q.target ++ 32 :: version)

def lines (q : Request) : List Bytes := q.requestLine :: (q.headers.map Header.text ++ [[]])

def head (q : Request) : Bytes := q.lines.flatMap (· ++ crlf)

def text (q : Request) : Bytes := q.head ++ q.body

end Request

/-- What ends behind a line break, in a text of whole lines, is so many of the lines. -/
theorem exists_lines_of_prefix {lines : List Bytes} (h : ∀ line ∈ lines, 10 ∉ line) {front : Bytes}
    (hfront : front <+: lines.flatMap (· ++ crlf)) (hcut : front = [] ∨ front.getLast? = some 10) :
    ∃ first, first <+: lines ∧ front = first.flatMap (· ++ crlf) := by
  induction lines generalizing front with
  | nil =>
    rw [List.flatMap_nil, List.prefix_nil] at hfront
    exact ⟨[], List.nil_prefix, hfront⟩
  | cons line lines ih =>
    rcases hcut with hempty | hlast
    · exact ⟨[], List.nil_prefix, hempty⟩
    rw [List.flatMap_cons] at hfront
    have hline : line ++ crlf <+: front := by
      rcases List.prefix_or_prefix_of_prefix hfront (List.prefix_append _ _) with hshort | hlong
      · have hbytes : line ++ crlf = (line ++ [13]) ++ [10] := by simp [crlf]
        rw [hbytes, List.prefix_concat_iff] at hshort
        rcases hshort with he | hinside
        · rw [he, hbytes]
        · have hmem := hinside.subset (List.mem_of_getLast? hlast)
          simp [h line List.mem_cons_self] at hmem
      · exact hlong
    obtain ⟨later, rfl⟩ := hline
    rw [List.prefix_append_right_inj] at hfront
    have hcut : later = [] ∨ later.getLast? = some 10 := by
      by_cases hlater : later = []
      · exact .inl hlater
      · rw [List.getLast?_append_of_ne_nil _ hlater] at hlast
        exact .inr hlast
    obtain ⟨first, hfirst, rfl⟩ := ih (fun l hl => h l (List.mem_cons_of_mem _ hl)) hfront hcut
    exact ⟨line :: first, by simpa using hfirst, by simp⟩

def splitLine : Bytes → Option (Bytes × Bytes)
  | 13 :: 10 :: s => some ([], s)
  | [] => none
  | b :: s => (splitLine s).map fun split => (b :: split.1, split.2)

def isBlank (b : UInt8) : Bool := decide (b = 32 ∨ b = 9)

/-- Blanks around a value do not belong to it. -/
def trim (s : Bytes) : Bytes := ((s.dropWhile isBlank).reverse.dropWhile isBlank).reverse

def readHeader (line : Bytes) : Option Header :=
  if 58 ∈ line then
    some ⟨line.takeWhile (fun b => decide (b ≠ 58)),
      trim ((line.dropWhile fun b => decide (b ≠ 58)).drop 1)⟩
  else none

def readHeaders : Nat → Bytes → Option (List Header × Bytes)
  | 0, _ => none
  | fuel + 1, s => do
    let (line, rest) ← splitLine s
    if line = [] then return ([], rest)
    else
      let h ← readHeader line
      let (hs, rest) ← readHeaders fuel rest
      return (h :: hs, rest)

def find (name : Bytes) (headers : List Header) : Option Bytes :=
  (headers.find? fun h => decide (h.name = name)).map Header.value

def hexValue (b : UInt8) : Option Nat :=
  let n := b.toNat
  if 48 ≤ n ∧ n ≤ 57 then some (n - 48)
  else if 97 ≤ n ∧ n ≤ 102 then some (n - 87)
  else if 65 ≤ n ∧ n ≤ 70 then some (n - 55)
  else none

def decimalDigit (b : UInt8) : Option Nat :=
  if 48 ≤ b.toNat ∧ b.toNat ≤ 57 then some (b.toNat - 48) else none

def hexDigit (d : Nat) : UInt8 := if d < 10 then UInt8.ofNat (48 + d) else UInt8.ofNat (87 + d)

def decimalText (n : Nat) : Bytes := Numeral.write 10 (fun d => UInt8.ofNat (48 + d)) n

def hexText (n : Nat) : Bytes := Numeral.write 16 hexDigit n

def chunk (data : Bytes) : Bytes := hexText data.length ++ crlf ++ (data ++ crlf)

def lastChunk : Bytes := 48 :: (crlf ++ crlf)

/-- The chunks up to the one of no bytes, put together. -/
def readChunks : Nat → Bytes → Option (Bytes × Bytes)
  | 0, _ => none
  | fuel + 1, s => do
    let (line, rest) ← splitLine s
    let size ← Numeral.read 16 hexValue line
    if rest.length < size then none
    else
      let (line, behind) ← splitLine (rest.drop size)
      if line ≠ [] then none
      else if size = 0 then return ([], behind)
      else
        let (body, behind) ← readChunks fuel behind
        return (rest.take size ++ body, behind)

/-- The body, by what the headers say of it: in chunks, of a given length, or up to the
end of the stream. -/
def readBody (headers : List Header) (s : Bytes) : Option (Bytes × Bytes) :=
  if find transferEncoding headers = some chunked then readChunks (s.length + 1) s
  else
    match find contentLength headers with
    | some text => do
      let size ← Numeral.read 10 decimalDigit text
      if s.length < size then none else return (s.take size, s.drop size)
    | none => some (s, [])

def readResponse (s : Bytes) : Option (Response × Bytes) := do
  let (status, rest) ← splitLine s
  let (headers, rest) ← readHeaders (rest.length + 1) rest
  let (body, rest) ← readBody headers rest
  return (⟨status, headers, body⟩, rest)

/-! ### What has been written is read -/

theorem splitLine_append {line : Bytes} (h : 13 ∉ line) (rest : Bytes) :
    splitLine (line ++ crlf ++ rest) = some (line, rest) := by
  induction line with
  | nil => rfl
  | cons b line ih =>
    have hb : b ≠ 13 := fun he => h (by simp [he])
    have hrest := ih fun hm => h (List.mem_cons_of_mem _ hm)
    have hstep : splitLine (b :: (line ++ crlf ++ rest)) =
        (splitLine (line ++ crlf ++ rest)).map fun split => (b :: split.1, split.2) := by
      rw [splitLine.eq_def]
      split
      · next he => exact absurd (List.cons.inj he).1 hb
      · next he => cases he
      · next he => cases he; rfl
    rw [List.cons_append, List.cons_append, hstep, hrest]
    rfl

theorem decimalDigit_ofNat : ∀ d < 10, decimalDigit (UInt8.ofNat (48 + d)) = some d := by decide

theorem hexValue_hexDigit : ∀ d < 16, hexValue (hexDigit d) = some d := by decide

theorem not_mem_hexText (n : Nat) : 13 ∉ hexText n := by
  intro h
  obtain ⟨d, hd, he⟩ := Numeral.mem_write (by omega) h
  have hvalue := hexValue_hexDigit d hd
  rw [← he] at hvalue
  cases hvalue

/-- A header as it can be sent: a name without colon, a value without blanks around it,
and no line end in either. -/
structure Header.Sendable (h : Header) : Prop where
  name_ne_nil : h.name ≠ []
  colon : 58 ∉ h.name
  name_line : 13 ∉ h.name
  value_line : 13 ∉ h.value
  value_trim : trim h.value = h.value

theorem takeWhile_append_cons {b : UInt8} {s : Bytes} (h : b ∉ s) (t : Bytes) :
    (s ++ b :: t).takeWhile (fun c => decide (c ≠ b)) = s ∧
      (s ++ b :: t).dropWhile (fun c => decide (c ≠ b)) = b :: t := by
  induction s with
  | nil => simp
  | cons c s ih =>
    have hc : c ≠ b := fun he => h (by simp [he])
    have hrest := ih fun hm => h (List.mem_cons_of_mem _ hm)
    rw [List.cons_append, List.takeWhile_cons, List.dropWhile_cons, if_pos (by simp [hc]),
      if_pos (by simp [hc]), hrest.1, hrest.2]
    exact ⟨rfl, rfl⟩

theorem readHeader_append {name : Bytes} (h : 58 ∉ name) (text : Bytes) :
    readHeader (name ++ 58 :: text) = some ⟨name, trim text⟩ := by
  obtain ⟨hname, htext⟩ := takeWhile_append_cons h text
  rw [readHeader, if_pos (by simp), hname, htext]
  rfl

theorem trim_blank (value : Bytes) : trim (32 :: value) = trim value := by
  rw [trim, trim, List.dropWhile_cons, if_pos (by decide)]

/-- A line of a header, with the blank that is put behind the colon. -/
def Header.line (h : Header) : Bytes := h.name ++ 58 :: 32 :: h.value

theorem readHeaders_lines {headers : List Header} (h : ∀ x ∈ headers, x.Sendable) {fuel : Nat}
    (hfuel : headers.length < fuel) (rest : Bytes) :
    readHeaders fuel (headers.flatMap (fun x => x.line ++ crlf) ++ crlf ++ rest) =
      some (headers, rest) := by
  induction headers generalizing fuel with
  | nil =>
    obtain ⟨fuel, rfl⟩ := Nat.exists_eq_succ_of_ne_zero (Nat.ne_zero_of_lt hfuel)
    rfl
  | cons x headers ih =>
    obtain ⟨fuel, rfl⟩ := Nat.exists_eq_succ_of_ne_zero (Nat.ne_zero_of_lt hfuel)
    have hx := h x List.mem_cons_self
    have hrest := ih (fun y hy => h y (List.mem_cons_of_mem _ hy)) (Nat.lt_of_succ_lt_succ hfuel)
    have hline : 13 ∉ x.line := by
      simp [Header.line, hx.name_line, hx.value_line]
    have hne : x.line ≠ [] := by simp [Header.line]
    have hsplit := splitLine_append hline
      (headers.flatMap (fun x => x.line ++ crlf) ++ crlf ++ rest)
    have hread : readHeader x.line = some x := by
      rw [Header.line, readHeader_append hx.colon, trim_blank, hx.value_trim]
    have htext : (x :: headers).flatMap (fun x => x.line ++ crlf) ++ crlf ++ rest =
        x.line ++ crlf ++ (headers.flatMap (fun x => x.line ++ crlf) ++ crlf ++ rest) := by
      simp
    rw [htext, readHeaders, hsplit]
    simp only [Option.bind_eq_bind, Option.bind_some, hne, hread, hrest, if_false]
    rfl

theorem readChunks_chunks {parts : List Bytes} (h : ∀ data ∈ parts, data ≠ []) {fuel : Nat}
    (hfuel : parts.length < fuel) (rest : Bytes) :
    readChunks fuel (parts.flatMap chunk ++ lastChunk ++ rest) = some (parts.flatten, rest) := by
  induction parts generalizing fuel with
  | nil =>
    obtain ⟨fuel, rfl⟩ := Nat.exists_eq_succ_of_ne_zero (Nat.ne_zero_of_lt hfuel)
    have hzero : 13 ∉ ([48] : Bytes) := by decide
    have hsize : splitLine (lastChunk ++ rest) = some ([48], crlf ++ rest) :=
      splitLine_append hzero (crlf ++ rest)
    have hread : Numeral.read 16 hexValue [48] = some 0 := by decide
    have hend : splitLine (crlf ++ rest) = some ([], rest) := rfl
    rw [List.flatMap_nil, List.nil_append, readChunks]
    simp [hsize, hread, hend]
  | cons data parts ih =>
    obtain ⟨fuel, rfl⟩ := Nat.exists_eq_succ_of_ne_zero (Nat.ne_zero_of_lt hfuel)
    have hdata : data.length ≠ 0 := fun he => h data List.mem_cons_self (List.length_eq_zero_iff.mp he)
    have hrest := ih (fun d hd => h d (List.mem_cons_of_mem _ hd)) (Nat.lt_of_succ_lt_succ hfuel)
    have htext : (data :: parts).flatMap chunk ++ lastChunk ++ rest =
        hexText data.length ++ crlf ++
          (data ++ (crlf ++ (parts.flatMap chunk ++ lastChunk ++ rest))) := by
      simp [chunk]
    have hsize := splitLine_append (not_mem_hexText data.length)
      (data ++ (crlf ++ (parts.flatMap chunk ++ lastChunk ++ rest)))
    have hread : Numeral.read 16 hexValue (hexText data.length) = some data.length :=
      Numeral.read_write (by omega) hexValue_hexDigit _
    have hend : splitLine (crlf ++ (parts.flatMap chunk ++ lastChunk ++ rest)) =
        some ([], parts.flatMap chunk ++ lastChunk ++ rest) := rfl
    rw [htext, readChunks, hsize]
    simp only [Option.bind_eq_bind, Option.bind_some, hread]
    rw [if_neg (by simp), List.drop_left, List.take_left, hend]
    simp only [Option.bind_some, ne_eq, not_true_eq_false, if_false, hdata, hrest]
    rfl

theorem length_le_flatMap {α : Type*} {f : α → Bytes} (hf : ∀ a, f a ≠ []) (l : List α) :
    l.length ≤ (l.flatMap f).length := by
  induction l with
  | nil => exact le_refl 0
  | cons a l ih =>
    have ha : 0 < (f a).length := List.length_pos_iff.mpr (hf a)
    rw [List.flatMap_cons, List.length_append, List.length_cons]
    omega

def responseHead (status : Bytes) (headers : List Header) : Bytes :=
  status ++ crlf ++ (headers.flatMap (fun x => x.line ++ crlf) ++ crlf)

theorem readResponse_head {status : Bytes} {headers : List Header} (hstatus : 13 ∉ status)
    (h : ∀ x ∈ headers, x.Sendable) (s : Bytes) :
    readResponse (responseHead status headers ++ s) =
      (readBody headers s).map fun read => (⟨status, headers, read.1⟩, read.2) := by
  have htext : responseHead status headers ++ s =
      status ++ crlf ++ (headers.flatMap (fun x => x.line ++ crlf) ++ crlf ++ s) := by
    simp [responseHead]
  have hfuel : headers.length <
      (headers.flatMap (fun x => x.line ++ crlf) ++ crlf ++ s).length + 1 := by
    have hle := length_le_flatMap (f := fun x : Header => x.line ++ crlf) (by simp [crlf]) headers
    rw [List.length_append, List.length_append]
    omega
  rw [htext, readResponse, splitLine_append hstatus]
  simp only [Option.bind_eq_bind, Option.bind_some, readHeaders_lines h hfuel]
  cases readBody headers s with
  | none => rfl
  | some read => rfl

theorem readBody_chunks {headers : List Header} (h : find transferEncoding headers = some chunked)
    {parts : List Bytes} (hparts : ∀ data ∈ parts, data ≠ []) (rest : Bytes) :
    readBody headers (parts.flatMap chunk ++ lastChunk ++ rest) = some (parts.flatten, rest) := by
  have hfuel : parts.length < (parts.flatMap chunk ++ lastChunk ++ rest).length + 1 := by
    have hle := length_le_flatMap (f := chunk) (by simp [chunk, crlf]) parts
    rw [List.length_append, List.length_append]
    omega
  rw [readBody, if_pos h, readChunks_chunks hparts hfuel]

theorem readBody_length {headers : List Header} (h : find transferEncoding headers = none)
    {body : Bytes} (hlength : find contentLength headers = some (decimalText body.length))
    (rest : Bytes) : readBody headers (body ++ rest) = some (body, rest) := by
  have hread : Numeral.read 10 decimalDigit (decimalText body.length) = some body.length :=
    Numeral.read_write (by omega) decimalDigit_ofNat _
  rw [readBody, if_neg (by simp [h]), hlength]
  simp [hread]

theorem readBody_close {headers : List Header} (h : find transferEncoding headers = none)
    (hlength : find contentLength headers = none) (body : Bytes) :
    readBody headers body = some (body, []) := by
  rw [readBody, if_neg (by simp [h]), hlength]

end Http
