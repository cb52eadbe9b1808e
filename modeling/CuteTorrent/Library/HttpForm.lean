import CuteTorrent.Library.HttpMessage
import CuteTorrent.Library.TextCodec

/-! What a client sends along with a request: parameters in percent encoding, and forms
in parts with files among them. -/
namespace Http

def isUnreserved (b : UInt8) : Bool :=
  decide (48 ≤ b.toNat ∧ b.toNat ≤ 57 ∨ 65 ≤ b.toNat ∧ b.toNat ≤ 90 ∨ 97 ≤ b.toNat ∧ b.toNat ≤ 122 ∨
    b ∈ [45, 46, 95, 126])

def upperHexDigit (d : Nat) : UInt8 := if d < 10 then UInt8.ofNat (48 + d) else UInt8.ofNat (55 + d)

def percentByte (b : UInt8) : Bytes :=
  if isUnreserved b then [b] else [37, upperHexDigit (b.toNat / 16), upperHexDigit (b.toNat % 16)]

def percentEncode (s : Bytes) : Bytes := s.flatMap percentByte

def pairText (p : Bytes × Bytes) : Bytes := percentEncode p.1 ++ 61 :: percentEncode p.2

/-- `application/x-www-form-urlencoded` -/
def formText (parameters : List (Bytes × Bytes)) : Bytes := [38].intercalate (parameters.map pairText)

def targetText (path : Bytes) (query : List (Bytes × Bytes)) : Bytes :=
  if query = [] then path else path ++ 63 :: formText query

/-- A part of a form: a field, or a file with its name. `lines` are its further headers. -/
structure Part where
  name : Bytes
  fileName : Option Bytes
  lines : List Bytes
  data : Bytes
deriving DecidableEq

namespace Part

def disposition (part : Part) : Bytes :=
  toUtf8 "Content-Disposition: form-data; name=\"".toList ++ part.name ++
    match part.fileName with
    | none => [34]
    | some fileName => toUtf8 "\"; filename=\"".toList ++ fileName ++ [34]

def text (boundary : Bytes) (part : Part) : Bytes :=
  45 :: 45 :: boundary ++ crlf ++
    ((part.disposition :: part.lines ++ [[]]).flatMap (· ++ crlf) ++ (part.data ++ crlf))

end Part

/-- `multipart/form-data` -/
def multipartText (boundary : Bytes) (parts : List Part) : Bytes :=
  parts.flatMap (Part.text boundary) ++ (45 :: 45 :: boundary ++ 45 :: 45 :: crlf)

/-- A body with its type; `further` is what the type says besides, as of a character set. -/
inductive Content where
  | plain (type body : Bytes)
  | urlencoded (further : Bytes) (parameters : List (Bytes × Bytes))
  | multipart (boundary : Bytes) (parts : List Part)

namespace Content

def urlencodedType : Bytes := toUtf8 "application/x-www-form-urlencoded".toList

def multipartType : Bytes := toUtf8 "multipart/form-data; boundary=".toList

def type : Content → Bytes
  | plain type _ => type
  | urlencoded further _ => urlencodedType ++ further
  | multipart boundary _ => multipartType ++ boundary

def body : Content → Bytes
  | plain _ body => body
  | urlencoded _ parameters => formText parameters
  | multipart boundary parts => multipartText boundary parts

end Content

theorem percentByte_safe : ∀ b : UInt8, ∀ c ∈ percentByte b, isUnreserved c = true ∨ c = 37 := by
  have hdigit : ∀ d < 16, isUnreserved (upperHexDigit d) = true := by decide
  intro b c hc
  have hb := b.toNat_lt
  unfold percentByte at hc
  split_ifs at hc with hplain
  · rw [List.mem_singleton.mp hc]
    exact .inl hplain
  · simp only [List.mem_cons, List.not_mem_nil, or_false] at hc
    rcases hc with rfl | rfl | rfl
    · exact .inr rfl
    · exact .inl (hdigit _ (by omega))
    · exact .inl (hdigit _ (by omega))

theorem safe_of_mem {s : Bytes} {c : UInt8} (h : c ∈ percentEncode s) :
    isUnreserved c = true ∨ c = 37 := by
  obtain ⟨b, -, hc⟩ := List.mem_flatMap.mp h
  exact percentByte_safe b c hc

theorem not_mem_percentEncode {c : UInt8} (h : isUnreserved c = false) (hne : c ≠ 37) (s : Bytes) :
    c ∉ percentEncode s := fun hmem => by
  rcases safe_of_mem hmem with hsafe | he
  · rw [h] at hsafe
    cases hsafe
  · exact hne he

theorem not_mem_pairText (p : Bytes × Bytes) : 38 ∉ pairText p := by
  have hsafe := not_mem_percentEncode (c := 38) (by decide) (by decide)
  rw [pairText, List.mem_append, List.mem_cons]
  rintro (h | h | h)
  · exact hsafe _ h
  · cases h
  · exact hsafe _ h

theorem splitOn_formText {parameters : List (Bytes × Bytes)} (h : parameters ≠ []) :
    (formText parameters).splitOn 38 = parameters.map pairText := by
  refine List.splitOn_intercalate 38 ?_ (by simpa using h)
  rintro l hl
  obtain ⟨p, -, rfl⟩ := List.mem_map.mp hl
  exact not_mem_pairText p

theorem formText_ne_nil {parameters : List (Bytes × Bytes)} (h : parameters ≠ []) :
    formText parameters ≠ [] := by
  intro hnil
  have hsplit := splitOn_formText h
  rw [hnil, List.splitOn_nil] at hsplit
  obtain ⟨p, ps, rfl⟩ := List.exists_cons_of_ne_nil h
  have hfirst := (List.cons.inj hsplit).1
  simp [pairText] at hfirst

end Http
