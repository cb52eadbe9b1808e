import CuteTorrent.Bencode
import CuteTorrent.HttpRequestHandler

/-! `HttpRequest` once its last byte is there: the parts of a form, and the
parameters of path and body. -/
namespace CuteTorrent
namespace HttpRequest

def trimmedBytes (s : QByteArray) : QByteArray :=
  ((s.dropWhile Bencode.isSpace).reverse.dropWhile Bencode.isSpace).reverse

/-- `readLine(maxSize)` until the end of the file; `part` is what has been read
of a line. -/
def readLines (maxSize : Nat) : QByteArray → QByteArray → List QByteArray
  | [], [] => []
  | b :: part, [] => [b :: part]
  | part, b :: s =>
    if b = 10 ∨ part.length + 1 = maxSize then (part ++ [b]) :: readLines maxSize [] s
    else readLines maxSize (part ++ [b]) s

def afterFirst (text : QByteArray) : QByteArray → Option QByteArray
  | [] => if text = [] then some [] else none
  | b :: s => if text.isPrefixOf (b :: s) then some ((b :: s).drop text.length) else afterFirst text s

def contains (s : QByteArray) (text : QByteArray) : Bool := (afterFirst text s).isSome

/-- The text from `start` to the next quotation mark. -/
def quoted (start : String) (line : QByteArray) : Option QByteArray :=
  match afterFirst (literal start) line with
  | none => none
  | some rest => if 34 ∈ rest then some (rest.takeWhile fun b => decide (b ≠ 34)) else none

/-- Two bytes too many have been collected; what is shorter stays. -/
def removeLineEnd (s : QByteArray) : QByteArray := if s.length < 2 then s else s.take (s.length - 2)

structure FormData where
  parameters : List (QByteArray × QByteArray)
  uploadedFiles : List (QByteArray × QByteArray)

/-- The field or file that a boundary ends. The file is null as long as no line
of it has been read. -/
def FormData.insert (m : FormData) (fieldName fileName fieldValue : QByteArray)
    (uploadedFile : Option QByteArray) : Except Fault FormData :=
  if fieldName = [] then .ok m
  else if fileName = [] then
    .ok { m with parameters := m.parameters ++ [(fieldName, removeLineEnd fieldValue)] }
  else
    match uploadedFile with
    | none => .error .nullPointer
    | some file => .ok
      { parameters := m.parameters ++ [(fieldName, fileName)]
        uploadedFiles := m.uploadedFiles ++ [(fieldName, removeLineEnd file)] }

inductive PartState where
  | header (fieldName fileName : QByteArray)
  | body (fieldName fileName fieldValue : QByteArray) (uploadedFile : Option QByteArray)
  | finished

def readPart (boundary : QByteArray) : FormData × PartState → QByteArray →
    Except Fault (FormData × PartState)
  | (m, .header fieldName fileName), line =>
    let line := trimmedBytes line
    if (literal "Content-Disposition:").isPrefixOf line then
      if contains line (literal "form-data") then
        .ok (m, .header ((quoted " name=\"" line).getD fieldName)
          ((quoted " filename=\"" line).getD fileName))
      else .ok (m, .header fieldName fileName)
    else if line = [] then .ok (m, .body fieldName fileName [] none)
    else .ok (m, .header fieldName fileName)
  | (m, .body fieldName fileName fieldValue uploadedFile), line =>
    if (literal "--" ++ boundary).isPrefixOf line then do
      let m ← m.insert fieldName fileName fieldValue uploadedFile
      return (m, if contains line (boundary ++ literal "--") then .finished else .header [] [])
    else if fieldName = [] then .ok (m, .body fieldName fileName fieldValue uploadedFile)
    else if fileName = [] then .ok (m, .body fieldName fileName (fieldValue ++ line) uploadedFile)
    else .ok (m, .body fieldName fileName fieldValue (some (uploadedFile.getD [] ++ line)))
  | (m, .finished), _ => .ok (m, .finished)

/-- A part that no boundary ends is dropped. -/
def parseMultiPartFile (boundary tempFile : QByteArray) : Except Fault FormData := do
  let (m, _) ← (readLines 65536 [] tempFile).foldlM (readPart boundary) (⟨[], []⟩, .header [] [])
  return m

def cut (b : UInt8) (s : QByteArray) : Option (QByteArray × QByteArray) :=
  if b ∈ s then
    some (s.takeWhile (fun c => decide (c ≠ b)), (s.dropWhile fun c => decide (c ≠ b)).drop 1)
  else none

def insertParameter (parameters : List (QByteArray × QByteArray)) (part : QByteArray) :
    List (QByteArray × QByteArray) :=
  match cut 61 part with
  | some (name, value) =>
    parameters ++ [(urlDecode (trimmedBytes name), urlDecode (trimmedBytes value))]
  | none => if part = [] then parameters else parameters ++ [(urlDecode part, [])]

/-- The path without its query, and the parameters with those of the query. A
body of parameters takes the place of the query. -/
def decodeRequestParams (path contentType bodyData : QByteArray)
    (parameters : List (QByteArray × QByteArray)) : QByteArray × List (QByteArray × QByteArray) :=
  let (path, rawParameters) := (cut 63 path).getD (path, [])
  let urlencoded := contentType = [] ∨
    (literal "application/x-www-form-urlencoded").isPrefixOf contentType
  let rawParameters :=
    if bodyData ≠ [] ∧ urlencoded then
      if rawParameters = [] then 38 :: bodyData else bodyData
    else rawParameters
  (path, (rawParameters.splitOn 38).foldl insertParameter parameters)

def boundaryOf (contentType : QByteArray) : QByteArray :=
  if (literal "multipart/form-data").isPrefixOf contentType then
    (afterFirst (literal "boundary=") contentType).getD []
  else []

def received (method path : QByteArray) (headers : List (QByteArray × QByteArray))
    (body : QByteArray) : Except Fault HttpRequest := do
  let contentType := lastValue (literal "Content-Type") headers
  let boundary := boundaryOf contentType
  let bodyData := if boundary = [] then body else []
  let form : Except Fault FormData :=
    if boundary = [] then .ok ⟨[], []⟩ else parseMultiPartFile boundary body
  let m ← form
  let (path, parameters) := decodeRequestParams path contentType bodyData m.parameters
  return ⟨method, path, headers, parameters, m.uploadedFiles, bodyData⟩

end HttpRequest
end CuteTorrent
