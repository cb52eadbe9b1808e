import CuteTorrent.Library.Reader
import CuteTorrent.HttpCookie

/-! `HttpRequest::readFromSocket`: a request takes shape line by line, then by the
bytes of its body, under the two limits of the settings. -/
namespace CuteTorrent

namespace HttpRequest
open QApplicationSettings

/-- What `readLine` finds of a line, with its line feed, in at most `n` bytes. -/
def takeLine : Nat → QByteArray → QByteArray × QByteArray
  | 0, s => ([], s)
  | _ + 1, [] => ([], [])
  | n + 1, b :: s =>
    if b = 10 then ([b], s)
    else
      let (line, rest) := takeLine n s
      (b :: line, rest)

/-- `QIODevice::readLine`: a maximum of 0 is none. -/
def readLine (maxSize : Int) (socket : QByteArray) : QByteArray × QByteArray :=
  if maxSize < 0 then ([], socket)
  else if maxSize = 0 then takeLine socket.length socket
  else takeLine maxSize.toNat socket

def readBytes (maxSize : Int) (socket : QByteArray) : QByteArray × QByteArray :=
  socket.splitAt maxSize.toNat

inductive RequestStatus where
  | waitForRequest
  | waitForHeader
  | waitForBody
  | complete
  | abort
deriving DecidableEq, Repr

structure Reading where
  status : RequestStatus
  method : QByteArray
  path : QByteArray
  version : QByteArray
  headers : List (QByteArray × QByteArray)
  parameters : List (QByteArray × QByteArray)
  uploadedFiles : List (QByteArray × QByteArray)
  cookies : List (QByteArray × QByteArray)
  bodyData : QByteArray
  maxSize : Int
  maxMultiPartSize : Int
  currentSize : Int
  expectedBodySize : Int
  currentHeader : QByteArray
  boundary : QByteArray
  tempFile : QByteArray
deriving DecidableEq

namespace Reading

def ofLimits (maxSize maxMultiPartSize : Int) : Reading where
  status := .waitForRequest
  method := []
  path := []
  version := []
  headers := []
  parameters := []
  uploadedFiles := []
  cookies := []
  bodyData := []
  maxSize := maxSize
  maxMultiPartSize := maxMultiPartSize
  currentSize := 0
  expectedBodySize := 0
  currentHeader := []
  boundary := []
  tempFile := []

def maxRequestSizeKey : QString := "maxRequestSize".toList

def maxMultiPartSizeKey : QString := "maxMultiPartSize".toList

def create (s : Settings) : Reading × Settings :=
  let (maxSize, s) := value s HttpRequestHandler.serverName maxRequestSizeKey (.string "16000".toList)
  let (maxMultiPartSize, s) :=
    value s HttpRequestHandler.serverName maxMultiPartSizeKey (.string "1000000".toList)
  (ofLimits maxSize.toInt maxMultiPartSize.toInt, s)

/-- One byte more than may be read, to see that there are too many. -/
def toRead (r : Reading) : Int := wrapInt (r.maxSize - r.currentSize + 1)

def requestLine (r : Reading) (newData : QByteArray) : Reading :=
  let r := { r with currentSize := r.currentSize + newData.length }
  if newData = [] then r
  else
    match newData.splitOn 32 with
    | [method, path, version] =>
      if contains version (literal "HTTP") then
        { r with method := method, path := path, version := version, status := .waitForHeader }
      else { r with status := .abort }
    | _ => { r with status := .abort }

def announced (r : Reading) : Reading :=
  let contentLength := lastValue (literal "Content-Length") r.headers
  { r with
    boundary := boundaryOf (lastValue (literal "Content-Type") r.headers)
    expectedBodySize :=
      if contentLength = [] then r.expectedBodySize else bytesToInt contentLength }

def endOfHeaders (r : Reading) : Reading :=
  let r := r.announced
  if r.expectedBodySize = 0 then { r with status := .complete }
  else if r.boundary = [] ∧ wrapInt (r.expectedBodySize + r.currentSize) > r.maxSize then
    { r with status := .abort }
  else if r.boundary ≠ [] ∧ r.expectedBodySize > r.maxMultiPartSize then { r with status := .abort }
  else { r with status := .waitForBody }

/-- A line of the headers, trimmed: a header, more of the header before it, or the end. -/
def headerLine (r : Reading) (newData : QByteArray) : Reading :=
  let r := { r with currentSize := r.currentSize + newData.length }
  match cut 58 newData with
  | some (b :: name, text) =>
    { r with
      currentHeader := b :: name
      headers := r.headers ++ [(b :: name, trimmedBytes text)] }
  | _ =>
    if newData ≠ [] then
      if r.currentHeader ∈ Assoc.keys r.headers then
        { r with headers := r.headers ++
            [(r.currentHeader, lastValue r.currentHeader r.headers ++ 32 :: newData)] }
      else r
    else r.endOfHeaders

def formFieldSize (boundary : QByteArray) : PartState → QByteArray → Nat
  | .body fieldName fileName _ _, line =>
    if (literal "--" ++ boundary).isPrefixOf line then 0
    else if fieldName ≠ [] ∧ fileName = [] then line.length
    else 0
  | _, _ => 0

def readSizedPart (boundary : QByteArray) (s : (FormData × PartState) × Nat) (line : QByteArray) :
    Except Fault ((FormData × PartState) × Nat) := do
  let parts ← readPart boundary s.1 line
  return (parts, s.2 + formFieldSize boundary s.1.2 line)

/-- `parseMultiPartFile` -/
def parseTempFile (r : Reading) : Except Fault Reading := do
  let (parts, size) ← (readLines 65536 [] r.tempFile).foldlM (readSizedPart r.boundary)
    ((⟨r.parameters, r.uploadedFiles⟩, .header [] []), 0)
  return { r with
    parameters := parts.1.parameters
    uploadedFiles := parts.1.uploadedFiles
    currentSize := r.currentSize + size }

/-- A body that is all there is complete; a file of the size of the limit is too large. -/
def checkBody (r : Reading) : Except Fault Reading :=
  if r.boundary = [] then
    .ok (if r.expectedBodySize ≤ r.bodyData.length then { r with status := .complete } else r)
  else if r.maxMultiPartSize ≤ r.tempFile.length then .ok { r with status := .abort }
  else if r.expectedBodySize ≤ r.tempFile.length then do
    let r ← r.parseTempFile
    return { r with status := .complete }
  else .ok r

def readBody (r : Reading) (socket : QByteArray) : Except Fault (Reading × QByteArray) := do
  if r.boundary = [] then
    let (newData, socket) := readBytes (r.expectedBodySize - r.bodyData.length) socket
    let r ← { r with
      currentSize := r.currentSize + newData.length
      bodyData := r.bodyData ++ newData }.checkBody
    return (r, socket)
  else
    let toRead := r.expectedBodySize - r.tempFile.length
    let (newData, socket) := readBytes (if toRead > 65536 then 65536 else toRead) socket
    let r ← { r with tempFile := r.tempFile ++ newData }.checkBody
    return (r, socket)

/-- `headers.values("Cookie")`, the last one first. -/
def cookieHeaders (headers : List (QByteArray × QByteArray)) : List QByteArray :=
  ((headers.filter fun h => decide (h.1 = literal "Cookie")).map Prod.snd).reverse

def insertCookie (cookies : List (QByteArray × QByteArray)) (part : QByteArray) :
    List (QByteArray × QByteArray) :=
  let (name, value) := HttpCookie.nameAndValue part
  Assoc.insert name value cookies

def extractCookies (r : Reading) : Reading :=
  { r with
    cookies := (cookieHeaders r.headers).foldl
      (fun cookies cookieStr => (HttpCookie.splitCSV cookieStr).foldl insertCookie cookies) r.cookies
    headers := Assoc.erase (literal "Cookie") r.headers }

def decodeParams (r : Reading) : Reading :=
  let (path, parameters) :=
    decodeRequestParams r.path (lastValue (literal "Content-Type") r.headers) r.bodyData r.parameters
  { r with path := path, parameters := parameters }

/-- What follows each read: the limit, then the parameters and the cookies. -/
def afterRead (r : Reading) : Reading :=
  if r.currentSize > r.maxSize then { r with status := .abort }
  else if r.status = .complete then r.decodeParams.extractCookies
  else r

def readFromSocket (r : Reading) (socket : QByteArray) : Except Fault (Reading × QByteArray) := do
  let (r, socket) ← match r.status with
    | .waitForRequest =>
      let (line, socket) := readLine r.toRead socket
      .ok (r.requestLine (trimmedBytes line), socket)
    | .waitForHeader =>
      let (line, socket) := readLine r.toRead socket
      .ok (r.headerLine (trimmedBytes line), socket)
    | .waitForBody => r.readBody socket
    | _ => .ok (r, socket)
  return (r.afterRead, socket)

def ended (r : Reading) : Bool := decide (r.status = .complete ∨ r.status = .abort)

/-- The loop of `HttpConnectionHandler::read`, on the bytes that are available. -/
def collect (r : Reading) (socket : QByteArray) : Except Fault (Reading × QByteArray) :=
  Reader.gather ended readFromSocket r socket

/-! ### Lines -/

end Reading

theorem takeLine_append {n : Nat} {s : QByteArray} (h : 10 ∈ s ∨ n ≤ s.length) (t : QByteArray) :
    takeLine n (s ++ t) = ((takeLine n s).1, (takeLine n s).2 ++ t) := by
  induction n generalizing s with
  | zero => rfl
  | succ n ih =>
    cases s with
    | nil => simp at h
    | cons b s =>
      by_cases hb : b = 10
      · simp [takeLine, hb]
      · have hrest : 10 ∈ s ∨ n ≤ s.length := by simpa [Ne.symm hb] using h
        simp [takeLine, hb, ih hrest]

theorem takeLine_all {n : Nat} {s : QByteArray} (h : 10 ∉ s) (hn : s.length < n) :
    takeLine n s = (s, []) := by
  induction n generalizing s with
  | zero => omega
  | succ n ih =>
    cases s with
    | nil => rfl
    | cons b s =>
      have hb : b ≠ 10 := fun he => h (by simp [he])
      have hrest := ih (fun hm => h (List.mem_cons_of_mem _ hm)) (Nat.lt_of_succ_lt_succ hn)
      simp [takeLine, hb, hrest]

theorem takeLine_suffix (n : Nat) (s : QByteArray) : (takeLine n s).2 <:+ s := by
  induction n generalizing s with
  | zero => exact List.suffix_refl s
  | succ n ih =>
    cases s with
    | nil => exact List.suffix_refl []
    | cons b s =>
      by_cases hb : b = 10
      · simp [takeLine, hb]
      · simpa [takeLine, hb] using (ih s).trans (List.suffix_cons b s)

theorem length_takeLine_lt {n : Nat} {s : QByteArray} (hs : s ≠ []) :
    (takeLine (n + 1) s).2.length < s.length := by
  obtain ⟨b, s, rfl⟩ := List.exists_cons_of_ne_nil hs
  by_cases hb : b = 10
  · simp [takeLine, hb]
  · have hrest := (takeLine_suffix n s).length_le
    simpa [takeLine, hb] using Nat.lt_succ_of_le hrest

theorem takeLine_line {line : QByteArray} (h : 10 ∉ line) {n : Nat} (hn : line.length < n)
    (rest : QByteArray) : takeLine n (line ++ 10 :: rest) = (line ++ [10], rest) := by
  induction line generalizing n with
  | nil =>
    obtain ⟨n, rfl⟩ := Nat.exists_eq_succ_of_ne_zero (Nat.ne_of_gt hn)
    simp [takeLine]
  | cons b line ih =>
    obtain ⟨n, rfl⟩ := Nat.exists_eq_succ_of_ne_zero (by omega : n ≠ 0)
    have hb : b ≠ 10 := fun he => h (by simp [he])
    have hrest := ih (fun hm => h (List.mem_cons_of_mem _ hm)) (Nat.lt_of_succ_lt_succ hn)
    simp [takeLine, hb, hrest]

theorem getLast?_of_suffix {s t : QByteArray} (h : t <:+ s) (ht : t ≠ []) :
    t.getLast? = s.getLast? := by
  obtain ⟨front, rfl⟩ := h
  rw [List.getLast?_append, List.getLast?_eq_some_getLast ht]
  rfl

namespace Reading

/-! ### What holds of a request at every time -/

/-- The body that is there falls short of the announced size. A negative size is
announced, too, and waits for a byte to come. -/
def Due (expected : Int) (data : QByteArray) : Prop :=
  expected ≠ 0 ∧ (data = [] ∨ (data.length : Int) < expected)

structure Sound (r : Reading) : Prop where
  limit : r.maxSize < 2 ^ 31 - 1
  nonneg : 0 ≤ r.currentSize
  stored : (r.bodyData.length : Int) ≤ r.currentSize
  lines : r.status = .waitForRequest ∨ r.status = .waitForHeader →
    r.bodyData = [] ∧ r.tempFile = [] ∧ r.expectedBodySize = 0
  body : r.status = .waitForBody → r.boundary = [] →
    Due r.expectedBodySize r.bodyData ∧ r.tempFile = []
  file : r.status = .waitForBody → r.boundary ≠ [] →
    Due r.expectedBodySize r.tempFile ∧ r.bodyData = [] ∧ r.expectedBodySize ≤ r.maxMultiPartSize

structure Open (r : Reading) : Prop extends Sound r where
  fits : r.ended = false → r.currentSize ≤ r.maxSize

theorem ended_iff (r : Reading) : r.ended = true ↔ r.status = .complete ∨ r.status = .abort := by
  simp [ended]

theorem sound_of_ended {r : Reading} (hlimit : r.maxSize < 2 ^ 31 - 1) (hnonneg : 0 ≤ r.currentSize)
    (hstored : (r.bodyData.length : Int) ≤ r.currentSize) (hended : r.ended = true) : r.Sound := by
  have hstatus := (ended_iff r).mp hended
  refine ⟨hlimit, hnonneg, hstored, ?_, ?_, ?_⟩
  · rintro (h | h) <;> simp [h] at hstatus
  · intro h
    simp [h] at hstatus
  · intro h
    simp [h] at hstatus

theorem open_afterRead {r : Reading} (h : r.Sound) : r.afterRead.Open := by
  unfold afterRead
  split_ifs with hmany hcomplete
  · have hsound : Sound { r with status := .abort } :=
      sound_of_ended h.limit h.nonneg h.stored rfl
    exact ⟨hsound, fun hgoes => absurd hgoes (by simp [ended])⟩
  · have hended : r.decodeParams.extractCookies.ended = true :=
      (ended_iff _).mpr (.inl hcomplete)
    have hsound : Sound r.decodeParams.extractCookies :=
      sound_of_ended h.limit h.nonneg h.stored hended
    exact ⟨hsound, fun hgoes => absurd hgoes (by simp [hended])⟩
  · exact ⟨h, fun _ => by omega⟩

theorem ended_afterRead {r : Reading} (h : r.ended = true) : r.afterRead.ended = true := by
  unfold afterRead
  split_ifs with hmany hcomplete
  · rfl
  · exact (ended_iff _).mpr (.inl hcomplete)
  · exact h

theorem sound_requestLine {r : Reading} (h : r.Sound) (hstatus : r.status = .waitForRequest)
    (newData : QByteArray) : (r.requestLine newData).Sound := by
  have hnonneg : 0 ≤ r.currentSize + newData.length := by
    have := h.nonneg
    omega
  obtain ⟨hbody, hfile, hexpected⟩ := h.lines (.inl hstatus)
  have hstored : (r.bodyData.length : Int) ≤ r.currentSize + newData.length := by
    have := h.stored
    omega
  have habort : Sound { r with
      currentSize := r.currentSize + newData.length
      status := .abort } :=
    sound_of_ended h.limit hnonneg hstored rfl
  have hline : ∀ status, status = .waitForRequest ∨ status = .waitForHeader →
      ∀ method path version, Sound { r with
        currentSize := r.currentSize + newData.length
        method := method, path := path, version := version, status := status } := by
    rintro status hline method path version
    refine ⟨h.limit, hnonneg, hstored, fun _ => ⟨hbody, hfile, hexpected⟩, ?_, ?_⟩
    · rintro (rfl : status = .waitForBody)
      cases hline with
      | inl he => cases he
      | inr he => cases he
    · rintro (rfl : status = .waitForBody)
      cases hline with
      | inl he => cases he
      | inr he => cases he
  unfold requestLine
  split_ifs with hempty
  · exact hline r.status (.inl hstatus) r.method r.path r.version
  · dsimp only
    split
    · split_ifs
      · exact hline .waitForHeader (.inr rfl) _ _ _
      · exact habort
    · exact habort

theorem sound_endOfHeaders {r : Reading} (h : r.Sound) (hstatus : r.status = .waitForHeader) :
    r.endOfHeaders.Sound := by
  obtain ⟨hbody, hfile, -⟩ := h.lines (.inr hstatus)
  unfold endOfHeaders
  dsimp only
  split_ifs with hnone hlarge hlargeFile
  · exact sound_of_ended h.limit h.nonneg h.stored rfl
  · exact sound_of_ended h.limit h.nonneg h.stored rfl
  · exact sound_of_ended h.limit h.nonneg h.stored rfl
  · refine ⟨h.limit, h.nonneg, h.stored, ?_, ?_, ?_⟩
    · rintro (he | he) <;> cases he
    · exact fun _ _ => ⟨⟨hnone, .inl hbody⟩, hfile⟩
    · intro _ hmulti
      exact ⟨⟨hnone, .inl hfile⟩, hbody, not_lt.mp fun hlt => hlargeFile ⟨hmulti, hlt⟩⟩

theorem sound_headerLine {r : Reading} (h : r.Sound) (hstatus : r.status = .waitForHeader)
    (newData : QByteArray) : (r.headerLine newData).Sound := by
  have hnonneg : 0 ≤ r.currentSize + newData.length := by
    have := h.nonneg
    omega
  have hlines := h.lines (.inr hstatus)
  have hstored : (r.bodyData.length : Int) ≤ r.currentSize + newData.length := by
    have := h.stored
    omega
  have hline : ∀ headers currentHeader, Sound { r with
      currentSize := r.currentSize + newData.length
      headers := headers, currentHeader := currentHeader } := by
    intro headers currentHeader
    refine ⟨h.limit, hnonneg, hstored, fun _ => hlines, ?_, ?_⟩
    · intro he
      cases hstatus.symm.trans he
    · intro he
      cases hstatus.symm.trans he
  unfold headerLine
  dsimp only
  split
  · exact hline _ _
  · split_ifs
    · exact hline _ _
    · exact hline _ _
    · exact sound_endOfHeaders (hline r.headers r.currentHeader) hstatus

def nextLine (r : Reading) (newData : QByteArray) : Reading :=
  (if r.status = .waitForRequest then r.requestLine newData else r.headerLine newData).afterRead

def lineState (r : Reading) : Prop := r.status = .waitForRequest ∨ r.status = .waitForHeader

theorem lineState_or_body {r : Reading} (h : r.ended = false) :
    r.lineState ∨ r.status = .waitForBody := by
  unfold ended at h
  unfold lineState
  cases hs : r.status <;> simp [hs] at h ⊢

theorem open_nextLine {r : Reading} (h : r.Sound) (hline : r.lineState) (newData : QByteArray) :
    (r.nextLine newData).Open := by
  unfold nextLine
  apply open_afterRead
  split_ifs with hstatus
  · exact sound_requestLine h hstatus newData
  · exact sound_headerLine h (hline.resolve_left hstatus) newData

/-- Room for one byte more than may come. -/
theorem readFromSocket_line {r : Reading} (h : r.Open) (hline : r.lineState) (socket : QByteArray) :
    r.readFromSocket socket =
      .ok (r.nextLine (trimmedBytes (takeLine ((r.maxSize - r.currentSize).toNat + 1) socket).1),
        (takeLine ((r.maxSize - r.currentSize).toNat + 1) socket).2) := by
  have hgoes : r.ended = false := by
    unfold ended
    cases hline with
    | inl he => simp [he]
    | inr he => simp [he]
  have hfits := h.fits hgoes
  have hnonneg := h.nonneg
  have hlimit := h.limit
  have hroom : r.toRead = r.maxSize - r.currentSize + 1 := by
    rw [toRead, wrapInt, Int.bmod_eq_of_le (by omega) (by omega)]
  have hread : readLine r.toRead socket =
      takeLine ((r.maxSize - r.currentSize).toNat + 1) socket := by
    rw [hroom, readLine, if_neg (by omega), if_neg (by omega)]
    congr 1
    omega
  unfold readFromSocket nextLine
  rw [hread]
  cases hline with
  | inl he =>
    rw [he]
    rfl
  | inr he =>
    rw [he]
    rfl

/-! ### The body -/

def kept (r : Reading) : QByteArray := if r.boundary = [] then r.bodyData else r.tempFile

def due (r : Reading) : Nat := (r.expectedBodySize - r.kept.length).toNat

def append (r : Reading) (newData : QByteArray) : Reading :=
  if r.boundary = [] then
    { r with
      currentSize := r.currentSize + newData.length
      bodyData := r.bodyData ++ newData }
  else { r with tempFile := r.tempFile ++ newData }

theorem append_eq_plain {r : Reading} (h : r.boundary = []) (newData : QByteArray) :
    r.append newData = { r with
      currentSize := r.currentSize + newData.length
      bodyData := r.bodyData ++ newData } := if_pos h

theorem append_eq_file {r : Reading} (h : r.boundary ≠ []) (newData : QByteArray) :
    r.append newData = { r with tempFile := r.tempFile ++ newData } := if_neg h

@[simp] theorem boundary_append (r : Reading) (newData : QByteArray) :
    (r.append newData).boundary = r.boundary := by
  unfold append
  split_ifs <;> rfl

@[simp] theorem expectedBodySize_append (r : Reading) (newData : QByteArray) :
    (r.append newData).expectedBodySize = r.expectedBodySize := by
  unfold append
  split_ifs <;> rfl

@[simp] theorem status_append (r : Reading) (newData : QByteArray) :
    (r.append newData).status = r.status := by
  unfold append
  split_ifs <;> rfl

@[simp] theorem kept_append (r : Reading) (newData : QByteArray) :
    (r.append newData).kept = r.kept ++ newData := by
  unfold kept
  rw [boundary_append]
  by_cases h : r.boundary = []
  · rw [if_pos h, if_pos h, append_eq_plain h]
  · rw [if_neg h, if_neg h, append_eq_file h]

theorem append_append (r : Reading) (d e : QByteArray) : (r.append d).append e = r.append (d ++ e) := by
  by_cases h : r.boundary = []
  · rw [append_eq_plain (by rw [boundary_append, h]), append_eq_plain h, append_eq_plain h]
    simp [add_assoc]
  · rw [append_eq_file (by rwa [boundary_append]), append_eq_file h, append_eq_file h]
    simp

theorem due_append (r : Reading) (d : QByteArray) : (r.append d).due = r.due - d.length := by
  unfold due
  rw [expectedBodySize_append, kept_append, List.length_append]
  omega

theorem checkBody_short {r : Reading} (hshort : (r.kept.length : Int) < r.expectedBodySize)
    (hfile : r.boundary ≠ [] → r.expectedBodySize ≤ r.maxMultiPartSize) : r.checkBody = .ok r := by
  unfold checkBody
  unfold kept at hshort
  split_ifs at hshort ⊢ with hplain hfull hlimit hall
  · omega
  · rfl
  · have := hfile hplain
    omega
  · omega
  · rfl

theorem parseTempFile_spec {r r' : Reading} (h : r.parseTempFile = .ok r') :
    r'.maxSize = r.maxSize ∧ r.currentSize ≤ r'.currentSize ∧ r'.bodyData = r.bodyData := by
  obtain ⟨parts, -, hparts⟩ := bind_eq_ok h
  cases hparts
  exact ⟨rfl, by dsimp only; omega, rfl⟩

theorem checkBody_full {r r' : Reading} (h : r.checkBody = .ok r')
    (hfull : r.expectedBodySize ≤ r.kept.length) :
    r'.ended = true ∧ r'.maxSize = r.maxSize ∧ r.currentSize ≤ r'.currentSize ∧
      r'.bodyData = r.bodyData := by
  unfold checkBody at h
  unfold kept at hfull
  split_ifs at h hfull with hplain hlimit
  · cases h
    exact ⟨rfl, rfl, le_refl _, rfl⟩
  · cases h
    exact ⟨rfl, rfl, le_refl _, rfl⟩
  · obtain ⟨parsed, hparse, h⟩ := bind_eq_ok h
    cases h
    obtain ⟨hmax, hsize, hbody⟩ := parseTempFile_spec hparse
    exact ⟨rfl, hmax, hsize, hbody⟩

def block (r : Reading) : Nat := if r.boundary = [] then r.due else min r.due 65536

theorem readFromSocket_body {r : Reading} (hstatus : r.status = .waitForBody) (socket : QByteArray) :
    r.readFromSocket socket = (r.append (socket.take r.block)).checkBody >>= fun next =>
      .ok (next.afterRead, socket.drop r.block) := by
  have hread : r.readBody socket = (r.append (socket.take r.block)).checkBody >>= fun next =>
      .ok (next, socket.drop r.block) := by
    unfold readBody block due kept
    by_cases hplain : r.boundary = []
    · simp only [if_pos hplain, append_eq_plain hplain, readBytes, List.splitAt_eq]
      rfl
    · have hsize : (if r.expectedBodySize - r.tempFile.length > 65536 then (65536 : Int)
          else r.expectedBodySize - r.tempFile.length).toNat =
          min (r.expectedBodySize - r.tempFile.length).toNat 65536 := by
        split_ifs <;> omega
      simp only [if_neg hplain, append_eq_file hplain, readBytes, List.splitAt_eq, hsize]
      rfl
  unfold readFromSocket
  rw [hstatus]
  dsimp only
  rw [hread]
  cases (r.append (socket.take r.block)).checkBody with
  | error e => rfl
  | ok next => rfl

theorem append_bounds {r : Reading} (h : r.Sound) (d : QByteArray) :
    (r.append d).maxSize = r.maxSize ∧ (r.append d).maxMultiPartSize = r.maxMultiPartSize ∧
      0 ≤ (r.append d).currentSize ∧ ((r.append d).bodyData.length : Int) ≤ (r.append d).currentSize := by
  have hnonneg := h.nonneg
  have hstored := h.stored
  by_cases hplain : r.boundary = []
  · rw [append_eq_plain hplain]
    refine ⟨rfl, rfl, by dsimp only; omega, ?_⟩
    simp only [List.length_append]
    omega
  · rw [append_eq_file hplain]
    exact ⟨rfl, rfl, hnonneg, hstored⟩

theorem sound_append {r : Reading} (h : r.Sound) (hstatus : r.status = .waitForBody) {d : QByteArray}
    (hshort : ((r.kept ++ d).length : Int) < r.expectedBodySize) : (r.append d).Sound := by
  obtain ⟨hmax, hmulti, hnonneg, hstored⟩ := append_bounds h d
  have hbody : (r.append d).status = .waitForBody := by rw [status_append, hstatus]
  refine ⟨by rw [hmax]; exact h.limit, hnonneg, hstored, ?_, ?_, ?_⟩
  · rw [hbody]
    rintro (he | he) <;> cases he
  · intro _ hplain
    rw [boundary_append] at hplain
    obtain ⟨⟨hsome, -⟩, hfile⟩ := h.body hstatus hplain
    rw [kept, if_pos hplain] at hshort
    rw [append_eq_plain hplain]
    exact ⟨⟨hsome, .inr hshort⟩, hfile⟩
  · intro _ hplain
    rw [boundary_append] at hplain
    obtain ⟨⟨hsome, -⟩, hdata, hlimit⟩ := h.file hstatus hplain
    rw [kept, if_neg hplain] at hshort
    rw [append_eq_file hplain]
    exact ⟨⟨hsome, .inr hshort⟩, hdata, hlimit⟩

/-- As long as a part of the body is missing nothing but the limit is checked. -/
theorem checkBody_append_short {r : Reading} (h : r.Sound) (hstatus : r.status = .waitForBody)
    {d : QByteArray} (hshort : ((r.kept ++ d).length : Int) < r.expectedBodySize) :
    (r.append d).checkBody = .ok (r.append d) := by
  refine checkBody_short (by rwa [kept_append, expectedBodySize_append]) ?_
  rw [boundary_append, expectedBodySize_append, (append_bounds h d).2.1]
  exact fun hplain => (h.file hstatus hplain).2.2

theorem open_checkBody {r r' : Reading} (h : r.Sound) (hstatus : r.status = .waitForBody)
    {d : QByteArray} (hcheck : (r.append d).checkBody = .ok r') : r'.afterRead.Open := by
  apply open_afterRead
  obtain ⟨hmax, -, hnonneg, hstored⟩ := append_bounds h d
  by_cases hfull : r.expectedBodySize ≤ ((r.kept ++ d).length : Int)
  · obtain ⟨hended, hmax', hsize, hdata⟩ :=
      checkBody_full hcheck (by rwa [expectedBodySize_append, kept_append])
    refine sound_of_ended ?_ (by omega) (by rw [hdata]; omega) hended
    rw [hmax', hmax]
    exact h.limit
  · rw [checkBody_append_short h hstatus (by omega)] at hcheck
    cases hcheck
    exact sound_append h hstatus (by omega)

theorem ended_of_block_zero {r r' : Reading} {socket : QByteArray} (hzero : r.block = 0)
    (hcheck : (r.append (socket.take r.block)).checkBody = .ok r') : r'.ended = true := by
  have hdue : r.due = 0 := by
    unfold block at hzero
    split_ifs at hzero <;> omega
  refine (checkBody_full hcheck ?_).1
  rw [expectedBodySize_append, kept_append, hzero, List.take_zero, List.append_nil]
  rw [due] at hdue
  omega

/-- Every read of a request that is still open takes bytes from the socket, or it is the last. -/
theorem shortens : Reader.Shortens ended readFromSocket Open where
  keeps := by
    intro r socket r' rest h hgoes _ hread
    by_cases hline : r.lineState
    · rw [readFromSocket_line h hline] at hread
      cases hread
      exact open_nextLine h.toSound hline _
    · have hstatus := (lineState_or_body hgoes).resolve_left hline
      rw [readFromSocket_body hstatus] at hread
      obtain ⟨next, hcheck, hnext⟩ := bind_eq_ok hread
      cases hnext
      exact open_checkBody h.toSound hstatus hcheck
  takes := by
    intro r socket r' rest h hgoes hsocket hread
    by_cases hline : r.lineState
    · rw [readFromSocket_line h hline] at hread
      cases hread
      exact ⟨takeLine_suffix _ socket, .inl (length_takeLine_lt hsocket)⟩
    · have hstatus := (lineState_or_body hgoes).resolve_left hline
      rw [readFromSocket_body hstatus] at hread
      obtain ⟨next, hcheck, hnext⟩ := bind_eq_ok hread
      cases hnext
      refine ⟨List.drop_suffix _ socket, ?_⟩
      by_cases hzero : r.block = 0
      · exact .inr (ended_afterRead (ended_of_block_zero hzero hcheck))
      · have hpos : 0 < socket.length := List.length_pos_iff.mpr hsocket
        rw [List.length_drop]
        exact .inl (by omega)

end Reading
end HttpRequest
end CuteTorrent
