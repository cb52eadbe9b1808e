import CuteTorrent.HttpPieces
import CuteTorrent.Library.HttpMessage

/-! What a client sends is what the server reads: the reading of a request, against
`received` of the whole message. -/
namespace CuteTorrent
namespace HttpRequest
namespace Reading

def request (r : Reading) : HttpRequest :=
  ⟨r.method, r.path, r.headers, r.parameters, r.uploadedFiles, r.bodyData⟩

def pairs (headers : List Http.Header) : List (QByteArray × QByteArray) :=
  headers.map fun h => (h.name, h.value)

structure HeaderLine (h : Http.Header) : Prop where
  name_ne_nil : h.name ≠ []
  colon : 58 ∉ h.name
  name : 10 ∉ h.name ∧ trimmedBytes h.name = h.name
  value : 10 ∉ h.value ∧ trimmedBytes h.value = h.value

def headSize (q : Http.Request) : Nat :=
  q.requestLine.length + (q.headers.map fun h => h.text.length).sum

/-- How much of the file of a form counts as form fields. -/
def formFieldsSize (boundary tempFile : QByteArray) : Nat :=
  match (readLines 65536 [] tempFile).foldlM (readSizedPart boundary)
      ((⟨[], []⟩, .header [] []), 0) with
  | .ok (_, size) => size
  | .error _ => 0

/-- A request within the limits, with its size announced. -/
structure Readable (maxSize maxMultiPartSize : Int) (q : Http.Request) : Prop where
  limit : maxSize < 2 ^ 31 - 1
  method_ne_nil : q.method ≠ []
  method : ∀ b ∈ q.method, Bencode.isSpace b = false
  target : ∀ b ∈ q.target, Bencode.isSpace b = false
  headers : ∀ h ∈ q.headers, HeaderLine h
  announced : lastValue (literal "Content-Length") (pairs q.headers) = [] ∧ q.body = [] ∨
    lastValue (literal "Content-Length") (pairs q.headers) = Bencode.decimal q.body.length ∧
      q.body.length < 2 ^ 31
  head_fits : (headSize q : Int) + 1 ≤ maxSize
  body_fits : boundaryOf (lastValue (literal "Content-Type") (pairs q.headers)) = [] →
    (headSize q : Int) + q.body.length ≤ maxSize
  file_fits : boundaryOf (lastValue (literal "Content-Type") (pairs q.headers)) ≠ [] →
    (q.body.length : Int) < maxMultiPartSize ∧ (headSize q : Int) + formFieldsSize
      (boundaryOf (lastValue (literal "Content-Type") (pairs q.headers))) q.body ≤ maxSize

/-! ### The head -/

theorem collect_textLine {r : Reading} (h : r.Open) (hline : r.lineState) {text : QByteArray}
    (htrim : trimmedBytes text = text) (hbreak : 10 ∉ text)
    (hfits : r.currentSize + text.length + 1 ≤ r.maxSize) (rest : QByteArray) :
    r.collect (text ++ Http.crlf ++ rest) = (r.nextLine text).collect rest := by
  have hbytes : text ++ Http.crlf ++ rest = (text ++ [13]) ++ 10 :: rest := by
    simp [Http.crlf]
  have hread : takeLine ((r.maxSize - r.currentSize).toNat + 1) ((text ++ [13]) ++ 10 :: rest) =
      (text ++ [13] ++ [10], rest) := by
    refine takeLine_line (by simp [hbreak]) ?_ rest
    rw [List.length_append, List.length_singleton]
    omega
  have hkeep : trimmedBytes (text ++ [13] ++ [10]) = text := by
    rw [List.append_assoc]
    exact trimmedBytes_append_spaces htrim (List.all_eq_true.mp rfl)
  rw [collect_line h hline (by simp [Http.crlf]), hbytes, hread, hkeep]

theorem splitOn_requestLine {q : Http.Request} (hmethod : ∀ b ∈ q.method, Bencode.isSpace b = false)
    (htarget : ∀ b ∈ q.target, Bencode.isSpace b = false) :
    q.requestLine.splitOn 32 = [q.method, q.target, Http.version] := by
  have hnot : ∀ s : QByteArray, (∀ b ∈ s, Bencode.isSpace b = false) → 32 ∉ s := fun s hs hm =>
    absurd (hs 32 hm) (by decide)
  rw [Http.Request.requestLine, List.splitOn_append_cons_self_of_not_mem (hnot _ hmethod),
    List.splitOn_append_cons_self_of_not_mem (hnot _ htarget)]
  rfl

theorem trimmed_requestLine {q : Http.Request} (hne : q.method ≠ [])
    (hmethod : ∀ b ∈ q.method, Bencode.isSpace b = false) :
    trimmedBytes q.requestLine = q.requestLine := by
  refine trimmedBytes_eq_self ?_ ?_
  · intro b hb
    rw [Http.Request.requestLine, List.head?_append_of_ne_nil _ hne] at hb
    exact hmethod b (List.mem_of_head? hb)
  · intro b hb
    have hend : q.requestLine =
        (q.method ++ 32 :: (q.target ++ 32 :: Http.version.dropLast)) ++ [49] := by
      simp [Http.Request.requestLine, Http.version]
    rw [hend, List.getLast?_concat] at hb
    cases hb
    decide

def afterRequestLine (maxSize maxMultiPartSize : Int) (q : Http.Request) : Reading :=
  { ofLimits maxSize maxMultiPartSize with
    currentSize := q.requestLine.length
    method := q.method
    path := q.target
    version := Http.version
    status := .waitForHeader }

variable {maxSize maxMultiPartSize : Int} {q : Http.Request}

theorem requestLine_le_headSize (q : Http.Request) : q.requestLine.length ≤ headSize q :=
  Nat.le_add_right _ _

theorem nextLine_requestLine (h : Readable maxSize maxMultiPartSize q) :
    (ofLimits maxSize maxMultiPartSize).nextLine q.requestLine =
      afterRequestLine maxSize maxMultiPartSize q := by
  have hne : q.requestLine ≠ [] := by simp [Http.Request.requestLine]
  have hhttp : contains Http.version (literal "HTTP") = true := by decide
  have hsize := requestLine_le_headSize q
  have hfits := h.head_fits
  have hline : (ofLimits maxSize maxMultiPartSize).requestLine q.requestLine =
      afterRequestLine maxSize maxMultiPartSize q := by
    unfold requestLine
    dsimp only
    rw [if_neg hne, splitOn_requestLine h.method h.target]
    dsimp only
    rw [if_pos hhttp]
    simp [afterRequestLine, ofLimits]
  have hstatus : (ofLimits maxSize maxMultiPartSize).status = .waitForRequest := rfl
  rw [nextLine, if_pos hstatus, hline, afterRead, if_neg, if_neg]
  · simp [afterRequestLine]
  · simp only [afterRequestLine, ofLimits]
    omega

theorem collect_requestLine (h : Readable maxSize maxMultiPartSize q) (rest : QByteArray) :
    (ofLimits maxSize maxMultiPartSize).collect (q.requestLine ++ Http.crlf ++ rest) =
      (afterRequestLine maxSize maxMultiPartSize q).collect rest := by
  have hsize := requestLine_le_headSize q
  have hfits := h.head_fits
  have hbreak : 10 ∉ q.requestLine := by
    have hmethod : 10 ∉ q.method := fun hm => absurd (h.method 10 hm) (by decide)
    have htarget : 10 ∉ q.target := fun hm => absurd (h.target 10 hm) (by decide)
    simp [Http.Request.requestLine, Http.version, hmethod, htarget]
  rw [collect_textLine (open_ofLimits h.limit (by omega) _) (.inl rfl)
    (trimmed_requestLine h.method_ne_nil h.method) hbreak, nextLine_requestLine h]
  simp only [ofLimits]
  omega

theorem HeaderLine.text_spec {x : Http.Header} (h : HeaderLine x) :
    trimmedBytes x.text = x.text ∧ 10 ∉ x.text ∧ x.text ≠ [] := by
  have hcolon : Bencode.isSpace 58 = false := by decide
  refine ⟨?_, ?_, by simp [Http.Header.text]⟩
  · unfold Http.Header.text
    split_ifs with hempty
    · exact trimmedBytes_pair hcolon h.name.2 h.name_ne_nil (by rfl)
    · refine trimmedBytes_eq_self ?_ ?_
      · intro b hb
        rw [List.head?_append_of_ne_nil _ h.name_ne_nil] at hb
        exact trimmed_head h.name.2 hb
      · intro b hb
        rw [List.getLast?_append_of_ne_nil _ (by simp), List.getLast?_cons_of_ne_nil (by simp),
          List.getLast?_cons_of_ne_nil hempty] at hb
        exact trimmed_last h.value.2 hb
  · unfold Http.Header.text
    split_ifs
    · simp [h.name.1]
    · simp [h.name.1, h.value.1]

def addHeader (r : Reading) (x : Http.Header) : Reading :=
  { r with
    currentSize := r.currentSize + x.text.length
    currentHeader := x.name
    headers := r.headers ++ [(x.name, x.value)] }

theorem nextLine_header {r : Reading} (hstatus : r.status = .waitForHeader) {x : Http.Header}
    (h : HeaderLine x) (hfits : r.currentSize + x.text.length ≤ r.maxSize) :
    r.nextLine x.text = r.addHeader x := by
  obtain ⟨b, name, hname⟩ := List.exists_cons_of_ne_nil h.name_ne_nil
  have hline : r.headerLine x.text = r.addHeader x := by
    have hcut : ∃ text, cut 58 x.text = some (b :: name, text) ∧ trimmedBytes text = x.value := by
      unfold Http.Header.text
      split_ifs with hempty
      · exact ⟨[], by rw [cut_append h.colon, hname], by rw [hempty]; rfl⟩
      · refine ⟨32 :: x.value, by rw [cut_append h.colon, hname], ?_⟩
        rw [trimmedBytes_cons_space (by decide), h.value.2]
    obtain ⟨text, hcut, htext⟩ := hcut
    unfold headerLine addHeader
    rw [hcut]
    dsimp only
    rw [htext, hname]
  have hgoes : r.status ≠ .waitForRequest := by simp [hstatus]
  rw [nextLine, if_neg hgoes, hline, afterRead, if_neg, if_neg]
  · simp [addHeader, hstatus]
  · simp only [addHeader]
    omega

theorem collect_headers (headers : List Http.Header) {r : Reading} (hopen : r.Open)
    (hstatus : r.status = .waitForHeader) (h : ∀ x ∈ headers, HeaderLine x)
    (hfits : r.currentSize + ((headers.map fun x => x.text.length).sum : Nat) + 1 ≤ r.maxSize)
    (rest : QByteArray) :
    r.collect (headers.flatMap (fun x => x.text ++ Http.crlf) ++ rest) =
        (headers.foldl addHeader r).collect rest ∧
      (headers.foldl addHeader r).Open := by
  induction headers generalizing r with
  | nil => exact ⟨rfl, hopen⟩
  | cons x headers ih =>
    have hx := h x List.mem_cons_self
    obtain ⟨htrim, hbreak, -⟩ := hx.text_spec
    rw [List.map_cons, List.sum_cons, Nat.cast_add] at hfits
    have hnext : r.nextLine x.text = r.addHeader x := nextLine_header hstatus hx (by omega)
    have hopen' : (r.addHeader x).Open := by
      rw [← hnext]
      exact open_nextLine hopen.toSound (.inr hstatus) _
    have hrest := ih hopen' hstatus (fun y hy => h y (List.mem_cons_of_mem _ hy)) (by
      simp only [addHeader]
      omega)
    rw [List.flatMap_cons, List.append_assoc,
      collect_textLine hopen (.inr hstatus) htrim hbreak (by omega), hnext]
    exact hrest

theorem foldl_addHeader (headers : List Http.Header) (r : Reading) :
    ∃ currentHeader, headers.foldl addHeader r =
      { r with
        currentHeader := currentHeader
        currentSize := r.currentSize + ((headers.map fun x => x.text.length).sum : Nat)
        headers := r.headers ++ pairs headers } := by
  induction headers generalizing r with
  | nil => exact ⟨r.currentHeader, by simp [pairs]⟩
  | cons x headers ih =>
    obtain ⟨currentHeader, hrest⟩ := ih (r.addHeader x)
    refine ⟨currentHeader, ?_⟩
    rw [List.foldl_cons, hrest]
    simp [addHeader, pairs, add_assoc]

def afterHeaders (maxSize maxMultiPartSize : Int) (q : Http.Request) : Reading :=
  q.headers.foldl addHeader (afterRequestLine maxSize maxMultiPartSize q)

theorem afterHeaders_eq (maxSize maxMultiPartSize : Int) (q : Http.Request) :
    ∃ currentHeader, afterHeaders maxSize maxMultiPartSize q =
      { ofLimits maxSize maxMultiPartSize with
        status := .waitForHeader
        method := q.method
        path := q.target
        version := Http.version
        headers := pairs q.headers
        currentHeader := currentHeader
        currentSize := headSize q } := by
  obtain ⟨currentHeader, h⟩ := foldl_addHeader q.headers
    (afterRequestLine maxSize maxMultiPartSize q)
  refine ⟨currentHeader, ?_⟩
  rw [afterHeaders, h]
  simp [afterRequestLine, ofLimits, headSize]

theorem head_append (q : Http.Request) (s : QByteArray) :
    q.head ++ s = q.requestLine ++ Http.crlf ++
      (q.headers.flatMap (fun x => x.text ++ Http.crlf) ++ ([] ++ Http.crlf ++ s)) := by
  simp [Http.Request.head, Http.Request.lines, List.flatMap_map]

theorem collect_lines (h : Readable maxSize maxMultiPartSize q) {headers : List Http.Header}
    (hheaders : headers <+: q.headers) (s : QByteArray) :
    (ofLimits maxSize maxMultiPartSize).collect (q.requestLine ++ Http.crlf ++
        (headers.flatMap (fun x => x.text ++ Http.crlf) ++ s)) =
        (headers.foldl addHeader (afterRequestLine maxSize maxMultiPartSize q)).collect s ∧
      (headers.foldl addHeader (afterRequestLine maxSize maxMultiPartSize q)).Open := by
  have hfits := h.head_fits
  have hfirst : (afterRequestLine maxSize maxMultiPartSize q).Open := by
    rw [← nextLine_requestLine h]
    have hnonneg : 0 ≤ maxSize := by omega
    exact open_nextLine (open_ofLimits h.limit hnonneg _).toSound (.inl rfl) _
  have hsize : (afterRequestLine maxSize maxMultiPartSize q).currentSize +
      ((headers.map fun x => x.text.length).sum : Nat) + 1 ≤
        (afterRequestLine maxSize maxMultiPartSize q).maxSize := by
    obtain ⟨later, hlater⟩ := hheaders
    simp only [headSize, Nat.cast_add, ← hlater, List.map_append, List.sum_append] at hfits
    simp only [afterRequestLine, ofLimits]
    omega
  rw [collect_requestLine h]
  exact collect_headers headers hfirst rfl (fun x hx => h.headers x (hheaders.subset hx)) hsize s

theorem collect_head (h : Readable maxSize maxMultiPartSize q) (s : QByteArray) :
    (ofLimits maxSize maxMultiPartSize).collect (q.head ++ s) =
        ((afterHeaders maxSize maxMultiPartSize q).nextLine []).collect s ∧
      (afterHeaders maxSize maxMultiPartSize q).Open := by
  have hfits := h.head_fits
  obtain ⟨hlines, hopen⟩ := collect_lines h (List.prefix_refl q.headers) ([] ++ Http.crlf ++ s)
  refine ⟨?_, hopen⟩
  obtain ⟨currentHeader, hlast⟩ := afterHeaders_eq maxSize maxMultiPartSize q
  rw [head_append, hlines]
  refine collect_textLine hopen (.inr ?_) (by rfl) (by simp) ?_ _
  · rw [← afterHeaders, hlast]
  · rw [← afterHeaders, hlast]
    exact hfits

theorem nextLine_empty {r : Reading} (hstatus : r.status = .waitForHeader) :
    r.nextLine [] = r.endOfHeaders.afterRead := by
  have hgoes : r.status ≠ .waitForRequest := by simp [hstatus]
  have hcut : cut 58 [] = none := by decide
  have hline : r.headerLine [] = r.endOfHeaders := by
    unfold headerLine
    rw [hcut]
    simp
  rw [nextLine, if_neg hgoes, hline]

/-! ### The body -/

theorem foldlM_readSizedPart (boundary : QByteArray) (lines : List QByteArray)
    (s : FormData × PartState) (n : Nat) :
    ∃ size, lines.foldlM (readSizedPart boundary) (s, n) =
      (lines.foldlM (readPart boundary) s).map fun parts => (parts, size) := by
  induction lines generalizing s n with
  | nil => exact ⟨n, rfl⟩
  | cons line lines ih =>
    rw [List.foldlM_cons, List.foldlM_cons]
    cases hread : readPart boundary s line with
    | error e =>
      have hsized : readSizedPart boundary (s, n) line = .error e := by
        rw [readSizedPart, hread]
        rfl
      rw [hsized]
      exact ⟨0, rfl⟩
    | ok parts =>
      have hsized : readSizedPart boundary (s, n) line =
          .ok (parts, n + formFieldSize boundary s.2 line) := by
        rw [readSizedPart, hread]
        rfl
      rw [hsized]
      exact ih parts _

theorem parseTempFile_eq {r : Reading} (hparameters : r.parameters = []) (hfiles : r.uploadedFiles = []) :
    r.parseTempFile = (parseMultiPartFile r.boundary r.tempFile).map fun m =>
      { r with
        parameters := m.parameters
        uploadedFiles := m.uploadedFiles
        currentSize := r.currentSize + formFieldsSize r.boundary r.tempFile } := by
  obtain ⟨size, hsized⟩ := foldlM_readSizedPart r.boundary (readLines 65536 [] r.tempFile)
    (⟨[], []⟩, .header [] []) 0
  unfold parseTempFile parseMultiPartFile formFieldsSize
  rw [hparameters, hfiles, hsized]
  cases (readLines 65536 [] r.tempFile).foldlM (readPart r.boundary) (⟨[], []⟩, .header [] []) with
  | error e => rfl
  | ok parts => rfl

/-- The cookies of the headers, the ones of the last header first. -/
def cookiesOf (headers : List (QByteArray × QByteArray)) : List (QByteArray × QByteArray) :=
  (cookieHeaders headers).foldl
    (fun cookies cookieStr => (HttpCookie.splitCSV cookieStr).foldl insertCookie cookies) []

/-- A request has been read when all of it is there: the message as a whole, with the
cookies taken out of its headers. -/
structure Delivers (r : Reading) (headers : List (QByteArray × QByteArray)) (whole : HttpRequest) :
    Prop where
  status : r.status = .complete
  request : r.request = { whole with headers := Assoc.erase (literal "Cookie") whole.headers }
  cookies : r.cookies = cookiesOf headers

theorem delivers_afterRead (method path body : QByteArray)
    (headers : List (QByteArray × QByteArray)) {r : Reading} {m : FormData}
    (hstatus : r.status = .complete) (hfits : r.currentSize ≤ r.maxSize)
    (hrequest : r.request = ⟨method, path, headers, m.parameters, m.uploadedFiles,
      if boundaryOf (lastValue (literal "Content-Type") headers) = [] then body else []⟩)
    (hcookies : r.cookies = [])
    (hform : (if boundaryOf (lastValue (literal "Content-Type") headers) = [] then .ok ⟨[], []⟩
      else parseMultiPartFile (boundaryOf (lastValue (literal "Content-Type") headers)) body) =
        (.ok m : Except Fault FormData)) :
    ∃ whole, received method path headers body = .ok whole ∧
      r.afterRead.Delivers headers whole := by
  obtain ⟨hmethod, hpath, hheaders, hparameters, hfiles, hbody⟩ := HttpRequest.mk.inj hrequest
  refine ⟨_, by rw [received, hform]; rfl, ?_⟩
  have hafter : r.afterRead = r.decodeParams.extractCookies := by
    rw [afterRead, if_neg (by omega), if_pos hstatus]
  rw [hafter]
  refine ⟨hstatus, ?_, ?_⟩
  · simp only [request, extractCookies, decodeParams, hmethod, hpath, hheaders, hparameters,
      hfiles, hbody]
    rfl
  · simp only [extractCookies, decodeParams, hcookies, hheaders, cookiesOf]

def afterHead (maxSize maxMultiPartSize : Int) (q : Http.Request) (currentHeader : QByteArray)
    (status : RequestStatus) : Reading :=
  { ofLimits maxSize maxMultiPartSize with
    status := status
    method := q.method
    path := q.target
    version := Http.version
    headers := pairs q.headers
    currentHeader := currentHeader
    currentSize := headSize q
    boundary := boundaryOf (lastValue (literal "Content-Type") (pairs q.headers))
    expectedBodySize := q.body.length }

theorem announced_afterHeaders (h : Readable maxSize maxMultiPartSize q) :
    ∃ currentHeader, (afterHeaders maxSize maxMultiPartSize q).announced =
      afterHead maxSize maxMultiPartSize q currentHeader .waitForHeader := by
  obtain ⟨currentHeader, hlast⟩ := afterHeaders_eq maxSize maxMultiPartSize q
  have hexpected : (if lastValue (literal "Content-Length") (pairs q.headers) = [] then (0 : Int)
      else bytesToInt (lastValue (literal "Content-Length") (pairs q.headers))) = q.body.length := by
    rcases h.announced with ⟨hnone, hempty⟩ | ⟨hlength, hlt⟩
    · rw [if_pos hnone, hempty]
      rfl
    · have hread := bytesToInt_integerToStr (n := q.body.length) (by omega) (by omega)
      rw [Bencode.integerToStr, if_neg (by omega), Int.natAbs_natCast] at hread
      rw [if_neg (by rw [hlength]; exact Bencode.decimal_ne_nil _), hlength, hread]
  refine ⟨currentHeader, ?_⟩
  rw [hlast, announced]
  simp only [ofLimits, hexpected, afterHead]

theorem nextLine_afterHeaders (h : Readable maxSize maxMultiPartSize q) :
    ∃ currentHeader, (afterHeaders maxSize maxMultiPartSize q).nextLine [] =
      (afterHead maxSize maxMultiPartSize q currentHeader
        (if q.body = [] then .complete else .waitForBody)).afterRead := by
  obtain ⟨currentHeader, hannounced⟩ := announced_afterHeaders h
  obtain ⟨currentHeader', hlast⟩ := afterHeaders_eq maxSize maxMultiPartSize q
  have hstatus : (afterHeaders maxSize maxMultiPartSize q).status = .waitForHeader := by rw [hlast]
  have hlimit := h.limit
  refine ⟨currentHeader, ?_⟩
  rw [nextLine_empty hstatus, endOfHeaders, hannounced]
  by_cases hbody : q.body = []
  · have hzero : (afterHead maxSize maxMultiPartSize q currentHeader .waitForHeader).expectedBodySize
        = 0 := by
      rw [afterHead, hbody]
      rfl
    rw [if_pos hzero, if_pos hbody]
    rfl
  · have hlen : q.body.length ≠ 0 := mt List.length_eq_zero_iff.mp hbody
    have hsome : (afterHead maxSize maxMultiPartSize q currentHeader .waitForHeader).expectedBodySize
        ≠ 0 := by
      simpa only [afterHead, ne_eq, Int.natCast_eq_zero] using hlen
    have hplain : ¬ ((afterHead maxSize maxMultiPartSize q currentHeader .waitForHeader).boundary = [] ∧
        wrapInt ((afterHead maxSize maxMultiPartSize q currentHeader .waitForHeader).expectedBodySize +
          (afterHead maxSize maxMultiPartSize q currentHeader .waitForHeader).currentSize) >
          (afterHead maxSize maxMultiPartSize q currentHeader .waitForHeader).maxSize) := by
      rintro ⟨hboundary, hlarge⟩
      have hfits := h.body_fits hboundary
      simp only [afterHead, ofLimits, wrapInt] at hlarge
      rw [Int.bmod_eq_of_le (by omega) (by omega)] at hlarge
      omega
    have hfile : ¬ ((afterHead maxSize maxMultiPartSize q currentHeader .waitForHeader).boundary ≠ [] ∧
        (afterHead maxSize maxMultiPartSize q currentHeader .waitForHeader).expectedBodySize >
          (afterHead maxSize maxMultiPartSize q currentHeader .waitForHeader).maxMultiPartSize) := by
      rintro ⟨hboundary, hlarge⟩
      have hfits := (h.file_fits hboundary).1
      simp only [afterHead, ofLimits] at hlarge
      omega
    rw [if_neg hsome, if_neg hplain, if_neg hfile, if_neg hbody]
    rfl

/-- Behind the head of a request with a body, all of the body is due. -/
theorem collect_head_body (h : Readable maxSize maxMultiPartSize q) (hbody : q.body ≠ []) :
    ∃ currentHeader,
      (∀ s, (ofLimits maxSize maxMultiPartSize).collect (q.head ++ s) =
        (afterHead maxSize maxMultiPartSize q currentHeader .waitForBody).collect s) ∧
      (afterHead maxSize maxMultiPartSize q currentHeader .waitForBody).Open ∧
      (afterHead maxSize maxMultiPartSize q currentHeader .waitForBody).due = q.body.length := by
  have hfits := h.head_fits
  obtain ⟨currentHeader, hnext⟩ := nextLine_afterHeaders h
  obtain ⟨-, hopen⟩ := collect_head h []
  obtain ⟨currentHeader', hlast⟩ := afterHeaders_eq maxSize maxMultiPartSize q
  have hline : (afterHeaders maxSize maxMultiPartSize q).lineState := .inr (by rw [hlast])
  have hafter : (afterHead maxSize maxMultiPartSize q currentHeader .waitForBody).afterRead =
      afterHead maxSize maxMultiPartSize q currentHeader .waitForBody := by
    rw [afterRead, if_neg, if_neg]
    · simp [afterHead]
    · simp only [afterHead, ofLimits]
      omega
  rw [if_neg hbody, hafter] at hnext
  refine ⟨currentHeader, fun s => ?_, ?_, ?_⟩
  · rw [(collect_head h s).1, hnext]
  · rw [← hnext]
    exact open_nextLine hopen.toSound hline []
  · unfold due kept
    split_ifs <;> simp [afterHead, ofLimits]

theorem collect_body_rest (h : Readable maxSize maxMultiPartSize q) (hbody : q.body ≠ [])
    (rest : QByteArray) :
    ∃ currentHeader, (ofLimits maxSize maxMultiPartSize).collect (q.text ++ rest) =
      ((afterHead maxSize maxMultiPartSize q currentHeader .waitForBody).append q.body).checkBody >>=
        fun next => .ok (next.afterRead, rest) := by
  obtain ⟨currentHeader, hhead, hopen, hdue⟩ := collect_head_body h hbody
  refine ⟨currentHeader, ?_⟩
  rw [Http.Request.text, List.append_assoc, hhead, collect_body hopen rfl (by simp [hbody]), hdue,
    List.take_left, List.drop_left]

theorem checkBody_plain {r : Reading} (hplain : r.boundary = [])
    (hall : r.expectedBodySize ≤ r.bodyData.length) :
    r.checkBody = .ok { r with status := .complete } := by
  rw [checkBody, if_pos hplain, if_pos hall]

theorem checkBody_file {r : Reading} (hfile : r.boundary ≠ [])
    (hfits : (r.tempFile.length : Int) < r.maxMultiPartSize)
    (hall : r.expectedBodySize ≤ r.tempFile.length) (hparameters : r.parameters = [])
    (hfiles : r.uploadedFiles = []) :
    r.checkBody = (parseMultiPartFile r.boundary r.tempFile).map fun m =>
      { r with
        status := .complete
        parameters := m.parameters
        uploadedFiles := m.uploadedFiles
        currentSize := r.currentSize + formFieldsSize r.boundary r.tempFile } := by
  rw [checkBody, if_neg hfile, if_neg (by omega), if_pos hall, parseTempFile_eq hparameters hfiles]
  cases parseMultiPartFile r.boundary r.tempFile with
  | error e => rfl
  | ok m => rfl

/-- The request is read to its last byte, and the controllers get what `received` makes of
the whole message. -/
structure ReadsWhole (maxSize maxMultiPartSize : Int) (q : Http.Request) (rest : QByteArray) : Prop where
  fault : ∀ fault, received q.method q.target (pairs q.headers) q.body = .error fault →
    (ofLimits maxSize maxMultiPartSize).collect (q.text ++ rest) = .error fault
  delivers : ∀ whole, received q.method q.target (pairs q.headers) q.body = .ok whole →
    ∃ r, (ofLimits maxSize maxMultiPartSize).collect (q.text ++ rest) = .ok (r, rest) ∧
      r.Delivers (pairs q.headers) whole

theorem readsWhole_of_ok {rest : QByteArray} {r : Reading} {whole : HttpRequest}
    (hcollect : (ofLimits maxSize maxMultiPartSize).collect (q.text ++ rest) = .ok (r, rest))
    (hwhole : received q.method q.target (pairs q.headers) q.body = .ok whole)
    (hdelivers : r.Delivers (pairs q.headers) whole) :
    ReadsWhole maxSize maxMultiPartSize q rest where
  fault fault h := by cases hwhole.symm.trans h
  delivers whole' h := by
    obtain rfl : whole = whole' := Except.ok.inj (hwhole.symm.trans h)
    exact ⟨r, hcollect, hdelivers⟩

theorem collect_no_body (h : Readable maxSize maxMultiPartSize q) (hbody : q.body = [])
    (rest : QByteArray) :
    ReadsWhole maxSize maxMultiPartSize q rest := by
  have hfits := h.head_fits
  obtain ⟨currentHeader, hnext⟩ := nextLine_afterHeaders h
  obtain ⟨hcollect, -⟩ := collect_head h rest
  rw [hnext, if_pos hbody] at hcollect
  have hrequest : (afterHead maxSize maxMultiPartSize q currentHeader .complete).request =
      ⟨q.method, q.target, pairs q.headers, [], [],
        if boundaryOf (lastValue (literal "Content-Type") (pairs q.headers)) = [] then q.body
        else []⟩ := by
    simp [request, afterHead, ofLimits, hbody]
  have hform : (if boundaryOf (lastValue (literal "Content-Type") (pairs q.headers)) = [] then
      .ok ⟨[], []⟩ else parseMultiPartFile (boundaryOf (lastValue (literal "Content-Type")
        (pairs q.headers))) q.body) = (.ok ⟨[], []⟩ : Except Fault FormData) := by
    rw [hbody]
    split_ifs <;> rfl
  have hsize : (afterHead maxSize maxMultiPartSize q currentHeader .complete).currentSize ≤
      (afterHead maxSize maxMultiPartSize q currentHeader .complete).maxSize := by
    simp only [afterHead, ofLimits]
    omega
  obtain ⟨whole, hwhole, hdelivers⟩ := delivers_afterRead _ _ _ _ rfl hsize hrequest rfl hform
  refine readsWhole_of_ok ?_ hwhole hdelivers
  rw [Http.Request.text, hbody, List.append_nil, hcollect]
  exact Reader.gather_of_ended (ended_afterRead rfl) rest

theorem collect_plain_body (h : Readable maxSize maxMultiPartSize q) (hbody : q.body ≠ [])
    (hplain : boundaryOf (lastValue (literal "Content-Type") (pairs q.headers)) = [])
    (rest : QByteArray) :
    ReadsWhole maxSize maxMultiPartSize q rest := by
  have hfits := h.body_fits hplain
  obtain ⟨currentHeader, hcollect⟩ := collect_body_rest h hbody rest
  rw [append_eq_plain hplain, checkBody_plain hplain (by simp [afterHead])] at hcollect
  obtain ⟨whole, hwhole, hdelivers⟩ := delivers_afterRead q.method q.target q.body
    (pairs q.headers) (m := ⟨[], []⟩)
    (r := { afterHead maxSize maxMultiPartSize q currentHeader .complete with
      currentSize := (headSize q : Int) + q.body.length
      bodyData := q.body })
    rfl (by exact hfits) (by rw [if_pos hplain]; rfl) rfl (by rw [if_pos hplain])
  exact readsWhole_of_ok hcollect hwhole hdelivers

theorem collect_file_body (h : Readable maxSize maxMultiPartSize q) (hbody : q.body ≠ [])
    (hfile : boundaryOf (lastValue (literal "Content-Type") (pairs q.headers)) ≠ [])
    (rest : QByteArray) :
    ReadsWhole maxSize maxMultiPartSize q rest := by
  obtain ⟨hsmall, hfits⟩ := h.file_fits hfile
  obtain ⟨currentHeader, hcollect⟩ := collect_body_rest h hbody rest
  have hcheck : ((afterHead maxSize maxMultiPartSize q currentHeader .waitForBody).append
      q.body).checkBody = (parseMultiPartFile (boundaryOf (lastValue (literal "Content-Type")
        (pairs q.headers))) q.body).map fun m =>
        { afterHead maxSize maxMultiPartSize q currentHeader .complete with
          tempFile := q.body
          parameters := m.parameters
          uploadedFiles := m.uploadedFiles
          currentSize := (headSize q : Int) + formFieldsSize (boundaryOf (lastValue
            (literal "Content-Type") (pairs q.headers))) q.body } := by
    rw [append_eq_file hfile, checkBody_file hfile hsmall (le_refl _) rfl rfl]
    rfl
  rw [hcheck] at hcollect
  cases hform : parseMultiPartFile (boundaryOf (lastValue (literal "Content-Type")
      (pairs q.headers))) q.body with
  | error e =>
    have hfault : received q.method q.target (pairs q.headers) q.body = .error e := by
      rw [received, if_neg hfile, if_neg hfile, hform]
      rfl
    rw [hform] at hcollect
    refine ⟨fun fault h' => ?_, fun whole h' => ?_⟩
    · cases hfault.symm.trans h'
      exact hcollect
    · cases hfault.symm.trans h'
  | ok m =>
    rw [hform] at hcollect
    obtain ⟨whole, hwhole, hdelivers⟩ := delivers_afterRead q.method q.target q.body
      (pairs q.headers) (m := m)
      (r := { afterHead maxSize maxMultiPartSize q currentHeader .complete with
        tempFile := q.body
        parameters := m.parameters
        uploadedFiles := m.uploadedFiles
        currentSize := (headSize q : Int) + formFieldsSize (boundaryOf (lastValue
          (literal "Content-Type") (pairs q.headers))) q.body })
      rfl (by exact hfits) (by rw [if_neg hfile]; rfl) rfl (by rw [if_neg hfile, hform])
    exact readsWhole_of_ok hcollect hwhole hdelivers

theorem Readable.readsWhole (h : Readable maxSize maxMultiPartSize q) (rest : QByteArray) :
    ReadsWhole maxSize maxMultiPartSize q rest := by
  by_cases hbody : q.body = []
  · exact collect_no_body h hbody rest
  by_cases hplain : boundaryOf (lastValue (literal "Content-Type") (pairs q.headers)) = []
  · exact collect_plain_body h hbody hplain rest
  · exact collect_file_body h hbody hplain rest

section sample

def searchRequest : Http.Request where
  method := literal "POST"
  target := literal "/torrent/api"
  headers := [⟨literal "Content-Length", literal "3"⟩,
    ⟨literal "Content-Type", literal "application/x-www-form-urlencoded"⟩]
  body := literal "a=1"

theorem readable_searchRequest : Readable 16000 1000000 searchRequest where
  limit := by decide
  method_ne_nil := by decide
  method := List.forall_iff_forall_mem.mp (by decide)
  target := List.forall_iff_forall_mem.mp (by decide)
  headers := by
    intro h hh
    simp only [searchRequest, List.mem_cons, List.not_mem_nil, or_false] at hh
    obtain rfl | rfl := hh
    · exact ⟨by decide, by decide, by decide, by decide⟩
    · exact ⟨by decide, by decide, by decide, by decide⟩
  announced := .inr (by decide)
  head_fits := by decide
  body_fits := fun _ => by decide
  file_fits := fun hfile => absurd (by decide) hfile

end sample

end Reading
end HttpRequest
end CuteTorrent
