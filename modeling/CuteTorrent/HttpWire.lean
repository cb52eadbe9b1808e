import CuteTorrent.HttpCookie
import CuteTorrent.Library.HttpMessage

/-! `HttpResponse` on its socket: the head that goes out with the first part of the body,
and how the parts are marked off, against what a client reads. -/
namespace CuteTorrent

inductive ResponseCall where
  | setStatus (statusCode : Nat) (description : QByteArray)
  | setHeader (name value : QByteArray)
  | setCookie (cookie : HttpCookie)
  | write (data : QByteArray) (lastPart : Bool)

/-- The members of a response, and the bytes its socket has been given. -/
structure SocketResponse where
  statusCode : Nat
  statusText : QByteArray
  headers : List (QByteArray × QByteArray)
  cookies : List (QByteArray × HttpCookie)
  sentHeaders : Bool
  sentLastPart : Bool
  written : QByteArray
  disconnecting : Bool

namespace SocketResponse

def initial : SocketResponse := ⟨200, literal "OK", [], [], false, false, [], false⟩

def header (headers : List (QByteArray × QByteArray)) (name : String) : QByteArray :=
  (Assoc.find (literal name) headers).getD []

def writeToSocket (r : SocketResponse) (data : QByteArray) : SocketResponse :=
  { r with written := r.written ++ data }

def statusLine (statusCode : Nat) (statusText : QByteArray) : QByteArray :=
  literal "HTTP/1.1 " ++ Bencode.decimal statusCode ++ 32 :: statusText

def writeHeaders (r : SocketResponse) : SocketResponse :=
  { r.writeToSocket (statusLine r.statusCode r.statusText ++ literal "\r\n" ++
      (r.headers.flatMap fun h => h.1 ++ literal ": " ++ h.2 ++ literal "\r\n") ++
      (r.cookies.flatMap fun c => literal "Set-Cookie: " ++ c.2.toByteArray ++ literal "\r\n") ++
      literal "\r\n") with
    sentHeaders := true }

/-- The controller wants the connection to end with the response. -/
def closes (headers : List (QByteArray × QByteArray)) : Bool :=
  equalsLiteral (header headers "Connection") "close" ||
    equalsLiteral (header headers "Connection") "Close"

/-- How the end of the body will be known, where the controller has not said it. -/
def frame (headers : List (QByteArray × QByteArray)) (data : QByteArray) (lastPart : Bool) :
    List (QByteArray × QByteArray) :=
  if !Assoc.contains (literal "Content-Length") headers &&
      !Assoc.contains (literal "Transfer-Encoding") headers && !closes headers then
    if !lastPart then Assoc.insert (literal "Transfer-Encoding") (literal "chunked") headers
    else Assoc.insert (literal "Content-Length") (Bencode.decimal data.length) headers
  else headers

def chunked (headers : List (QByteArray × QByteArray)) : Bool :=
  equalsLiteral (header headers "Transfer-Encoding") "chunked" ||
    equalsLiteral (header headers "Transfer-Encoding") "Chunked"

/-- A part of the body; one of no bytes would end the chunks. -/
def writePart (r : SocketResponse) (data : QByteArray) : SocketResponse :=
  if chunked r.headers then
    if data.length > 0 then
      ((r.writeToSocket (Http.hexText data.length ++ literal "\r\n")).writeToSocket
        data).writeToSocket (literal "\r\n")
    else r
  else r.writeToSocket data

def writeEnd (r : SocketResponse) : SocketResponse :=
  let r :=
    if chunked r.headers then r.writeToSocket (literal "0\r\n\r\n")
    else if !Assoc.contains (literal "Content-Length") r.headers then { r with disconnecting := true }
    else r
  { r with sentLastPart := true }

def write (r : SocketResponse) (data : QByteArray) (lastPart : Bool) : SocketResponse :=
  let r := if r.sentHeaders then r
    else { r with headers := frame r.headers data lastPart }.writeHeaders
  let r := r.writePart data
  if lastPart then r.writeEnd else r

def apply (r : SocketResponse) : ResponseCall → SocketResponse
  | .setStatus statusCode description =>
    { r with statusCode := statusCode, statusText := description }
  | .setHeader name value => { r with headers := Assoc.insert name value r.headers }
  | .setCookie cookie =>
    if cookie.name ≠ [] then { r with cookies := Assoc.insert cookie.name cookie r.cookies } else r
  | .write data lastPart => r.write data lastPart

/-- The calls of a controller, and the last part where it has not sent it. -/
def respond (calls : List ResponseCall) : SocketResponse :=
  let r := calls.foldl apply initial
  if !r.sentLastPart then r.write [] true else r

end SocketResponse

namespace HttpResponse

def apply (r : HttpResponse) : ResponseCall → HttpResponse
  | .setStatus statusCode description =>
    { r with statusCode := statusCode, statusText := description }
  | .setHeader name value => { r with headers := Assoc.insert name value r.headers }
  | .setCookie _ => r
  | .write data _ => r.write data

def ofCalls (calls : List ResponseCall) : HttpResponse := calls.foldl apply initial

end HttpResponse

namespace SocketResponse

/-! ### What a client reads -/

def Framing (name : QByteArray) : Prop :=
  name = literal "Content-Length" ∨ name = literal "Transfer-Encoding"

/-- Calls in the order the assertions ask for: headers before the first part, nothing
behind the last, and texts that can be sent. -/
def Orderly : Bool → List ResponseCall → Prop
  | _, [] => True
  | sent, .setStatus _ description :: calls => 13 ∉ description ∧ Orderly sent calls
  | sent, .setHeader name value :: calls =>
    sent = false ∧ Http.Header.Sendable ⟨name, value⟩ ∧ ¬ Framing name ∧ Orderly sent calls
  | sent, .setCookie cookie :: calls =>
    sent = false ∧ Http.Header.Sendable ⟨literal "Set-Cookie", cookie.toByteArray⟩ ∧
      Orderly sent calls
  | _, .write _ lastPart :: calls => if lastPart then calls = [] else Orderly true calls

def wireHeaders (headers : List (QByteArray × QByteArray)) (cookies : List (QByteArray × HttpCookie)) :
    List Http.Header :=
  headers.map (fun h => ⟨h.1, h.2⟩) ++
    cookies.map fun c => ⟨literal "Set-Cookie", c.2.toByteArray⟩

theorem written_writeHeaders (r : SocketResponse) :
    r.writeHeaders.written = r.written ++
      Http.responseHead (statusLine r.statusCode r.statusText) (wireHeaders r.headers r.cookies) := by
  have hcrlf : literal "\r\n" = Http.crlf := by decide
  have hcolon : literal ": " = [58, 32] := by decide
  have hcookie : literal "Set-Cookie: " = literal "Set-Cookie" ++ [58, 32] := by decide
  unfold writeHeaders writeToSocket Http.responseHead wireHeaders
  rw [hcrlf, hcolon, hcookie]
  simp [List.flatMap_append, List.flatMap_map, Http.Header.line]

theorem find_wireHeaders {name : QByteArray} (hname : name ≠ literal "Set-Cookie")
    (headers : List (QByteArray × QByteArray)) (cookies : List (QByteArray × HttpCookie)) :
    Http.find name (wireHeaders headers cookies) = Assoc.find name headers := by
  induction headers with
  | nil =>
    have hnone : ∀ c ∈ cookies.map fun c => (⟨literal "Set-Cookie", c.2.toByteArray⟩ : Http.Header),
        ¬ decide (c.name = name) = true := by
      intro c hc
      obtain ⟨cookie, -, rfl⟩ := List.mem_map.mp hc
      simpa using Ne.symm hname
    rw [wireHeaders, List.map_nil, List.nil_append, Http.find, List.find?_eq_none.mpr hnone]
    rfl
  | cons p headers ih =>
    rw [Http.find, wireHeaders] at ih
    rw [Http.find, wireHeaders, List.map_cons, List.cons_append, List.find?_cons, Assoc.find_cons]
    by_cases hp : p.1 = name
    · simp [hp]
    · simpa [hp] using ih

theorem find_eq_none_of {name : QByteArray} {headers : List (QByteArray × QByteArray)}
    (h : ∀ p ∈ headers, p.1 ≠ name) : Assoc.find name headers = none := by
  rw [Assoc.find_eq_none]
  intro hmem
  obtain ⟨p, hp, rfl⟩ := List.mem_map.mp hmem
  exact h p hp rfl

inductive Mode where
  | chunks
  | length (n : Nat)
  | close

/-- The headers tell the client the mode, and the response goes by it. -/
def Marks (headers : List (QByteArray × QByteArray)) : Mode → Prop
  | .chunks => chunked headers = true ∧
    Assoc.find (literal "Transfer-Encoding") headers = some Http.chunked
  | .length n => chunked headers = false ∧ Assoc.find (literal "Transfer-Encoding") headers = none ∧
    Assoc.find (literal "Content-Length") headers = some (Http.decimalText n)
  | .close => chunked headers = false ∧ Assoc.find (literal "Transfer-Encoding") headers = none ∧
    Assoc.find (literal "Content-Length") headers = none

theorem chunked_eq_false {headers : List (QByteArray × QByteArray)}
    (h : Assoc.find (literal "Transfer-Encoding") headers = none) : chunked headers = false := by
  rw [chunked, header, h]
  decide

theorem marks_frame {headers : List (QByteArray × QByteArray)} (h : ∀ p ∈ headers, ¬ Framing p.1)
    (data : QByteArray) (lastPart : Bool) :
    ∃ mode, Marks (frame headers data lastPart) mode ∧
      (∀ n, mode = .length n → lastPart = true ∧ n = data.length) ∧
      (mode = .close → closes headers = true) ∧
      ∀ name, ¬ Framing name →
        Assoc.find name (frame headers data lastPart) = Assoc.find name headers := by
  have hnoLength : Assoc.find (literal "Content-Length") headers = none :=
    find_eq_none_of fun p hp he => h p hp (.inl he)
  have hnoEncoding : Assoc.find (literal "Transfer-Encoding") headers = none :=
    find_eq_none_of fun p hp he => h p hp (.inr he)
  have hne : literal "Transfer-Encoding" ≠ literal "Content-Length" := by decide
  unfold frame
  rw [Assoc.contains, Assoc.contains, hnoLength, hnoEncoding]
  split_ifs with hopen hlast
  · refine ⟨.chunks, ⟨?_, ?_⟩, fun n he => (by cases he), fun he => (by cases he),
      fun name hname => ?_⟩
    · rw [chunked, header, Assoc.find_insert_self]
      decide
    · rw [Assoc.find_insert_self]
      rfl
    · exact Assoc.find_insert_of_ne (fun he => hname (.inr he)) _ _
  · have hencoding' : Assoc.find (literal "Transfer-Encoding") (Assoc.insert (literal "Content-Length")
        (Bencode.decimal data.length) headers) = none := by
      rw [Assoc.find_insert_of_ne hne, hnoEncoding]
    refine ⟨.length data.length, ⟨chunked_eq_false hencoding', hencoding', ?_⟩, ?_,
      fun he => (by cases he), ?_⟩
    · rw [Assoc.find_insert_self]
      rfl
    · intro n he
      cases he
      exact ⟨by simpa using hlast, rfl⟩
    · exact fun name hname => Assoc.find_insert_of_ne (fun he => hname (.inl he)) _ _
  · exact ⟨.close, ⟨chunked_eq_false hnoEncoding, hnoEncoding, hnoLength⟩, fun n he => (by cases he),
      fun _ => by simpa using hopen, fun name _ => rfl⟩

/-- What stands behind the head, with so much of the body sent. -/
def BodyText (body text : QByteArray) : Mode → Prop
  | .chunks => ∃ parts : List QByteArray, (∀ p ∈ parts, p ≠ []) ∧ text = parts.flatMap Http.chunk ∧
    parts.flatten = body
  | _ => text = body

structure Opened (mode : Mode) (status : Nat × QByteArray) (headers : List (QByteArray × QByteArray))
    (body : QByteArray) (r : SocketResponse) : Prop where
  sent : r.sentHeaders = true
  marks : Marks r.headers mode
  text : ∃ text, r.written = Http.responseHead (statusLine status.1 status.2)
    (wireHeaders r.headers r.cookies) ++ text ∧ BodyText body text mode
  description : 13 ∉ status.2
  sendable : ∀ x ∈ wireHeaders r.headers r.cookies, x.Sendable
  connected : r.disconnecting = false
  closing : mode = .close → closes headers = true
  others : ∀ name, ¬ Framing name → Assoc.find name r.headers = Assoc.find name headers

theorem Opened.writePart {mode : Mode} {status : Nat × QByteArray}
    {headers : List (QByteArray × QByteArray)} {body : QByteArray} {r : SocketResponse}
    (h : Opened mode status headers body r) (data : QByteArray) :
    Opened mode status headers (body ++ data) (r.writePart data) := by
  obtain ⟨text, hwritten, htext⟩ := h.text
  have hcrlf : literal "\r\n" = Http.crlf := by decide
  have hmarks := h.marks
  have hraw : ∀ text', BodyText (body ++ data) (text ++ text') mode →
      Opened mode status headers (body ++ data) (r.writeToSocket text') := fun text' htext' =>
    ⟨h.sent, h.marks, ⟨text ++ text', by rw [writeToSocket, hwritten, List.append_assoc], htext'⟩,
      h.description, h.sendable, h.connected, h.closing, h.others⟩
  cases mode with
  | chunks =>
    obtain ⟨parts, hparts, rfl, rfl⟩ := htext
    unfold SocketResponse.writePart
    rw [if_pos hmarks.1]
    by_cases hdata : data = []
    · subst hdata
      rw [if_neg (by simp), List.append_nil]
      exact h
    · have hpos : data.length > 0 := List.length_pos_iff.mpr hdata
      have hchunk := hraw (Http.chunk data) ⟨parts ++ [data], by
        intro p hp
        rcases List.mem_append.mp hp with hp | hp
        · exact hparts p hp
        · exact List.mem_singleton.mp hp ▸ hdata, by simp, by simp⟩
      rw [if_pos hpos]
      have hbytes : ((r.writeToSocket (Http.hexText data.length ++ literal "\r\n")).writeToSocket
          data).writeToSocket (literal "\r\n") = r.writeToSocket (Http.chunk data) := by
        simp [writeToSocket, Http.chunk, hcrlf]
      rw [hbytes]
      exact hchunk
  | length n =>
    unfold SocketResponse.writePart
    rw [if_neg (by simp [hmarks.1])]
    exact hraw data (congrArg (· ++ data) htext)
  | close =>
    unfold SocketResponse.writePart
    rw [if_neg (by simp [hmarks.1])]
    exact hraw data (congrArg (· ++ data) htext)

/-- A client finds the response at the front of the stream: the status, the headers with
those of the framing, and the body. A response that closes the connection goes up to the
end of it. -/
structure Received (status : Nat × QByteArray) (headers : List (QByteArray × QByteArray))
    (body : QByteArray) (r : SocketResponse) : Prop where
  response : ∃ received : List Http.Header,
    (∀ rest, r.disconnecting = false ∨ rest = [] → Http.readResponse (r.written ++ rest) =
      some (⟨statusLine status.1 status.2, received, body⟩, rest)) ∧
    ∀ name, ¬ Framing name → name ≠ literal "Set-Cookie" →
      Http.find name received = Assoc.find name headers
  keeps : closes headers = false → r.disconnecting = false

theorem not_mem_statusLine {status : Nat × QByteArray} (h : 13 ∉ status.2) :
    13 ∉ statusLine status.1 status.2 := by
  have hdecimal : 13 ∉ Bencode.decimal status.1 := fun hm =>
    absurd (Bencode.decimal_isDigit _ 13 hm) (by decide)
  have hversion : 13 ∉ literal "HTTP/1.1 " := by decide
  simp [statusLine, hdecimal, hversion, h]

theorem Opened.writeEnd {mode : Mode} {status : Nat × QByteArray}
    {headers : List (QByteArray × QByteArray)} {body : QByteArray} {r : SocketResponse}
    (h : Opened mode status headers body r) (hlength : ∀ n, mode = .length n → n = body.length) :
    Received status headers body r.writeEnd := by
  obtain ⟨text, hwritten, htext⟩ := h.text
  have hmarks := h.marks
  have hencodingName : Http.transferEncoding = literal "Transfer-Encoding" := by decide
  have hlengthName : Http.contentLength = literal "Content-Length" := by decide
  have hlast : literal "0\r\n\r\n" = Http.lastChunk := by decide
  have hencoding : Http.find Http.transferEncoding (wireHeaders r.headers r.cookies) =
      Assoc.find (literal "Transfer-Encoding") r.headers := by
    rw [hencodingName]
    exact find_wireHeaders (by decide) _ _
  have hcontent : Http.find Http.contentLength (wireHeaders r.headers r.cookies) =
      Assoc.find (literal "Content-Length") r.headers := by
    rw [hlengthName]
    exact find_wireHeaders (by decide) _ _
  have hhead := Http.readResponse_head (not_mem_statusLine h.description) h.sendable
  refine ⟨⟨wireHeaders r.headers r.cookies, ?_, fun name hname hcookie => ?_⟩, fun hkeeps => ?_⟩
  · intro rest hrest
    cases mode with
    | chunks =>
      obtain ⟨parts, hparts, rfl, rfl⟩ := htext
      have hend : r.writeEnd.written = r.written ++ Http.lastChunk := by
        unfold SocketResponse.writeEnd
        rw [if_pos hmarks.1, hlast]
        rfl
      have hbody := Http.readBody_chunks (hencoding.trans hmarks.2) hparts rest
      rw [hend, hwritten, List.append_assoc, List.append_assoc, hhead, ← List.append_assoc, hbody]
      rfl
    | length n =>
      obtain rfl : n = body.length := hlength n rfl
      obtain rfl : text = body := htext
      have hend : r.writeEnd.written = r.written := by
        unfold SocketResponse.writeEnd
        rw [if_neg (by simp [hmarks.1])]
        split_ifs <;> rfl
      have hbody := Http.readBody_length (hencoding.trans hmarks.2.1) (hcontent.trans hmarks.2.2) rest
      rw [hend, hwritten, List.append_assoc, hhead, hbody]
      rfl
    | close =>
      obtain rfl : text = body := htext
      have hend : r.writeEnd.written = r.written ∧ r.writeEnd.disconnecting = true := by
        unfold SocketResponse.writeEnd
        rw [if_neg (by simp [hmarks.1]), if_pos (by simp [Assoc.contains, hmarks.2.2])]
        exact ⟨rfl, rfl⟩
      obtain rfl : rest = [] := hrest.resolve_left (by simp [hend.2])
      have hbody := Http.readBody_close (hencoding.trans hmarks.2.1) (hcontent.trans hmarks.2.2) text
      rw [hend.1, hwritten, List.append_nil, hhead, hbody]
      rfl
  · exact (find_wireHeaders hcookie _ _).trans (h.others name hname)
  · cases mode with
    | chunks =>
      unfold SocketResponse.writeEnd
      rw [if_pos hmarks.1]
      exact h.connected
    | length n =>
      unfold SocketResponse.writeEnd
      rw [if_neg (by simp [hmarks.1]), if_neg (by simp [Assoc.contains, hmarks.2.2])]
      exact h.connected
    | close =>
      rw [h.closing rfl] at hkeeps
      cases hkeeps

structure Fresh (a : HttpResponse) (r : SocketResponse) : Prop where
  sent : r.sentHeaders = false
  last : r.sentLastPart = false
  written : r.written = []
  connected : r.disconnecting = false
  unsent : a.sent = none
  body : a.body = []
  status : r.statusCode = a.statusCode ∧ r.statusText = a.statusText
  headers : r.headers = a.headers
  description : 13 ∉ a.statusText
  sendable : ∀ p ∈ a.headers, Http.Header.Sendable ⟨p.1, p.2⟩ ∧ ¬ Framing p.1
  cookies : ∀ c ∈ r.cookies, Http.Header.Sendable ⟨literal "Set-Cookie", c.2.toByteArray⟩

theorem sendable_framing {n : Nat} :
    Http.Header.Sendable ⟨literal "Transfer-Encoding", literal "chunked"⟩ ∧
      Http.Header.Sendable ⟨literal "Content-Length", Bencode.decimal n⟩ := by
  have hname : literal "Content-Length" ≠ [] ∧ 58 ∉ literal "Content-Length" ∧
      13 ∉ literal "Content-Length" := by decide
  refine ⟨⟨by decide, by decide, by decide, by decide, by decide⟩,
    ⟨hname.1, hname.2.1, hname.2.2, fun hm => ?_, ?_⟩⟩
  · exact absurd (Bencode.decimal_isDigit _ 13 hm) (by decide)
  · have hblank : ∀ b ∈ Bencode.decimal n, Http.isBlank b = false := by
      intro b hb
      have hdigit := Bencode.decimal_isDigit n b hb
      simp only [Bencode.isDigit, Bool.and_eq_true, decide_eq_true_eq] at hdigit
      have h32 : b ≠ 32 := by
        rintro rfl
        exact absurd hdigit.1 (by decide)
      have h9 : b ≠ 9 := by
        rintro rfl
        exact absurd hdigit.1 (by decide)
      simp [Http.isBlank, h32, h9]
    have hdrop : ∀ s : QByteArray, (∀ b ∈ s, Http.isBlank b = false) →
        s.dropWhile Http.isBlank = s := by
      intro s hs
      cases s with
      | nil => rfl
      | cons b s => rw [List.dropWhile_cons, if_neg (by simp [hs b])]
    rw [Http.trim, hdrop _ hblank, hdrop _ fun b hb => hblank b (List.mem_reverse.mp hb),
      List.reverse_reverse]

theorem sendable_frame {headers : List (QByteArray × QByteArray)}
    (h : ∀ p ∈ headers, Http.Header.Sendable ⟨p.1, p.2⟩) (data : QByteArray) (lastPart : Bool) :
    ∀ p ∈ frame headers data lastPart, Http.Header.Sendable ⟨p.1, p.2⟩ := by
  unfold frame
  split_ifs
  · intro p hp
    rcases Assoc.mem_insert hp with rfl | hp
    · exact (sendable_framing (n := 0)).1
    · exact h p hp
  · intro p hp
    rcases Assoc.mem_insert hp with rfl | hp
    · exact sendable_framing.2
    · exact h p hp
  · exact h

theorem Fresh.open {a : HttpResponse} {r : SocketResponse} (h : Fresh a r) (data : QByteArray)
    (lastPart : Bool) :
    ∃ mode, Opened mode (a.statusCode, a.statusText) a.headers []
        { r with headers := frame r.headers data lastPart }.writeHeaders ∧
      ∀ n, mode = .length n → lastPart = true ∧ n = data.length := by
  obtain ⟨mode, hmarks, hlength, hclosing, hothers⟩ :=
    marks_frame (fun p hp => (h.sendable p hp).2) data lastPart
  have hsendable := sendable_frame (fun p hp => (h.sendable p hp).1) data lastPart
  refine ⟨mode, ⟨rfl, ?_, ⟨[], ?_, ?_⟩, h.description, ?_, h.connected, hclosing, ?_⟩,
    hlength⟩
  · rw [h.headers]
    exact hmarks
  · rw [written_writeHeaders, h.written, List.append_nil, List.nil_append, h.status.1, h.status.2]
    rfl
  · cases mode with
    | chunks => exact ⟨[], by simp, rfl, rfl⟩
    | length n => rfl
    | close => rfl
  · intro x hx
    rcases List.mem_append.mp hx with hx | hx
    · obtain ⟨p, hp, rfl⟩ := List.mem_map.mp hx
      rw [h.headers] at hp
      exact hsendable p hp
    · obtain ⟨c, hc, rfl⟩ := List.mem_map.mp hx
      exact h.cookies c hc
  · intro name hname
    rw [h.headers]
    exact hothers name hname

def Mirrors (sent : Bool) (a : HttpResponse) (r : SocketResponse) : Prop :=
  if sent then r.sentLastPart = false ∧ ∃ mode status, a.sent = some status ∧
    Opened mode status a.headers a.body r ∧ ∀ n, mode ≠ .length n
  else Fresh a r

def Finished (a : HttpResponse) (r : SocketResponse) : Prop :=
  r.sentLastPart = true ∧
    Received (a.sent.getD (a.statusCode, a.statusText)) a.headers a.body r

theorem writePart_sentLastPart (r : SocketResponse) (data : QByteArray) :
    (r.writePart data).sentLastPart = r.sentLastPart := by
  unfold writePart
  split_ifs <;> rfl

theorem mirrors_write {sent : Bool} {a : HttpResponse} {r : SocketResponse} (h : Mirrors sent a r)
    (data : QByteArray) :
    Mirrors true (a.write data) (r.write data false) ∧ Finished (a.write data) (r.write data true) := by
  cases sent with
  | false =>
    have hfresh : Fresh a r := h
    have hstatus : (a.write data).sent = some (a.statusCode, a.statusText) := by
      rw [HttpResponse.write, hfresh.unsent]
      rfl
    have hbody : (a.write data).body = [] ++ data := by
      rw [HttpResponse.write, hfresh.body]
    have hwrite : ∀ lastPart, r.write data lastPart =
        if lastPart then ({ r with headers := frame r.headers data lastPart }.writeHeaders.writePart
          data).writeEnd
        else { r with headers := frame r.headers data lastPart }.writeHeaders.writePart data := by
      intro lastPart
      have hunsent : ¬ r.sentHeaders = true := by simp [hfresh.sent]
      unfold write
      rw [if_neg hunsent]
    constructor
    · obtain ⟨mode, hopened, hlength⟩ := hfresh.open data false
      rw [Mirrors, if_pos rfl, hwrite, if_neg Bool.false_ne_true]
      refine ⟨?_, mode, _, hstatus, ?_, fun n he => Bool.false_ne_true (hlength n he).1⟩
      · rw [writePart_sentLastPart]
        exact hfresh.last
      · rw [hbody]
        exact hopened.writePart data
    · obtain ⟨mode, hopened, hlength⟩ := hfresh.open data true
      rw [hwrite, if_pos rfl]
      refine ⟨rfl, ?_⟩
      rw [hstatus, hbody]
      exact (hopened.writePart data).writeEnd fun n he => (hlength n he).2
  | true =>
    obtain ⟨hlast, mode, status, hsent, hopened, hmode⟩ := h
    have hstatus : (a.write data).sent = some status := by
      rw [HttpResponse.write, hsent]
      rfl
    have hwrite : ∀ lastPart, r.write data lastPart =
        if lastPart then (r.writePart data).writeEnd else r.writePart data := by
      intro lastPart
      unfold write
      rw [if_pos hopened.sent]
    have hpart := hopened.writePart data
    constructor
    · rw [Mirrors, if_pos rfl, hwrite, if_neg Bool.false_ne_true]
      exact ⟨(writePart_sentLastPart r data).trans hlast, mode, status, hstatus, hpart, hmode⟩
    · rw [hwrite, if_pos rfl]
      refine ⟨rfl, ?_⟩
      rw [hstatus]
      exact hpart.writeEnd fun n he => absurd he (hmode n)

theorem Mirrors.setStatus {sent : Bool} {a : HttpResponse} {r : SocketResponse} (h : Mirrors sent a r)
    {statusCode : Nat} {description : QByteArray} (hdescription : 13 ∉ description) :
    Mirrors sent (a.apply (.setStatus statusCode description))
      (r.apply (.setStatus statusCode description)) := by
  cases sent with
  | false =>
    have hfresh : Fresh a r := h
    exact { hfresh with
      status := ⟨rfl, rfl⟩
      description := hdescription }
  | true =>
    obtain ⟨hlast, mode, status, hsent, hopened, hmode⟩ := h
    exact ⟨hlast, mode, status, hsent, { hopened with }, hmode⟩

theorem Fresh.setHeader {a : HttpResponse} {r : SocketResponse} (h : Fresh a r)
    {name value : QByteArray} (hsendable : Http.Header.Sendable ⟨name, value⟩)
    (hname : ¬ Framing name) :
    Fresh (a.apply (.setHeader name value)) (r.apply (.setHeader name value)) := by
  refine { h with
    headers := congrArg (Assoc.insert name value) h.headers
    sendable := fun p hp => ?_ }
  rcases Assoc.mem_insert hp with rfl | hp
  · exact ⟨hsendable, hname⟩
  · exact h.sendable p hp

theorem Fresh.setCookie {a : HttpResponse} {r : SocketResponse} (h : Fresh a r) {cookie : HttpCookie}
    (hsendable : Http.Header.Sendable ⟨literal "Set-Cookie", cookie.toByteArray⟩) :
    Fresh (a.apply (.setCookie cookie)) (r.apply (.setCookie cookie)) := by
  by_cases hname : cookie.name ≠ []
  · have hr : r.apply (.setCookie cookie) =
        { r with cookies := Assoc.insert cookie.name cookie r.cookies } := if_pos hname
    rw [hr]
    refine { h with cookies := fun c hc => ?_ }
    rcases Assoc.mem_insert hc with rfl | hc
    · exact hsendable
    · exact h.cookies c hc
  · have hr : r.apply (.setCookie cookie) = r := if_neg hname
    rw [hr]
    exact h

/-- Nothing more is written of a response whose last part is out; else an empty last part. -/
def finish (r : SocketResponse) : SocketResponse := if !r.sentLastPart then r.write [] true else r

theorem Mirrors.finish {sent : Bool} {a : HttpResponse} {r : SocketResponse} (h : Mirrors sent a r) :
    Finished a r.finish := by
  have hlast : r.sentLastPart = false := by
    cases sent with
    | false => exact Fresh.last h
    | true => exact h.1
  have hfinished := (mirrors_write h []).2
  have hstatus : (a.write []).sent.getD ((a.write []).statusCode, (a.write []).statusText) =
      a.sent.getD (a.statusCode, a.statusText) := by
    rw [HttpResponse.write]
    rfl
  have hbody : (a.write []).body = a.body := by
    rw [HttpResponse.write]
    exact List.append_nil _
  rw [Finished, hstatus, hbody] at hfinished
  rw [SocketResponse.finish, hlast]
  exact hfinished

theorem finished_of_orderly {sent : Bool} {calls : List ResponseCall} {a : HttpResponse}
    {r : SocketResponse} (horderly : Orderly sent calls) (h : Mirrors sent a r) :
    Finished (calls.foldl HttpResponse.apply a) (calls.foldl apply r).finish := by
  induction calls generalizing sent a r with
  | nil => exact h.finish
  | cons call calls ih =>
    rw [List.foldl_cons, List.foldl_cons]
    cases call with
    | setStatus statusCode description => exact ih horderly.2 (h.setStatus horderly.1)
    | setHeader name value =>
      obtain ⟨rfl, hsendable, hname, hrest⟩ := horderly
      exact ih hrest (Fresh.setHeader h hsendable hname)
    | setCookie cookie =>
      obtain ⟨rfl, hsendable, hrest⟩ := horderly
      exact ih hrest (Fresh.setCookie h hsendable)
    | write data lastPart =>
      cases lastPart with
      | false => exact ih horderly (mirrors_write h data).1
      | true =>
        obtain rfl : calls = [] := horderly
        have hdone := (mirrors_write h data).2
        have hkeep : (r.write data true).finish = r.write data true := by
          rw [SocketResponse.finish, hdone.1]
          rfl
        change Finished (a.write data) (r.write data true).finish
        rw [hkeep]
        exact hdone

theorem fresh_initial : Fresh HttpResponse.initial initial :=
  ⟨rfl, rfl, rfl, rfl, rfl, rfl, ⟨rfl, rfl⟩, rfl, by decide, fun _ hp => absurd hp List.not_mem_nil,
    fun _ hc => absurd hc List.not_mem_nil⟩

theorem received_of_orderly {calls : List ResponseCall} (h : Orderly false calls) :
    Received ((HttpResponse.ofCalls calls).sent.getD
        ((HttpResponse.ofCalls calls).statusCode, (HttpResponse.ofCalls calls).statusText))
      (HttpResponse.ofCalls calls).headers (HttpResponse.ofCalls calls).body (respond calls) :=
  (finished_of_orderly h fresh_initial).2

/-- However a controller cuts its answer into parts, the client reads the status of the
first part, the headers and the whole body, and no byte more. -/
theorem readResponse_respond {calls : List ResponseCall} (h : Orderly false calls) :
    Received ((HttpResponse.ofCalls calls).sent.getD
        ((HttpResponse.ofCalls calls).statusCode, (HttpResponse.ofCalls calls).statusText))
      (HttpResponse.ofCalls calls).headers (HttpResponse.ofCalls calls).body (respond calls) :=
  received_of_orderly h

theorem readResponse_two_parts :
    Received (200, literal "OK") [(literal "Content-Type", literal "text/html")]
      (literal "<h1>CuteTorrent</h1>") (respond
        [.setHeader (literal "Content-Type") (literal "text/html"), .write (literal "<h1>Cute") false,
          .write (literal "Torrent</h1>") true]) := by
  have hframing : ¬ Framing (literal "Content-Type") := by
    rintro (he | he)
    · exact absurd he (by decide)
    · exact absurd he (by decide)
  have horderly : Orderly false [.setHeader (literal "Content-Type") (literal "text/html"),
      .write (literal "<h1>Cute") false, .write (literal "Torrent</h1>") true] :=
    ⟨rfl, ⟨by decide, by decide, by decide, by decide, by decide⟩, hframing, rfl⟩
  exact readResponse_respond horderly

end SocketResponse
end CuteTorrent
