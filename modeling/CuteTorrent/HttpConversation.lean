import CuteTorrent.HttpConnections

/-! A conversation: one request after the other on a connection that stays open, each in
the pieces the network makes of it. -/
namespace CuteTorrent
open QApplicationSettings HttpRequest

namespace HttpRequest
namespace Reading

/-- Where a request may be cut: behind a line, or within the body. -/
def Cut (q : Http.Request) (front : QByteArray) : Prop :=
  front = [] ∨ front.getLast? = some 10 ∨ q.head.length < front.length

instance (q : Http.Request) (front : QByteArray) : Decidable (Cut q front) :=
  inferInstanceAs (Decidable (_ ∨ _ ∨ _))

variable {maxSize maxMultiPartSize : Int} {q : Http.Request}

theorem Readable.lines (h : Readable maxSize maxMultiPartSize q) : ∀ line ∈ q.lines, 10 ∉ line := by
  have hmethod : 10 ∉ q.method := fun hm => absurd (h.method 10 hm) (by decide)
  have htarget : 10 ∉ q.target := fun hm => absurd (h.target 10 hm) (by decide)
  intro line hline
  rw [Http.Request.lines, List.mem_cons, List.mem_append, List.mem_map, List.mem_singleton] at hline
  rcases hline with rfl | ⟨x, hx, rfl⟩ | rfl
  · simp [Http.Request.requestLine, Http.version, hmethod, htarget]
  · exact (h.headers x hx).text_spec.2.1
  · exact List.not_mem_nil

theorem getLast?_head (q : Http.Request) : q.head.getLast? = some 10 := by
  have hhead : q.head = (q.lines.dropLast.flatMap (· ++ Http.crlf) ++ [13]) ++ [10] := by
    have hlines : q.lines = (q.requestLine :: q.headers.map Http.Header.text) ++ [[]] := rfl
    rw [Http.Request.head, hlines, List.dropLast_concat]
    simp [Http.crlf]
  rw [hhead, List.getLast?_concat]

theorem collect_front_of_head (h : Readable maxSize maxMultiPartSize q) {front : QByteArray}
    (hfront : front <+: q.head) (hshort : front.length < q.head.length)
    (hcut : front = [] ∨ front.getLast? = some 10) :
    ∃ r, (ofLimits maxSize maxMultiPartSize).collect front = .ok (r, []) ∧ r.ended = false := by
  obtain ⟨first, hfirst, rfl⟩ := Http.exists_lines_of_prefix h.lines hfront hcut
  cases first with
  | nil => exact ⟨ofLimits maxSize maxMultiPartSize, rfl, rfl⟩
  | cons line later =>
    obtain ⟨rfl, hlater⟩ := List.cons_prefix_cons.mp hfirst
    have hheaders : later <+: q.headers.map Http.Header.text := by
      refine (List.prefix_concat_iff.mp hlater).resolve_left ?_
      rintro rfl
      exact absurd hshort (lt_irrefl _)
    obtain ⟨n, rfl⟩ : ∃ n, later = (q.headers.take n).map Http.Header.text :=
      ⟨later.length, by rw [List.map_take, ← List.prefix_iff_eq_take.mp hheaders]⟩
    obtain ⟨hlines, -⟩ := collect_lines h (List.take_prefix n q.headers) []
    refine ⟨(q.headers.take n).foldl addHeader (afterRequestLine maxSize maxMultiPartSize q), ?_, ?_⟩
    · rw [List.append_nil] at hlines
      rw [List.flatMap_cons, List.flatMap_map]
      exact hlines
    · obtain ⟨currentHeader, hlast⟩ := foldl_addHeader (q.headers.take n)
        (afterRequestLine maxSize maxMultiPartSize q)
      rw [hlast]
      rfl

theorem collect_front_of_body (h : Readable maxSize maxMultiPartSize q) {part rest : QByteArray}
    (hbody : q.body = part ++ rest) (hrest : rest ≠ []) :
    ∃ r, (ofLimits maxSize maxMultiPartSize).collect (q.head ++ part) = .ok (r, []) ∧
      r.ended = false ∧ (part ≠ [] → r.kept ≠ []) := by
  obtain ⟨currentHeader, hhead, hopen, hdue⟩ := collect_head_body h (by simp [hbody, hrest])
  rw [hhead]
  by_cases hpart : part = []
  · subst hpart
    exact ⟨_, rfl, rfl, fun he => absurd rfl he⟩
  have hpos : 0 < rest.length := List.length_pos_iff.mpr hrest
  have hlen : part.length < q.body.length := by
    rw [hbody, List.length_append]
    omega
  have hstatus : (afterHead maxSize maxMultiPartSize q currentHeader .waitForBody).status =
    .waitForBody := rfl
  have hshort : (((afterHead maxSize maxMultiPartSize q currentHeader .waitForBody).kept ++
      part).length : Int) <
        (afterHead maxSize maxMultiPartSize q currentHeader .waitForBody).expectedBodySize := by
    unfold due at hdue
    rw [List.length_append]
    omega
  have hfits : ((afterHead maxSize maxMultiPartSize q currentHeader .waitForBody).append
      part).currentSize ≤ ((afterHead maxSize maxMultiPartSize q currentHeader .waitForBody).append
        part).maxSize := by
    by_cases hplain : boundaryOf (lastValue (literal "Content-Type") (pairs q.headers)) = []
    · have hall := h.body_fits hplain
      rw [append_eq_plain hplain]
      simp only [afterHead, ofLimits]
      omega
    · have hall := h.head_fits
      rw [append_eq_file hplain]
      simp only [afterHead, ofLimits]
      omega
  have hbodyStatus : ((afterHead maxSize maxMultiPartSize q currentHeader .waitForBody).append
      part).status = .waitForBody := by rw [status_append, hstatus]
  have hafter : ((afterHead maxSize maxMultiPartSize q currentHeader .waitForBody).append
      part).afterRead = (afterHead maxSize maxMultiPartSize q currentHeader .waitForBody).append
        part := by
    have hwaits : ((afterHead maxSize maxMultiPartSize q currentHeader .waitForBody).append
        part).status ≠ .complete := by
      rw [hbodyStatus]
      exact RequestStatus.noConfusion
    rw [afterRead, if_neg (by omega), if_neg hwaits]
  refine ⟨_, ?_, not_ended_of_body hbodyStatus, fun _ => ?_⟩
  · rw [collect_body hopen hstatus hpart, hdue, List.take_of_length_le hlen.le,
      List.drop_of_length_le hlen.le, checkBody_append_short hopen.toSound hstatus hshort]
    exact congrArg (fun r => Except.ok (r, [])) hafter
  · rw [kept_append]
    simp [hpart]

/-- What a clean cut leaves behind goes on as if nothing had been cut. -/
theorem collect_front (h : Readable maxSize maxMultiPartSize q) {front rest : QByteArray}
    (htext : q.text = front ++ rest) (hrest : rest ≠ []) (hcut : Cut q front) :
    ∃ r, (ofLimits maxSize maxMultiPartSize).collect front = .ok (r, []) ∧ r.ended = false ∧
      ∀ t, (ofLimits maxSize maxMultiPartSize).collect (front ++ t) = r.collect t := by
  have hfits := h.head_fits
  have hopen : (ofLimits maxSize maxMultiPartSize).Open := open_ofLimits h.limit (by omega) _
  have hfront : front <+: q.text := ⟨rest, htext.symm⟩
  have hhead : q.head <+: q.text := List.prefix_append q.head q.body
  by_cases hshort : front.length < q.head.length
  · have hclean : front = [] ∨ front.getLast? = some 10 := by
      rcases hcut with he | he | he
      · exact .inl he
      · exact .inr he
      · omega
    obtain ⟨r, hread, hgoes⟩ :=
      collect_front_of_head h (List.prefix_of_prefix_length_le hfront hhead hshort.le) hshort hclean
    refine ⟨r, hread, hgoes, fun t =>
      collect_append_of_length_lt hgoes t _ _ front hopen (Nat.lt_succ_self _) hread ?_⟩
    exact hclean.imp_right .inl
  · obtain ⟨part, rfl⟩ := List.prefix_of_prefix_length_le hhead hfront (by omega)
    rw [Http.Request.text, List.append_assoc] at htext
    obtain ⟨r, hread, hgoes, hkept⟩ :=
      collect_front_of_body h (List.append_cancel_left htext) hrest
    refine ⟨r, hread, hgoes, fun t =>
      collect_append_of_length_lt hgoes t _ _ _ hopen (Nat.lt_succ_self _) hread ?_⟩
    by_cases hpart : part = []
    · rw [hpart, List.append_nil]
      exact .inr (.inl (getLast?_head q))
    · exact .inr (.inr (hkept hpart))

end Reading

/-- What the controllers get of a message: all of it, without the cookies among its headers. -/
def delivered (q : Http.Request) : Except Fault HttpRequest :=
  (received q.method q.target (Reading.pairs q.headers) q.body).map fun whole =>
    { whole with headers := Assoc.erase (literal "Cookie") whole.headers }

end HttpRequest

namespace Connection
open HttpRequest.Reading
variable {σ : Type} {service : HttpRequest → Settings → σ → Answer σ}
  {maxSize maxMultiPartSize : Int}

/-- A handler with a client it lets in, when so much of a request has come. -/
structure Midway (maxSize maxMultiPartSize : Int) (front : QByteArray) (c : Connection σ) : Prop
    extends Safe maxSize maxMultiPartSize c where
  connected : c.isOpen = true
  keeps : c.disconnecting = false
  allowed : c.filter.blockClient = false
  taken : c.available = []
  goes : ∀ t, c.pending.1.collect t = (ofLimits maxSize maxMultiPartSize).collect (front ++ t)

theorem pending_of_none {c : Connection σ} (h : Kept maxSize maxMultiPartSize c)
    (hnone : c.currentRequest = none) : c.pending.1 = ofLimits maxSize maxMultiPartSize := by
  obtain ⟨hcreate, -⟩ := create_eq c.settings
  rw [h.limits.1, h.limits.2] at hcreate
  rw [pending, hnone]
  exact hcreate

theorem read_eq {c : Connection σ} {r : Reading} {rest : QByteArray}
    (hcollect : c.pending.1.collect c.available = .ok (r, rest)) :
    c.read service = .ok ((c.afterLoop c.pending.2 r rest).dispatch service r) := by
  change (c.pending.1.collect c.available >>= fun next =>
    (.ok ((c.afterLoop c.pending.2 next.1 next.2).dispatch service next.1) : Except Fault _)) = _
  rw [hcollect]
  rfl

theorem afterLoop_spec (c : Connection σ) (settings : Settings) (r : Reading)
    (available : QByteArray) :
    (c.afterLoop settings r available).isOpen = c.isOpen ∧
      (c.afterLoop settings r available).disconnecting = c.disconnecting ∧
      (c.afterLoop settings r available).filter = c.filter ∧
      (c.afterLoop settings r available).sent = c.sent ∧
      (c.afterLoop settings r available).world = c.world ∧
      (c.afterLoop settings r available).available = available := by
  unfold afterLoop
  dsimp only
  split_ifs <;> exact ⟨rfl, rfl, rfl, rfl, rfl, rfl⟩

variable {q : Http.Request} {c : Connection σ} {front piece rest : QByteArray}

theorem Midway.readPiece (hservice : ∀ request s w, SameLimits (service request s w).settings s)
    (h : Midway maxSize maxMultiPartSize front c) (hq : Readable maxSize maxMultiPartSize q)
    (htext : q.text = front ++ piece ++ rest) (hrest : rest ≠ []) (hcut : Cut q (front ++ piece)) :
    ∃ c', step service c (.readyRead piece) = .ok c' ∧
      Midway maxSize maxMultiPartSize (front ++ piece) c' ∧ c'.sent = c.sent ∧ c'.world = c.world := by
  have hlimit := hq.limit
  have hfits := hq.head_fits
  obtain ⟨r, hread, hgoes, hnext⟩ := collect_front hq htext hrest hcut
  have hcollect : c.pending.1.collect (c.available ++ piece) = .ok (r, []) := by
    rw [h.taken, List.nil_append, h.goes, hread]
  have hstep : step service c (.readyRead piece) =
      .ok (({ c with available := c.available ++ piece }.afterLoop c.pending.2 r []).dispatch
        service r) := by
    rw [step, if_pos h.connected]
    exact read_eq hcollect
  obtain ⟨hopen, hkeeps, hfilter, hsent, hworld, havailable⟩ :=
    afterLoop_spec { c with available := c.available ++ piece } c.pending.2 r []
  have hsafe := safe_step hservice ⟨by omega, hlimit⟩ h.toSafe hstep
  have hstays : ∀ d : Connection σ, d.dispatch service r = { d with currentRequest := some r } := by
    intro d
    have hstatus : r.status ≠ .complete ∧ r.status ≠ .abort := by
      simpa [Reading.ended] using hgoes
    rw [Connection.dispatch, if_neg hstatus.2, if_neg hstatus.1]
  rw [hstays] at hstep hsafe
  exact ⟨_, hstep, ⟨hsafe, hopen.trans h.connected, hkeeps.trans h.keeps,
    (congrArg HttpConnectionHandler.blockClient hfilter).trans h.allowed, havailable, fun t => (hnext t).symm⟩, hsent, hworld⟩

def Keeps (q : Http.Request) : Prop :=
  isClose (lastValue (literal "Connection") (pairs q.headers)) = false

theorem lastValue_erase {name other : QByteArray} (h : name ≠ other)
    (m : List (QByteArray × QByteArray)) : lastValue name (Assoc.erase other m) = lastValue name m := by
  have hreverse : (Assoc.erase other m).reverse = Assoc.erase other m.reverse := by
    rw [Assoc.erase, Assoc.erase, List.filter_reverse]
  rw [lastValue, hreverse, Assoc.find_erase, if_neg h, lastValue]

theorem headers_received {method path body : QByteArray} {headers : List (QByteArray × QByteArray)}
    {whole : HttpRequest} (h : received method path headers body = .ok whole) :
    whole.headers = headers := by
  obtain ⟨m, -, hwhole⟩ := bind_eq_ok h
  cases hwhole
  rfl

theorem Midway.readLast (hservice : ∀ request s w, SameLimits (service request s w).settings s)
    (h : Midway maxSize maxMultiPartSize front c) (hq : Readable maxSize maxMultiPartSize q)
    (htext : q.text = front ++ piece) (hkeeps : Keeps q) {request : HttpRequest}
    (hrequest : delivered q = .ok request)
    (hanswers : ∀ s, (SocketResponse.respond (service request s c.world).calls).disconnecting = false) :
    ∃ c' s, step service c (.readyRead piece) = .ok c' ∧ Midway maxSize maxMultiPartSize [] c' ∧
      c'.sent = c.sent ++ (SocketResponse.respond (service request s c.world).calls).written ∧
      c'.world = (service request s c.world).world := by
  have hlimit := hq.limit
  have hfits := hq.head_fits
  obtain ⟨whole, hwhole, hdelivered⟩ : ∃ whole,
      received q.method q.target (pairs q.headers) q.body = .ok whole ∧
        { whole with headers := Assoc.erase (literal "Cookie") whole.headers } = request := by
    unfold delivered at hrequest
    cases hreceived : received q.method q.target (pairs q.headers) q.body with
    | error e =>
      rw [hreceived] at hrequest
      cases hrequest
    | ok whole =>
      rw [hreceived] at hrequest
      exact ⟨whole, rfl, Except.ok.inj hrequest⟩
  obtain ⟨r, hread, hdelivers⟩ := (hq.readsWhole []).delivers whole hwhole
  have hcollect : c.pending.1.collect (c.available ++ piece) = .ok (r, []) := by
    rw [h.taken, List.nil_append, h.goes, ← htext, ← hread, List.append_nil]
  have hmade : r.request = request := hdelivers.request.trans hdelivered
  have hclose : isClose (lastValue (literal "Connection") r.headers) = false := by
    have hheaders : r.headers = Assoc.erase (literal "Cookie") whole.headers :=
      congrArg HttpRequest.headers hdelivers.request
    rw [hheaders, lastValue_erase (by decide), headers_received hwhole]
    exact hkeeps
  have hstep : step service c (.readyRead piece) =
      .ok (({ c with available := c.available ++ piece }.afterLoop c.pending.2 r []).dispatch
        service r) := by
    rw [step, if_pos h.connected]
    exact read_eq hcollect
  obtain ⟨hopen, hstays, hfilter, hsent, hworld, havailable⟩ :=
    afterLoop_spec { c with available := c.available ++ piece } c.pending.2 r []
  have hsafe := safe_step hservice ⟨by omega, hlimit⟩ h.toSafe hstep
  generalize { c with available := c.available ++ piece }.afterLoop c.pending.2 r [] = d at *
  have hallowed : d.filter.blockClient = false :=
    (congrArg HttpConnectionHandler.blockClient hfilter).trans h.allowed
  have hserve : d.serve service r.request = service request d.settings c.world := by
    rw [serve, if_neg (by simp [hallowed]), hmade, hworld]
  have hgo : r.status ≠ .abort := by simp [hdelivers.status]
  have hrespond : d.dispatch service r = Connection.startTimer { d with
      timer := false
      settings := (service request d.settings c.world).settings
      world := (service request d.settings c.world).world
      sent := d.sent ++ (SocketResponse.respond (service request d.settings c.world).calls).written
      disconnecting := d.disconnecting ||
        (SocketResponse.respond (service request d.settings c.world).calls).disconnecting
      currentRequest := none } := by
    rw [Connection.dispatch, if_neg hgo, if_pos hdelivers.status, respond, hserve]
    dsimp only
    rw [if_neg (by simp [hclose])]
  rw [hrespond] at hstep hsafe
  have hconnected : (d.disconnecting || (SocketResponse.respond (service request d.settings
      c.world).calls).disconnecting) = false := by
    rw [hstays, h.keeps, hanswers]
    rfl
  refine ⟨_, d.settings, hstep, ⟨hsafe, hopen.trans h.connected, hconnected, hallowed, havailable,
    fun t => ?_⟩, ?_, rfl⟩
  · rw [pending_of_none hsafe.toKept rfl, List.nil_append]
  · exact congrArg (· ++ _) hsent

/-- A message, what the controllers get of it, and the pieces in which it comes. -/
structure Exchange where
  message : Http.Request
  request : HttpRequest
  pieces : List QByteArray

structure Exchange.Fair (maxSize maxMultiPartSize : Int) (x : Exchange) : Prop where
  readable : Readable maxSize maxMultiPartSize x.message
  delivered : delivered x.message = .ok x.request
  keeps : Keeps x.message
  text : x.pieces.flatten = x.message.text
  nonempty : [] ∉ x.pieces
  cuts : ∀ fronts, fronts <+: x.pieces → Cut x.message fronts.flatten

def Exchange.events (x : Exchange) : List ConnectionEvent := x.pieces.map .readyRead

/-- The program answers one request after the other. -/
inductive Served (service : HttpRequest → Settings → σ → Answer σ) :
    List HttpRequest → σ → List (List ResponseCall) → σ → Prop where
  | nil (w : σ) : Served service [] w [] w
  | cons {request : HttpRequest} {requests : List HttpRequest} {w w' : σ}
      {answers : List (List ResponseCall)} (s : Settings)
      (h : Served service requests (service request s w).world answers w') :
      Served service (request :: requests) w ((service request s w).calls :: answers) w'

def Reads : List (List ResponseCall) → QByteArray → Prop
  | [], s => s = []
  | calls :: answers, s =>
    ∃ received rest, Http.readResponse s = some
        (⟨SocketResponse.statusLine ((HttpResponse.ofCalls calls).sent.getD
            ((HttpResponse.ofCalls calls).statusCode, (HttpResponse.ofCalls calls).statusText)).1
          ((HttpResponse.ofCalls calls).sent.getD
            ((HttpResponse.ofCalls calls).statusCode, (HttpResponse.ofCalls calls).statusText)).2,
          received, (HttpResponse.ofCalls calls).body⟩, rest) ∧
      (∀ name, ¬ SocketResponse.Framing name → name ≠ literal "Set-Cookie" →
        Http.find name received = Assoc.find name (HttpResponse.ofCalls calls).headers) ∧
      Reads answers rest

def Answering (service : HttpRequest → Settings → σ → Answer σ) : Prop :=
  ∀ request s w, SameLimits (service request s w).settings s ∧
    SocketResponse.Orderly false (service request s w).calls ∧
    SocketResponse.closes (HttpResponse.ofCalls (service request s w).calls).headers = false

theorem flatten_ne_nil {l : List QByteArray} (hne : l ≠ []) (h : [] ∉ l) : l.flatten ≠ [] := by
  obtain ⟨p, l, rfl⟩ := List.exists_cons_of_ne_nil hne
  have hp : p ≠ [] := fun he => h (he ▸ List.mem_cons_self)
  simp [hp]

theorem exchange_run (hservice : Answering service) {x : Exchange}
    (hx : x.Fair maxSize maxMultiPartSize) (hc : Midway maxSize maxMultiPartSize [] c) :
    ∃ c' s, x.events.foldlM (step service) c = .ok c' ∧ Midway maxSize maxMultiPartSize [] c' ∧
      c'.sent = c.sent ++ (SocketResponse.respond (service x.request s c.world).calls).written ∧
      c'.world = (service x.request s c.world).world := by
  have hlimits : ∀ request s w, SameLimits (service request s w).settings s :=
    fun request s w => (hservice request s w).1
  have hall : ∀ (later fronts : List QByteArray) (d : Connection σ), fronts ++ later = x.pieces →
      later ≠ [] → Midway maxSize maxMultiPartSize fronts.flatten d →
      ∃ c' s, (later.map ConnectionEvent.readyRead).foldlM (step service) d = .ok c' ∧
        Midway maxSize maxMultiPartSize [] c' ∧
        c'.sent = d.sent ++ (SocketResponse.respond (service x.request s d.world).calls).written ∧
        c'.world = (service x.request s d.world).world := by
    intro later
    induction later with
    | nil => exact fun fronts d _ hne => absurd rfl hne
    | cons piece later ih =>
      intro fronts d hpieces _ hd
      have htext : x.message.text = fronts.flatten ++ piece ++ later.flatten := by
        rw [← hx.text, ← hpieces]
        simp
      have hsplit : (fronts ++ [piece]) ++ later = x.pieces := by
        rw [List.append_assoc]
        exact hpieces
      rw [List.map_cons, List.foldlM_cons]
      by_cases hlast : later = []
      · subst hlast
        rw [List.flatten_nil, List.append_nil] at htext
        obtain ⟨c', s, hstep, hmidway, hsent, hworld⟩ := hd.readLast hlimits hx.readable htext
          hx.keeps hx.delivered fun s => by
            have hanswer := hservice x.request s d.world
            exact (SocketResponse.received_of_orderly hanswer.2.1).keeps hanswer.2.2
        refine ⟨c', s, ?_, hmidway, hsent, hworld⟩
        rw [hstep]
        rfl
      · have hrest : later.flatten ≠ [] := by
          refine flatten_ne_nil hlast fun hm => hx.nonempty ?_
          rw [← hsplit]
          exact List.mem_append_right _ hm
        have hcut := hx.cuts (fronts ++ [piece]) ⟨later, hsplit⟩
        have hflat : (fronts ++ [piece]).flatten = fronts.flatten ++ piece := by simp
        rw [hflat] at hcut
        obtain ⟨d', hstep, hmidway, hsent, hworld⟩ :=
          hd.readPiece hlimits hx.readable htext hrest hcut
        rw [← hflat] at hmidway
        obtain ⟨c', s, hrun, hend, hsent', hworld'⟩ := ih _ d' hsplit hlast hmidway
        rw [hworld] at hsent' hworld'
        refine ⟨c', s, ?_, hend, hsent' ▸ hsent ▸ rfl, hworld'⟩
        rw [hstep]
        exact hrun
  have hpieces : x.pieces ≠ [] := by
    intro hnil
    have htext := hx.text
    rw [hnil] at htext
    simp [Http.Request.text, Http.Request.head, Http.Request.lines, Http.Request.requestLine] at htext
  exact hall x.pieces [] c rfl hpieces hc

theorem conversation_run (hservice : Answering service) {exchanges : List Exchange}
    (hall : ∀ x ∈ exchanges, x.Fair maxSize maxMultiPartSize)
    (hc : Midway maxSize maxMultiPartSize [] c) :
    ∃ c' answers text, (exchanges.flatMap Exchange.events).foldlM (step service) c = .ok c' ∧
      Midway maxSize maxMultiPartSize [] c' ∧
      Served service (exchanges.map Exchange.request) c.world answers c'.world ∧
      c'.sent = c.sent ++ text ∧ Reads answers text := by
  induction exchanges generalizing c with
  | nil => exact ⟨c, [], [], rfl, hc, .nil _, by simp, rfl⟩
  | cons x exchanges ih =>
    obtain ⟨d, s, hrun, hd, hsent, hworld⟩ := exchange_run hservice (hall x List.mem_cons_self) hc
    obtain ⟨c', answers, text, hrun', hc', hserved, hsent', hreads⟩ :=
      ih (fun y hy => hall y (List.mem_cons_of_mem _ hy)) hd
    have hanswer := hservice x.request s c.world
    obtain ⟨⟨received, hresponse, hheaders⟩, hkeeps⟩ :=
      SocketResponse.received_of_orderly hanswer.2.1
    refine ⟨c', (service x.request s c.world).calls :: answers,
      (SocketResponse.respond (service x.request s c.world).calls).written ++ text, ?_, hc', ?_, ?_,
      received, text, hresponse text (.inl (hkeeps hanswer.2.2)), hheaders, hreads⟩
    · rw [List.flatMap_cons, List.foldlM_append, hrun]
      exact hrun'
    · rw [hworld] at hserved
      exact .cons s hserved
    · rw [hsent', hsent, List.append_assoc]

theorem Midway.handleConnection (h : Safe maxSize maxMultiPartSize c) {peerAddress : Nat}
    (hallowed : (c.handleConnection peerAddress true).filter.blockClient = false) :
    Midway maxSize maxMultiPartSize [] (c.handleConnection peerAddress true) := by
  have hsafe := h.handleConnection peerAddress true
  refine ⟨hsafe, rfl, rfl, hallowed, rfl, fun t => ?_⟩
  rw [pending_of_none hsafe.toKept rfl, List.nil_append]

/-- However the requests are cut into pieces, and whatever the handler has gone through
before, each of them is answered by the program as it has been sent, and the client reads
the answers in their order. -/
theorem keepAlive_run (hservice : Answering service) (filter : HttpConnectionHandler)
    {settings : Settings} (w : σ)
    (hlimit : 0 ≤ maxSizeOf settings ∧ maxSizeOf settings < 2 ^ 31 - 1)
    {before : List ConnectionEvent} {c : Connection σ}
    (hrun : before.foldlM (step service) (idle filter settings w) = .ok c) (hclosed : c.isOpen = false)
    {peerAddress : Nat} (hallowed : (c.handleConnection peerAddress true).filter.blockClient = false)
    {exchanges : List Exchange}
    (hall : ∀ x ∈ exchanges, x.Fair (maxSizeOf settings) (maxMultiPartSizeOf settings)) :
    ∃ c' answers, (.handleConnection peerAddress true :: exchanges.flatMap Exchange.events).foldlM
        (step service) c = .ok c' ∧
      c'.isOpen = true ∧ c'.disconnecting = false ∧ c'.available = [] ∧
      Served service (exchanges.map Exchange.request) c.world answers c'.world ∧
      Reads answers c'.sent := by
  have hsafe := safe_reachable (fun request s w => (hservice request s w).1) filter w hlimit hrun
  obtain ⟨c', answers, text, hrun', hc', hserved, hsent, hreads⟩ :=
    conversation_run hservice hall (Midway.handleConnection hsafe hallowed)
  refine ⟨c', answers, ?_, hc'.connected, hc'.keeps, hc'.taken, hserved, ?_⟩
  · rw [List.foldlM_cons, step, if_neg (by simp [hclosed])]
    exact hrun'
  · have hfresh : (c.handleConnection peerAddress true).sent = [] := rfl
    rw [hsent, hfresh]
    exact hreads

section sample

def counting (_ : HttpRequest) (s : Settings) (n : Nat) : Answer Nat :=
  ⟨[.write (literal "ok") true], s, n + 1⟩

def searchExchange : Exchange where
  message := searchRequest
  request := ⟨literal "POST", literal "/torrent/api", pairs searchRequest.headers,
    [(literal "a", literal "1")], [], literal "a=1"⟩
  pieces := [literal "POST /torrent/api HTTP/1.1\r\nContent-Length: 3\r\n",
    literal "Content-Type: application/x-www-form-urlencoded\r\n\r\na", literal "=1"]

theorem fair_searchExchange : searchExchange.Fair 16000 1000000 where
  readable := readable_searchRequest
  delivered := by rfl
  keeps := by
    unfold Keeps
    decide
  text := by decide
  nonempty := by decide
  cuts := by
    intro fronts hfronts
    have hall : ∀ fronts ∈ searchExchange.pieces.inits, Cut searchExchange.message fronts.flatten := by
      decide
    exact hall fronts (by simpa using hfronts)

theorem answering_counting : Answering counting := by
  have hcloses : SocketResponse.closes
      (HttpResponse.ofCalls [.write (literal "ok") true]).headers = false := by decide
  exact fun request s n => ⟨⟨rfl, rfl⟩, rfl, hcloses⟩

theorem keepAlive_two_requests : ∃ c' answers,
    (.handleConnection 0 true :: [searchExchange, searchExchange].flatMap Exchange.events).foldlM
        (step counting) (idle ⟨[], [], false⟩ [] 0) = .ok c' ∧
      c'.isOpen = true ∧ c'.disconnecting = false ∧ c'.available = [] ∧
      Served counting ([searchExchange, searchExchange].map Exchange.request) 0 answers c'.world ∧
      Reads answers c'.sent := by
  have hidle : ([] : List ConnectionEvent).foldlM (step counting) (idle ⟨[], [], false⟩ [] 0) =
      .ok (idle ⟨[], [], false⟩ [] 0) := rfl
  refine keepAlive_run answering_counting ⟨[], [], false⟩ 0 (by decide) hidle rfl rfl ?_
  intro x hx
  simp only [List.mem_cons, List.not_mem_nil, or_false, or_self] at hx
  obtain rfl := hx
  exact fair_searchExchange

end sample

end Connection
end CuteTorrent
