import CuteTorrent.HttpRoundTrip
import CuteTorrent.HttpWire
import CuteTorrent.IpFilter
import CuteTorrent.Library.Runs

/-! `HttpConnectionHandler`: one connection after the other, and the requests of each. -/
namespace CuteTorrent
open QApplicationSettings HttpRequest

/-- The members of a handler, the socket with what has come in and gone out, and the
program behind it. -/
structure Connection (σ : Type) where
  filter : HttpConnectionHandler
  currentRequest : Option Reading
  available : QByteArray
  sent : QByteArray
  isOpen : Bool
  disconnecting : Bool
  timer : Bool
  busy : Bool
  settings : Settings
  world : σ

/-- What becomes of a request: the calls on its response, and the program after it. -/
structure Answer (σ : Type) where
  calls : List ResponseCall
  settings : Settings
  world : σ

/-- The signals a handler is connected to, and the call of the listener. -/
inductive ConnectionEvent where
  | handleConnection (peerAddress : Nat) (descriptorOk : Bool)
  | readyRead (bytes : QByteArray)
  | readTimeout
  | disconnected
deriving DecidableEq

namespace Connection

def enableIpfilterKey : QString := "enable_ipfilter".toList

def readTimeoutKey : QString := "readTimeout".toList

def isClose (text : QByteArray) : Bool :=
  decide ((cString text).map (fun b => if 65 ≤ b.toNat ∧ b.toNat ≤ 90 then b + 32 else b) =
    literal "close")

variable {σ : Type}

def startTimer (c : Connection σ) : Connection σ :=
  { c with
    timer := true
    settings := (value c.settings HttpRequestHandler.serverName readTimeoutKey (.int 10000)).2 }

def handleConnection (c : Connection σ) (peerAddress : Nat) (descriptorOk : Bool) : Connection σ :=
  let c := { c with busy := true, available := [], sent := [], disconnecting := false, isOpen := false }
  if !descriptorOk then c
  else
    let c := { c with isOpen := true }
    let (enable, settings) := valueBool c.settings HttpRequestHandler.serverName enableIpfilterKey false
    let c := { c with
      settings := settings
      filter := c.filter.handleConnection enable peerAddress }
    { c.startTimer with currentRequest := none }

def entityTooLarge : QByteArray :=
  literal "HTTP/1.1 413 entity too large\r\nConnection: close\r\n\r\n413 Entity too large\r\n"

def requestTimeout : QByteArray :=
  literal "HTTP/1.1 408 request timeout\r\nConnection: close\r\n\r\n408 request timeout\r\n"

def forbiddenCalls : List ResponseCall :=
  [.setStatus 403 (literal "Forbidden"), .write (literal "<h1>403 Forbidden<h1>") true]

def serve (service : HttpRequest → Settings → σ → Answer σ) (c : Connection σ) (request : HttpRequest) :
    Answer σ :=
  if c.filter.blockClient then
    let (enable, settings) := valueBool c.settings HttpRequestHandler.serverName enableIpfilterKey false
    if enable then ⟨forbiddenCalls, settings, c.world⟩ else service request settings c.world
  else service request c.settings c.world

/-- A complete request is answered, and the connection closed or kept for the next. -/
def respond (service : HttpRequest → Settings → σ → Answer σ) (c : Connection σ) (r : Reading) :
    Connection σ :=
  let answer := serve service c r.request
  let response := SocketResponse.respond answer.calls
  let c := { c with
    timer := false
    settings := answer.settings
    world := answer.world
    sent := c.sent ++ response.written
    disconnecting := c.disconnecting || response.disconnecting
    currentRequest := none }
  if isClose (lastValue (literal "Connection") r.headers) then { c with disconnecting := true }
  else c.startTimer

def pending (c : Connection σ) : Reading × Settings :=
  match c.currentRequest with
  | some r => (r, c.settings)
  | none => Reading.create c.settings

def dispatch (service : HttpRequest → Settings → σ → Answer σ) (c : Connection σ) (r : Reading) :
    Connection σ :=
  if r.status = .abort then
    { c with sent := c.sent ++ entityTooLarge, disconnecting := true, currentRequest := none }
  else if r.status = .complete then c.respond service r
  else { c with currentRequest := some r }

/-- The timer is started again by a loop that leaves the request waiting for its body. -/
def afterLoop (c : Connection σ) (settings : Settings) (r : Reading) (available : QByteArray) :
    Connection σ :=
  let waits := decide (c.available ≠ [] ∧ r.status = .waitForBody)
  let c := { c with settings := settings, available := available }
  if waits then c.startTimer else c

def read (service : HttpRequest → Settings → σ → Answer σ) (c : Connection σ) :
    Except Fault (Connection σ) := do
  let (request, settings) := c.pending
  let (r, available) ← request.collect c.available
  return (c.afterLoop settings r available).dispatch service r

/-- One signal. A closed socket sends none, the timer only while it is running, and the
listener does not give a connection to a handler that has one. -/
def step (service : HttpRequest → Settings → σ → Answer σ) (c : Connection σ) :
    ConnectionEvent → Except Fault (Connection σ)
  | .handleConnection peerAddress descriptorOk =>
    if c.isOpen then .ok c else .ok (c.handleConnection peerAddress descriptorOk)
  | .readyRead bytes =>
    if c.isOpen then read service { c with available := c.available ++ bytes } else .ok c
  | .readTimeout =>
    if c.timer then
      .ok { c with
        timer := false
        sent := if c.isOpen then c.sent ++ requestTimeout else c.sent
        disconnecting := true
        currentRequest := none }
    else .ok c
  | .disconnected =>
    if c.isOpen then
      .ok { c with isOpen := false, available := [], timer := false, busy := false }
    else .ok c

/-! ### The limits of the settings -/

def maxSizeOf (s : Settings) : Int :=
  (value s HttpRequestHandler.serverName Reading.maxRequestSizeKey (.string "16000".toList)).1.toInt

def maxMultiPartSizeOf (s : Settings) : Int :=
  (value s HttpRequestHandler.serverName Reading.maxMultiPartSizeKey
    (.string "1000000".toList)).1.toInt

def SameLimits (s t : Settings) : Prop :=
  maxSizeOf s = maxSizeOf t ∧ maxMultiPartSizeOf s = maxMultiPartSizeOf t

theorem sameLimits_value (key : QString) (defaultVal : QVariant)
    (hmax : key = Reading.maxRequestSizeKey → defaultVal = .string "16000".toList)
    (hmulti : key = Reading.maxMultiPartSizeKey → defaultVal = .string "1000000".toList)
    (s : Settings) :
    SameLimits (value s HttpRequestHandler.serverName key defaultVal).2 s := by
  constructor
  · rw [maxSizeOf, maxSizeOf, value_value (by rfl) hmax]
  · rw [maxMultiPartSizeOf, maxMultiPartSizeOf, value_value (by rfl) hmulti]

theorem SameLimits.trans {s t u : Settings} (hst : SameLimits s t) (htu : SameLimits t u) :
    SameLimits s u := ⟨hst.1.trans htu.1, hst.2.trans htu.2⟩

theorem create_eq (s : Settings) :
    (Reading.create s).1 = Reading.ofLimits (maxSizeOf s) (maxMultiPartSizeOf s) ∧
      SameLimits (Reading.create s).2 s := by
  have hfirst := sameLimits_value Reading.maxRequestSizeKey _ (fun _ => rfl)
    (fun he => absurd he (by decide)) s
  have hsecond := sameLimits_value Reading.maxMultiPartSizeKey _
    (fun he => absurd he (by decide)) (fun _ => rfl)
    (value s HttpRequestHandler.serverName Reading.maxRequestSizeKey (.string "16000".toList)).2
  refine ⟨?_, hsecond.trans hfirst⟩
  rw [← hfirst.2]
  rfl

theorem settings_startTimer (c : Connection σ) : SameLimits c.startTimer.settings c.settings :=
  sameLimits_value _ _ (fun he => absurd he (by decide)) (fun he => absurd he (by decide)) c.settings

theorem settings_valueBool (s : Settings) :
    SameLimits (valueBool s HttpRequestHandler.serverName enableIpfilterKey false).2 s :=
  sameLimits_value _ _ (fun he => absurd he (by decide)) (fun he => absurd he (by decide)) s

/-! ### Every run -/

structure Kept (maxSize maxMultiPartSize : Int) (c : Connection σ) : Prop where
  limits : maxSizeOf c.settings = maxSize ∧ maxMultiPartSizeOf c.settings = maxMultiPartSize
  request : ∀ r, c.currentRequest = some r → r.Open ∧ r.ended = false ∧ r.maxSize = maxSize ∧
    r.maxMultiPartSize = maxMultiPartSize
  watched : c.isOpen = true → c.disconnecting = false → c.timer = true

/-- A handler between two signals: a request that is being read has taken all that has come. -/
structure Safe (maxSize maxMultiPartSize : Int) (c : Connection σ) : Prop
    extends Kept maxSize maxMultiPartSize c where
  unread : c.isOpen = true → ∀ r, c.currentRequest = some r → c.available = []

section runs
variable {service : HttpRequest → Settings → σ → Answer σ} {maxSize maxMultiPartSize : Int}

theorem limits_of_sameLimits {s t : Settings} (hst : SameLimits s t)
    (h : maxSizeOf t = maxSize ∧ maxMultiPartSizeOf t = maxMultiPartSize) :
    maxSizeOf s = maxSize ∧ maxMultiPartSizeOf s = maxMultiPartSize :=
  ⟨hst.1.trans h.1, hst.2.trans h.2⟩

theorem Safe.handleConnection {c : Connection σ} (h : Safe maxSize maxMultiPartSize c)
    (peerAddress : Nat) (descriptorOk : Bool) :
    Safe maxSize maxMultiPartSize (c.handleConnection peerAddress descriptorOk) := by
  cases descriptorOk with
  | false =>
    exact ⟨⟨h.limits, h.request, fun hopen => absurd hopen Bool.false_ne_true⟩,
      fun hopen => absurd hopen Bool.false_ne_true⟩
  | true =>
    have hlimits := limits_of_sameLimits
      ((sameLimits_value readTimeoutKey (.int 10000)
        (fun he => absurd he (by decide)) (fun he => absurd he (by decide))
        (valueBool c.settings HttpRequestHandler.serverName enableIpfilterKey false).2).trans
        (settings_valueBool c.settings)) h.limits
    exact ⟨⟨hlimits, fun r hr => (by cases hr), fun _ _ => rfl⟩, fun _ r hr => (by cases hr)⟩

theorem settings_serve (hservice : ∀ request s w, SameLimits (service request s w).settings s)
    (c : Connection σ) (request : HttpRequest) :
    SameLimits (c.serve service request).settings c.settings := by
  unfold serve
  split_ifs with hblock
  · dsimp only
    split_ifs
    · exact settings_valueBool c.settings
    · exact (hservice _ _ _).trans (settings_valueBool c.settings)
  · exact hservice _ _ _

theorem safe_respond (hservice : ∀ request s w, SameLimits (service request s w).settings s)
    {c : Connection σ} (hlimits : maxSizeOf c.settings = maxSize ∧
      maxMultiPartSizeOf c.settings = maxMultiPartSize) (r : Reading) :
    Safe maxSize maxMultiPartSize (c.respond service r) := by
  have hsettings := limits_of_sameLimits (settings_serve hservice c r.request) hlimits
  unfold Connection.respond
  dsimp only
  split_ifs
  · exact ⟨⟨hsettings, fun r hr => (by cases hr), fun _ he => (by cases he)⟩,
      fun _ r hr => (by cases hr)⟩
  · exact ⟨⟨limits_of_sameLimits (settings_startTimer _) hsettings, fun r hr => (by cases hr),
      fun _ _ => rfl⟩, fun _ r hr => (by cases hr)⟩

theorem Kept.dispatch (hservice : ∀ request s w, SameLimits (service request s w).settings s)
    {c : Connection σ} (h : Kept maxSize maxMultiPartSize c) {r : Reading}
    (hr : r.Open ∧ r.maxSize = maxSize ∧ r.maxMultiPartSize = maxMultiPartSize)
    (hstop : c.available = [] ∨ r.ended = true) :
    Safe maxSize maxMultiPartSize (c.dispatch service r) := by
  unfold Connection.dispatch
  split_ifs with habort hcomplete
  · exact ⟨⟨h.limits, fun r hr => (by cases hr), fun _ he => (by cases he)⟩,
      fun _ r hr => (by cases hr)⟩
  · exact safe_respond hservice h.limits r
  · have hgoes : r.ended = false := by simp [Reading.ended, habort, hcomplete]
    refine ⟨⟨h.limits, fun r' hr' => ?_, h.watched⟩, fun _ _ _ => hstop.resolve_right (by simp [hgoes])⟩
    cases hr'
    exact ⟨hr.1, hgoes, hr.2⟩

theorem Kept.afterLoop {c : Connection σ} (h : Kept maxSize maxMultiPartSize c) {settings : Settings}
    (hsettings : SameLimits settings c.settings) (r : Reading) (available : QByteArray) :
    Kept maxSize maxMultiPartSize (c.afterLoop settings r available) ∧
      (c.afterLoop settings r available).available = available := by
  have hlimits := limits_of_sameLimits hsettings h.limits
  unfold Connection.afterLoop
  dsimp only
  split_ifs
  · exact ⟨⟨limits_of_sameLimits (settings_startTimer _) hlimits, h.request, fun _ _ => rfl⟩, rfl⟩
  · exact ⟨⟨hlimits, h.request, h.watched⟩, rfl⟩

theorem Kept.pending {c : Connection σ} (h : Kept maxSize maxMultiPartSize c)
    (hlimit : 0 ≤ maxSize ∧ maxSize < 2 ^ 31 - 1) :
    c.pending.1.Open ∧ c.pending.1.maxSize = maxSize ∧
      c.pending.1.maxMultiPartSize = maxMultiPartSize ∧ SameLimits c.pending.2 c.settings := by
  unfold Connection.pending
  cases hr : c.currentRequest with
  | some r =>
    obtain ⟨hopen, -, hmax, hmulti⟩ := h.request r hr
    exact ⟨hopen, hmax, hmulti, rfl, rfl⟩
  | none =>
    obtain ⟨hcreate, hsettings⟩ := create_eq c.settings
    rw [h.limits.1, h.limits.2] at hcreate
    dsimp only
    rw [hcreate]
    exact ⟨Reading.open_ofLimits hlimit.2 hlimit.1 _, rfl, rfl, hsettings⟩

theorem Kept.read (hservice : ∀ request s w, SameLimits (service request s w).settings s)
    (hlimit : 0 ≤ maxSize ∧ maxSize < 2 ^ 31 - 1) {c c' : Connection σ}
    (h : Kept maxSize maxMultiPartSize c) (hread : Connection.read service c = .ok c') :
    Safe maxSize maxMultiPartSize c' := by
  obtain ⟨hopen, hmax, hmulti, hsettings⟩ := h.pending hlimit
  obtain ⟨next, hcollect, hnext⟩ := bind_eq_ok (x := c.pending.1.collect c.available) hread
  cases hnext
  obtain ⟨hopen', -, hstop⟩ := Reader.gather_spec Reading.shortens hopen hcollect
  obtain ⟨hmax', hmulti'⟩ := Reading.limits_collect hopen hcollect
  obtain ⟨hkept, havailable⟩ := h.afterLoop hsettings next.1 next.2
  refine hkept.dispatch hservice ⟨hopen', hmax'.trans hmax, hmulti'.trans hmulti⟩ ?_
  rwa [havailable]

theorem safe_step (hservice : ∀ request s w, SameLimits (service request s w).settings s)
    (hlimit : 0 ≤ maxSize ∧ maxSize < 2 ^ 31 - 1) {c c' : Connection σ} {event : ConnectionEvent}
    (h : Safe maxSize maxMultiPartSize c) (hstep : step service c event = .ok c') :
    Safe maxSize maxMultiPartSize c' := by
  cases event with
  | handleConnection peerAddress descriptorOk =>
    simp only [step] at hstep
    split_ifs at hstep <;> cases hstep
    · exact h
    · exact h.handleConnection peerAddress descriptorOk
  | readyRead bytes =>
    simp only [step] at hstep
    split_ifs at hstep
    · have hkept : Kept maxSize maxMultiPartSize { c with available := c.available ++ bytes } :=
        ⟨h.limits, h.request, h.watched⟩
      exact hkept.read hservice hlimit hstep
    · cases hstep
      exact h
  | readTimeout =>
    by_cases htimer : c.timer = true
    · simp only [step, if_pos htimer] at hstep
      cases hstep
      exact ⟨⟨h.limits, fun r hr => (by cases hr), fun _ he => (by cases he)⟩,
        fun _ r hr => (by cases hr)⟩
    · simp only [step, if_neg htimer] at hstep
      cases hstep
      exact h
  | disconnected =>
    simp only [step] at hstep
    split_ifs at hstep <;> cases hstep
    · exact ⟨⟨h.limits, h.request, fun hopen => absurd hopen Bool.false_ne_true⟩,
        fun hopen => absurd hopen Bool.false_ne_true⟩
    · exact h

def idle (filter : HttpConnectionHandler) (settings : Settings) (w : σ) : Connection σ :=
  ⟨filter, none, [], [], false, false, false, false, settings, w⟩

theorem safe_reachable (hservice : ∀ request s w, SameLimits (service request s w).settings s)
    (filter : HttpConnectionHandler) {settings : Settings} (w : σ)
    (hlimit : 0 ≤ maxSizeOf settings ∧ maxSizeOf settings < 2 ^ 31 - 1)
    {events : List ConnectionEvent} {c : Connection σ}
    (hrun : events.foldlM (step service) (idle filter settings w) = .ok c) :
    Safe (maxSizeOf settings) (maxMultiPartSizeOf settings) c := by
  have hidle : Safe (maxSizeOf settings) (maxMultiPartSizeOf settings) (idle filter settings w) :=
    ⟨⟨⟨rfl, rfl⟩, fun r hr => (by cases hr), fun he => (by cases he)⟩, fun he => (by cases he)⟩
  exact Runs.invariant_of_foldlM (fun c event c' h hstep => safe_step hservice hlimit h hstep)
    hidle hrun

/-- Whatever is sent, and however connections come, go and time out: no request holds more
than the limits of the settings, no byte waits behind a request that is incomplete, and a
connection that nobody is closing has its timer running. -/
theorem safe_run (hservice : ∀ request s w, SameLimits (service request s w).settings s)
    (filter : HttpConnectionHandler) {settings : Settings} (w : σ)
    (hlimit : 0 ≤ maxSizeOf settings ∧ maxSizeOf settings < 2 ^ 31 - 1)
    {events : List ConnectionEvent} {c : Connection σ}
    (hrun : events.foldlM (step service) (idle filter settings w) = .ok c) :
    (∀ r, c.currentRequest = some r → r.currentSize ≤ maxSizeOf settings ∧
        (r.bodyData.length : Int) ≤ maxSizeOf settings ∧
        (r.boundary ≠ [] → (r.tempFile.length : Int) ≤ max 0 (maxMultiPartSizeOf settings))) ∧
      (c.isOpen = true → c.currentRequest ≠ none → c.available = []) ∧
      (c.isOpen = true → c.disconnecting = false → c.timer = true) := by
  have hsafe := safe_reachable hservice filter w hlimit hrun
  refine ⟨fun r hr => ?_, fun hopen hsome => ?_, hsafe.watched⟩
  · obtain ⟨hopen, hgoes, hmax, hmulti⟩ := hsafe.request r hr
    have hfits := hopen.fits hgoes
    have hstored := hopen.stored
    refine ⟨by omega, by omega, fun hfile => ?_⟩
    rcases Reading.lineState_or_body hgoes with hline | hstatus
    · rw [(hopen.lines hline).2.1]
      exact le_max_left _ _
    · obtain ⟨⟨-, hdue⟩, -, hsize⟩ := hopen.file hstatus hfile
      rcases hdue with hempty | hlt
      · rw [hempty]
        exact le_max_left _ _
      · exact le_max_of_le_right (by omega)
  · obtain ⟨r, hr⟩ := Option.ne_none_iff_exists'.mp hsome
    exact hsafe.unread hopen r hr

theorem safe_run_partial_request : ∃ c : Connection Nat,
    [ConnectionEvent.handleConnection 0 true, .readyRead (literal "GET / HTTP/1.1\r\n")].foldlM
        (step fun _ s n => ⟨[], s, n⟩) (idle ⟨[], [], false⟩ [] 0) = .ok c ∧
      (∀ r, c.currentRequest = some r → r.currentSize ≤ maxSizeOf [] ∧
        (r.bodyData.length : Int) ≤ maxSizeOf [] ∧
        (r.boundary ≠ [] → (r.tempFile.length : Int) ≤ max 0 (maxMultiPartSizeOf []))) ∧
      (c.isOpen = true → c.currentRequest ≠ none → c.available = []) ∧
      (c.isOpen = true → c.disconnecting = false → c.timer = true) := by
  obtain ⟨c, hrun⟩ : ∃ c : Connection Nat, [ConnectionEvent.handleConnection 0 true,
      .readyRead (literal "GET / HTTP/1.1\r\n")].foldlM (step fun _ s n => ⟨[], s, n⟩)
        (idle ⟨[], [], false⟩ [] 0) = .ok c := ⟨_, rfl⟩
  exact ⟨c, hrun, safe_run (fun _ _ _ => ⟨rfl, rfl⟩) ⟨[], [], false⟩ 0 (by decide) hrun⟩

/-! ### A blocked client -/

/-- The setting WebControl/enable_ipfilter is true. -/
def Filtering (s : Settings) : Prop :=
  (valueBool s HttpRequestHandler.serverName enableIpfilterKey false).1 = true

theorem filtering_value (key : QString) (defaultVal : QVariant)
    (hsame : key = enableIpfilterKey → defaultVal = .bool false) {s : Settings} (h : Filtering s) :
    Filtering (value s HttpRequestHandler.serverName key defaultVal).2 := by
  unfold Filtering valueBool at h ⊢
  dsimp only at h ⊢
  rw [value_value (by rfl) hsame]
  exact h

structure Blocking (w : σ) (c : Connection σ) : Prop where
  blocked : c.filter.blockClient = true
  filtering : Filtering c.settings
  world : c.world = w

def forbidden : QByteArray := (SocketResponse.respond forbiddenCalls).written

def Refusals (sent : QByteArray) : Prop :=
  ∃ answers : List QByteArray,
    (∀ a ∈ answers, a = forbidden ∨ a = entityTooLarge ∨ a = requestTimeout) ∧ sent = answers.flatten

theorem Refusals.append {sent : QByteArray} (h : Refusals sent) {a : QByteArray}
    (ha : a = forbidden ∨ a = entityTooLarge ∨ a = requestTimeout) : Refusals (sent ++ a) := by
  obtain ⟨answers, hall, rfl⟩ := h
  refine ⟨answers ++ [a], fun b hb => ?_, by simp⟩
  rcases List.mem_append.mp hb with hb | hb
  · exact hall b hb
  · exact List.mem_singleton.mp hb ▸ ha

theorem Blocking.startTimer {w : σ} {c : Connection σ} (h : Blocking w c) : Blocking w c.startTimer :=
  ⟨h.blocked, filtering_value _ _ (fun he => absurd he (by decide)) h.filtering, h.world⟩

theorem Blocking.serve {w : σ} {c : Connection σ} (h : Blocking w c) (request : HttpRequest) :
    (c.serve service request).calls = forbiddenCalls ∧
      Filtering (c.serve service request).settings ∧ (c.serve service request).world = w := by
  have henable : (valueBool c.settings HttpRequestHandler.serverName enableIpfilterKey false).1 = true :=
    h.filtering
  unfold Connection.serve
  rw [if_pos h.blocked]
  dsimp only
  rw [if_pos henable]
  exact ⟨rfl, filtering_value _ _ (fun _ => rfl) h.filtering, h.world⟩

theorem Blocking.respond {w : σ} {c : Connection σ} (h : Blocking w c) (hsent : Refusals c.sent)
    (r : Reading) : Blocking w (c.respond service r) ∧ Refusals (c.respond service r).sent := by
  obtain ⟨hcalls, hfiltering, hworld⟩ : (c.serve service r.request).calls = forbiddenCalls ∧
      Filtering (c.serve service r.request).settings ∧ (c.serve service r.request).world = w :=
    h.serve r.request
  have hanswer : Refusals (c.sent ++ (SocketResponse.respond (c.serve service r.request).calls).written) := by
    rw [hcalls]
    exact hsent.append (.inl rfl)
  unfold Connection.respond
  dsimp only
  split_ifs
  · exact ⟨⟨h.blocked, hfiltering, hworld⟩, hanswer⟩
  · exact ⟨Blocking.startTimer ⟨h.blocked, hfiltering, hworld⟩, hanswer⟩

theorem Blocking.read {w : σ} {c c' : Connection σ} (h : Blocking w c) (hsent : Refusals c.sent)
    (hread : Connection.read service c = .ok c') : Blocking w c' ∧ Refusals c'.sent := by
  have hpending : Filtering c.pending.2 := by
    unfold pending
    cases c.currentRequest with
    | some r => exact h.filtering
    | none =>
      have hfirst : Filtering (value c.settings HttpRequestHandler.serverName
          Reading.maxRequestSizeKey (.string "16000".toList)).2 :=
        filtering_value _ _ (fun he => absurd he (by decide)) h.filtering
      exact filtering_value Reading.maxMultiPartSizeKey (.string "1000000".toList)
        (fun he => absurd he (by decide)) hfirst
  obtain ⟨next, -, hnext⟩ := bind_eq_ok (x := c.pending.1.collect c.available) hread
  cases hnext
  have hloop : Blocking w (c.afterLoop c.pending.2 next.1 next.2) ∧
      (c.afterLoop c.pending.2 next.1 next.2).sent = c.sent := by
    unfold afterLoop
    dsimp only
    split_ifs
    · exact ⟨Blocking.startTimer ⟨h.blocked, hpending, h.world⟩, rfl⟩
    · exact ⟨⟨h.blocked, hpending, h.world⟩, rfl⟩
  have hsent' : Refusals (c.afterLoop c.pending.2 next.1 next.2).sent := by rwa [hloop.2]
  unfold dispatch
  split_ifs
  · exact ⟨⟨hloop.1.blocked, hloop.1.filtering, hloop.1.world⟩, hsent'.append (.inr (.inl rfl))⟩
  · exact hloop.1.respond hsent' _
  · exact ⟨⟨hloop.1.blocked, hloop.1.filtering, hloop.1.world⟩, hsent'⟩

theorem Blocking.step {w : σ} {c c' : Connection σ} {event : ConnectionEvent}
    (hevent : ∀ peerAddress descriptorOk, event ≠ .handleConnection peerAddress descriptorOk)
    (h : Blocking w c) (hsent : Refusals c.sent) (hstep : Connection.step service c event = .ok c') :
    Blocking w c' ∧ Refusals c'.sent := by
  cases event with
  | handleConnection peerAddress descriptorOk => exact absurd rfl (hevent peerAddress descriptorOk)
  | readyRead bytes =>
    simp only [Connection.step] at hstep
    split_ifs at hstep
    · exact Blocking.read (c := { c with available := c.available ++ bytes })
        ⟨h.blocked, h.filtering, h.world⟩ hsent hstep
    · cases hstep
      exact ⟨h, hsent⟩
  | readTimeout =>
    by_cases htimer : c.timer = true
    · simp only [Connection.step, if_pos htimer] at hstep
      cases hstep
      refine ⟨⟨h.blocked, h.filtering, h.world⟩, ?_⟩
      dsimp only
      split_ifs
      · exact hsent.append (.inr (.inr rfl))
      · exact hsent
    · simp only [Connection.step, if_neg htimer] at hstep
      cases hstep
      exact ⟨h, hsent⟩
  | disconnected =>
    simp only [Connection.step] at hstep
    split_ifs at hstep <;> cases hstep
    · exact ⟨⟨h.blocked, h.filtering, h.world⟩, hsent⟩
    · exact ⟨h, hsent⟩

/-- Whatever a client sends whose address the filter blocks, the program takes no notice of
it: the connection gives out nothing but refusals. -/
theorem blocked_run {c c' : Connection σ} {peerAddress : Nat} (hclosed : c.isOpen = false)
    (hfiltering : Filtering c.settings)
    (hblocked : (c.filter.handleConnection true peerAddress).forbidden true = true)
    {events : List ConnectionEvent}
    (hevents : ∀ address descriptorOk, .handleConnection address descriptorOk ∉ events)
    (hrun : (.handleConnection peerAddress true :: events).foldlM (step service) c = .ok c') :
    c'.world = c.world ∧ Refusals c'.sent := by
  have henable : (valueBool c.settings HttpRequestHandler.serverName enableIpfilterKey false).1 = true :=
    hfiltering
  have hstart : Blocking c.world (c.handleConnection peerAddress true) ∧
      Refusals (c.handleConnection peerAddress true).sent := by
    unfold handleConnection
    rw [if_neg (by decide)]
    dsimp only
    rw [henable]
    have hfilter : Filtering
        (valueBool c.settings HttpRequestHandler.serverName enableIpfilterKey false).2 :=
      filtering_value _ _ (fun _ => rfl) hfiltering
    refine ⟨⟨?_, filtering_value _ _ (fun he => absurd he (by decide)) hfilter, rfl⟩, [], by simp, rfl⟩
    have hblock : (c.filter.handleConnection true peerAddress).blockClient = true := by
      simpa [HttpConnectionHandler.forbidden] using hblocked
    exact hblock
  have hall : ∀ (events : List ConnectionEvent) (d d' : Connection σ),
      (∀ address descriptorOk, .handleConnection address descriptorOk ∉ events) →
      Blocking c.world d ∧ Refusals d.sent → events.foldlM (step service) d = .ok d' →
      Blocking c.world d' ∧ Refusals d'.sent := by
    intro events
    induction events with
    | nil =>
      intro d d' _ h hrun
      cases hrun
      exact h
    | cons event events ih =>
      intro d d' hevents h hrun
      rw [List.foldlM_cons] at hrun
      obtain ⟨t, hstep, hrun⟩ := bind_eq_ok hrun
      have hevent : ∀ address descriptorOk, event ≠ .handleConnection address descriptorOk :=
        fun address descriptorOk he => hevents address descriptorOk (he ▸ List.mem_cons_self)
      refine ih t d' (fun address descriptorOk hm =>
        hevents address descriptorOk (List.mem_cons_of_mem _ hm)) ?_ hrun
      exact Blocking.step hevent h.1 h.2 hstep
  rw [List.foldlM_cons, step, if_neg (by simp [hclosed])] at hrun
  obtain ⟨hend, hsent⟩ := hall events _ c' hevents hstart hrun
  exact ⟨hend.world, hsent⟩

end runs

section sample

def filteringSettings : Settings := [(HttpRequestHandler.serverName, [(enableIpfilterKey, .bool true)])]

theorem blocked_run_request : ∃ c : Connection Nat,
    (.handleConnection 5 true :: [.readyRead (literal "GET / HTTP/1.1\r\n\r\n")]).foldlM
        (step fun _ s n => ⟨[], s, n + 1⟩) (idle ⟨[(1, 2)], [], false⟩ filteringSettings 0) = .ok c ∧
      c.world = 0 ∧ Refusals c.sent := by
  obtain ⟨c, hrun⟩ : ∃ c : Connection Nat,
      (.handleConnection 5 true :: [.readyRead (literal "GET / HTTP/1.1\r\n\r\n")]).foldlM
        (step fun _ s n => ⟨[], s, n + 1⟩) (idle ⟨[(1, 2)], [], false⟩ filteringSettings 0) = .ok c :=
    ⟨_, rfl⟩
  have hfiltering : Filtering filteringSettings := by
    unfold Filtering
    decide
  exact ⟨c, hrun, blocked_run rfl hfiltering (by decide) (by simp) hrun⟩

end sample

end Connection
end CuteTorrent
