import Mathlib.Algebra.Order.BigOperators.Group.List
import CuteTorrent.HttpConnections

/-! `HttpListener` and `HttpConnectionHandlerPool`: the connections of all clients, each
with a handler in a thread of its own. -/
namespace CuteTorrent
open QApplicationSettings HttpRequest

/-- A handler of the pool: the calls of `handleConnection` that wait in the queue of its
thread, and the descriptor of the last call that was taken from it. -/
structure PooledHandler (σ : Type) where
  queue : List Int
  descriptor : Int
  connection : Connection σ

/-- The pool, what all handlers share, and the descriptors no handler has any more: turned
away with 503, not taken by the socket, or disconnected. -/
structure HttpServer (σ : Type) where
  pool : List (PooledHandler σ)
  settings : Settings
  world : σ
  rejected : List Int
  failed : List Int
  closed : List Int

/-- What the threads of the server do. A handler is named by its place in the pool; a new one
gets the static ranges, and the flag that its constructor does not set. -/
inductive ServerEvent where
  | incomingConnection (descriptor : Int) (members : HttpConnectionHandler)
  | cleanup
  | signal (place : Nat) (event : ConnectionEvent)
deriving DecidableEq

namespace ServerEvent

def arrivals : ServerEvent → List Int
  | incomingConnection descriptor _ => [descriptor]
  | _ => []

end ServerEvent

namespace PooledHandler
variable {σ : Type}

def held (h : PooledHandler σ) : List Int :=
  h.queue ++ if h.connection.isOpen then [h.descriptor] else []

def isLost (h : PooledHandler σ) : Bool :=
  h.connection.busy && h.queue.isEmpty && !h.connection.isOpen

def setBusy (h : PooledHandler σ) : PooledHandler σ :=
  { h with connection := { h.connection with busy := true } }

def post (descriptor : Int) (h : PooledHandler σ) : PooledHandler σ :=
  { h with queue := h.queue ++ [descriptor] }

end PooledHandler

namespace HttpServer

def maxThreadsKey : QString := "maxThreads".toList

def minThreadsKey : QString := "minThreads".toList

variable {σ : Type}

def start (settings : Settings) (w : σ) : HttpServer σ := ⟨[], settings, w, [], [], []⟩

/-- The place of a free handler, or of a new one. -/
def getConnectionHandler (serverName : QString) (members : HttpConnectionHandler) (s : HttpServer σ) :
    Option Nat × HttpServer σ :=
  match s.pool.findIdx? fun h => !h.connection.busy with
  | some place => (some place, { s with pool := s.pool.modify place PooledHandler.setBusy })
  | none =>
    let (maxConnectionHandlers, settings) := value s.settings serverName maxThreadsKey (.int 100)
    let s := { s with settings := settings }
    if (s.pool.length : Int) < maxConnectionHandlers.toInt then
      let freeHandler : PooledHandler σ := ⟨[], 0, Connection.idle members s.settings s.world⟩
      (some s.pool.length, { s with pool := s.pool ++ [freeHandler.setBusy] })
    else (none, s)

def incomingConnection (serverName : QString) (descriptor : Int) (members : HttpConnectionHandler)
    (s : HttpServer σ) : HttpServer σ :=
  match s.getConnectionHandler serverName members with
  | (some place, s) => { s with pool := s.pool.modify place (.post descriptor) }
  | (none, s) => { s with rejected := s.rejected ++ [descriptor] }

/-- The place of the first free handler past the number of those that may stay idle. -/
def surplus (maxIdleHandlers : Int) : Int → List (PooledHandler σ) → Option Nat
  | _, [] => none
  | idleCounter, h :: hs =>
    if h.connection.busy then (surplus maxIdleHandlers idleCounter hs).map (· + 1)
    else if idleCounter + 1 > maxIdleHandlers then some 0
    else (surplus maxIdleHandlers (idleCounter + 1) hs).map (· + 1)

def cleanup (serverName : QString) (s : HttpServer σ) : HttpServer σ :=
  let (maxIdleHandlers, settings) := value s.settings serverName minThreadsKey (.int 1)
  let s := { s with settings := settings }
  match surplus maxIdleHandlers.toInt 0 s.pool with
  | some place => { s with pool := s.pool.eraseIdx place }
  | none => s

def members (s : HttpServer σ) (h : PooledHandler σ) : Connection σ :=
  { h.connection with settings := s.settings, world := s.world }

def put (s : HttpServer σ) (place : Nat) (h : PooledHandler σ) : HttpServer σ :=
  { s with
    pool := s.pool.set place h
    settings := h.connection.settings
    world := h.connection.world }

/-- The thread of a handler takes a signal; `handleConnection` is the next call in its queue. -/
def signal (service : HttpRequest → Settings → σ → Answer σ) (s : HttpServer σ) (place : Nat)
    (h : PooledHandler σ) : ConnectionEvent → Except Fault (HttpServer σ)
  | .handleConnection peerAddress descriptorOk =>
    match h.queue with
    | [] => .ok s
    | descriptor :: queue =>
      let s' := s.put place
        ⟨queue, descriptor, (s.members h).handleConnection peerAddress descriptorOk⟩
      .ok { s' with failed := if descriptorOk then s.failed else s.failed ++ [descriptor] }
  | event => do
    let c ← (s.members h).step service event
    let s' := s.put place { h with connection := c }
    return { s' with closed := if h.connection.isOpen && !c.isOpen then s.closed ++ [h.descriptor] else s.closed }

def step (serverName : QString) (service : HttpRequest → Settings → σ → Answer σ) (s : HttpServer σ) :
    ServerEvent → Except Fault (HttpServer σ)
  | .incomingConnection descriptor members => .ok (s.incomingConnection serverName descriptor members)
  | .cleanup => .ok (s.cleanup serverName)
  | .signal place event =>
    match s.pool[place]? with
    | none => .ok s
    | some h => s.signal service place h event

/-! ### A handler at a place -/

theorem exists_split {α : Type*} {l : List α} {i : Nat} {a : α} (h : l[i]? = some a) :
    ∃ before after, l = before ++ a :: after ∧ i = before.length := by
  obtain ⟨hi, rfl⟩ := List.getElem?_eq_some_iff.mp h
  refine ⟨l.take i, l.drop (i + 1), ?_, by simp; omega⟩
  rw [← List.drop_eq_getElem_cons hi, List.take_append_drop]

theorem modify_place {α : Type*} (f : α → α) (before after : List α) (a : α) :
    (before ++ a :: after).modify before.length f = before ++ f a :: after := by
  induction before with
  | nil => rfl
  | cons b before ih => simp [ih]

theorem set_place {α : Type*} (b : α) (before after : List α) (a : α) :
    (before ++ a :: after).set before.length b = before ++ b :: after := by simp

theorem eraseIdx_place {α : Type*} (before after : List α) (a : α) :
    (before ++ a :: after).eraseIdx before.length = before ++ after := by
  rw [List.eraseIdx_append_of_length_le le_rfl]
  simp

theorem surplus_cases {maxIdleHandlers idleCounter : Int} {pool : List (PooledHandler σ)} {place : Nat}
    (h : surplus maxIdleHandlers idleCounter pool = some place) :
    ∃ before h after, pool = before ++ h :: after ∧ place = before.length ∧ h.connection.busy = false := by
  induction pool generalizing idleCounter place with
  | nil => cases h
  | cons hd pool ih =>
    rw [surplus] at h
    split_ifs at h with hbusy hmany
    · obtain ⟨place', hrest, rfl⟩ := Option.map_eq_some_iff.mp h
      obtain ⟨before, g, after, rfl, rfl, hfree⟩ := ih hrest
      exact ⟨hd :: before, g, after, rfl, rfl, hfree⟩
    · cases h
      exact ⟨[], hd, pool, rfl, rfl, Bool.eq_false_iff.mpr hbusy⟩
    · obtain ⟨place', hrest, rfl⟩ := Option.map_eq_some_iff.mp h
      obtain ⟨before, g, after, rfl, rfl, hfree⟩ := ih hrest
      exact ⟨hd :: before, g, after, rfl, rfl, hfree⟩

theorem incomingConnection_cases (serverName : QString) (descriptor : Int)
    (members : HttpConnectionHandler) (s : HttpServer σ) :
    (∃ before h after, s.pool = before ++ h :: after ∧ h.connection.busy = false ∧
      s.incomingConnection serverName descriptor members =
        { s with pool := before ++ h.setBusy.post descriptor :: after }) ∨
    (∀ h ∈ s.pool, h.connection.busy = true) ∧ ∃ settings,
      settings = (value s.settings serverName maxThreadsKey (.int 100)).2 ∧
      ((s.pool.length : Int) < (value s.settings serverName maxThreadsKey (.int 100)).1.toInt ∧
        s.incomingConnection serverName descriptor members =
          { s with
            settings := settings
            pool := s.pool ++ [(PooledHandler.mk [] 0
              (Connection.idle members settings s.world)).setBusy.post descriptor] } ∨
      ¬ (s.pool.length : Int) < (value s.settings serverName maxThreadsKey (.int 100)).1.toInt ∧
        s.incomingConnection serverName descriptor members =
          { s with settings := settings, rejected := s.rejected ++ [descriptor] }) := by
  unfold incomingConnection getConnectionHandler
  cases hfind : s.pool.findIdx? fun h => !h.connection.busy with
  | some place =>
    obtain ⟨hlt, hfirst, -⟩ := List.findIdx?_eq_some_iff_getElem.mp hfind
    obtain ⟨h, hget, hfree⟩ : ∃ h, s.pool[place]? = some h ∧ h.connection.busy = false :=
      ⟨s.pool[place], List.getElem?_eq_getElem hlt, by simpa using hfirst⟩
    obtain ⟨before, after, hpool, rfl⟩ := exists_split hget
    refine .inl ⟨before, h, after, hpool, hfree, ?_⟩
    dsimp only
    rw [hpool, modify_place, modify_place]
  | none =>
    have hbusy := List.findIdx?_eq_none_iff.mp hfind
    refine .inr ⟨fun h hm => by simpa using hbusy h hm, _, rfl, ?_⟩
    dsimp only
    split_ifs with hroom
    · refine .inl ⟨hroom, ?_⟩
      dsimp only
      rw [modify_place]
    · exact .inr ⟨hroom, rfl⟩

theorem cleanup_cases (serverName : QString) (s : HttpServer σ) :
    ∃ settings, settings = (value s.settings serverName minThreadsKey (.int 1)).2 ∧
      (s.cleanup serverName = { s with settings := settings } ∨
      ∃ before h after, s.pool = before ++ h :: after ∧ h.connection.busy = false ∧
        s.cleanup serverName = { s with settings := settings, pool := before ++ after }) := by
  refine ⟨_, rfl, ?_⟩
  unfold cleanup
  dsimp only
  split
  · rename_i place hplace
    obtain ⟨before, h, after, hpool, rfl, hfree⟩ := surplus_cases hplace
    refine .inr ⟨before, h, after, hpool, hfree, ?_⟩
    rw [hpool, eraseIdx_place]
  · exact .inl rfl

end HttpServer

/-! ### What a handler answers for -/

namespace Connection
variable {σ : Type} {service : HttpRequest → Settings → σ → Answer σ}

theorem open_respond (service : HttpRequest → Settings → σ → Answer σ) (c : Connection σ) (r : Reading) :
    (c.respond service r).busy = c.busy ∧ (c.respond service r).isOpen = c.isOpen := by
  unfold respond
  dsimp only
  split_ifs <;> exact ⟨rfl, rfl⟩

theorem open_read {c c' : Connection σ} (hread : c.read service = .ok c') :
    c'.busy = c.busy ∧ c'.isOpen = c.isOpen := by
  obtain ⟨next, -, hnext⟩ := bind_eq_ok (x := c.pending.1.collect c.available) hread
  cases hnext
  have hloop : (c.afterLoop c.pending.2 next.1 next.2).busy = c.busy ∧
      (c.afterLoop c.pending.2 next.1 next.2).isOpen = c.isOpen := by
    unfold afterLoop
    dsimp only
    split_ifs <;> exact ⟨rfl, rfl⟩
  unfold dispatch
  split_ifs
  · exact hloop
  · obtain ⟨hbusy, hopen⟩ := open_respond service (c.afterLoop c.pending.2 next.1 next.2) next.1
    exact ⟨hbusy.trans hloop.1, hopen.trans hloop.2⟩
  · exact hloop

theorem open_step {c c' : Connection σ} {event : ConnectionEvent}
    (hevent : ∀ peerAddress descriptorOk, event ≠ .handleConnection peerAddress descriptorOk)
    (hstep : c.step service event = .ok c') :
    c'.busy = c.busy ∧ c'.isOpen = c.isOpen ∨
      c.isOpen = true ∧ c'.isOpen = false ∧ c'.busy = false := by
  cases event with
  | handleConnection peerAddress descriptorOk => exact absurd rfl (hevent peerAddress descriptorOk)
  | readyRead bytes =>
    simp only [step] at hstep
    split_ifs at hstep
    · exact .inl (open_read (c := { c with available := c.available ++ bytes }) hstep)
    · cases hstep
      exact .inl ⟨rfl, rfl⟩
  | readTimeout =>
    by_cases htimer : c.timer = true
    · simp only [step, if_pos htimer] at hstep
      cases hstep
      exact .inl ⟨rfl, rfl⟩
    · simp only [step, if_neg htimer] at hstep
      cases hstep
      exact .inl ⟨rfl, rfl⟩
  | disconnected =>
    simp only [step] at hstep
    split_ifs at hstep with hopen <;> cases hstep
    · exact .inr ⟨hopen, rfl, rfl⟩
    · exact .inl ⟨rfl, rfl⟩

theorem open_handleConnection (c : Connection σ) (peerAddress : Nat) (descriptorOk : Bool) :
    (c.handleConnection peerAddress descriptorOk).busy = true ∧
      (c.handleConnection peerAddress descriptorOk).isOpen = descriptorOk := by
  cases descriptorOk <;> exact ⟨rfl, rfl⟩

def keys : List QString :=
  [readTimeoutKey, enableIpfilterKey, Reading.maxRequestSizeKey, Reading.maxMultiPartSizeKey]

section settings
variable {R : Settings → Prop}

theorem settings_dispatch
    (hvalue : ∀ key ∈ keys, ∀ defaultVal s, R s → R (value s HttpRequestHandler.serverName key defaultVal).2)
    (hservice : ∀ request s w, R s → R (service request s w).settings) {c : Connection σ}
    (hc : R c.settings) (r : Reading) : R (c.dispatch service r).settings := by
  have hserve : R (c.serve service r.request).settings := by
    have hfilter := hvalue enableIpfilterKey (by simp [keys]) (.bool false) c.settings hc
    unfold serve
    split_ifs
    · dsimp only
      split_ifs
      · exact hfilter
      · exact hservice _ _ _ hfilter
    · exact hservice _ _ _ hc
  unfold dispatch respond
  dsimp only
  split_ifs
  · exact hc
  · exact hserve
  · exact hvalue readTimeoutKey (by simp [keys]) _ _ hserve
  · exact hc

theorem settings_read
    (hvalue : ∀ key ∈ keys, ∀ defaultVal s, R s → R (value s HttpRequestHandler.serverName key defaultVal).2)
    (hservice : ∀ request s w, R s → R (service request s w).settings) {c c' : Connection σ}
    (hc : R c.settings) (hread : c.read service = .ok c') : R c'.settings := by
  have hpending : R c.pending.2 := by
    unfold pending
    cases c.currentRequest with
    | some r => exact hc
    | none =>
      exact hvalue Reading.maxMultiPartSizeKey (by simp [keys]) _ _
        (hvalue Reading.maxRequestSizeKey (by simp [keys]) _ _ hc)
  obtain ⟨next, -, hnext⟩ := bind_eq_ok (x := c.pending.1.collect c.available) hread
  cases hnext
  have hloop : R (c.afterLoop c.pending.2 next.1 next.2).settings := by
    unfold afterLoop
    dsimp only
    split_ifs
    · exact hvalue readTimeoutKey (by simp [keys]) _ _ hpending
    · exact hpending
  exact settings_dispatch hvalue hservice hloop next.1

theorem settings_handleConnection
    (hvalue : ∀ key ∈ keys, ∀ defaultVal s, R s → R (value s HttpRequestHandler.serverName key defaultVal).2)
    {c : Connection σ} (hc : R c.settings) (peerAddress : Nat) (descriptorOk : Bool) :
    R (c.handleConnection peerAddress descriptorOk).settings := by
  cases descriptorOk with
  | false => exact hc
  | true =>
    exact hvalue readTimeoutKey (by simp [keys]) _ _ (hvalue enableIpfilterKey (by simp [keys]) _ _ hc)

theorem settings_step
    (hvalue : ∀ key ∈ keys, ∀ defaultVal s, R s → R (value s HttpRequestHandler.serverName key defaultVal).2)
    (hservice : ∀ request s w, R s → R (service request s w).settings) {c c' : Connection σ}
    {event : ConnectionEvent} (hc : R c.settings) (hstep : c.step service event = .ok c') :
    R c'.settings := by
  cases event with
  | handleConnection peerAddress descriptorOk =>
    simp only [step] at hstep
    split_ifs at hstep <;> cases hstep
    · exact hc
    · exact settings_handleConnection hvalue hc peerAddress descriptorOk
  | readyRead bytes =>
    simp only [step] at hstep
    split_ifs at hstep
    · exact settings_read (c := { c with available := c.available ++ bytes }) hvalue hservice hc hstep
    · cases hstep
      exact hc
  | readTimeout =>
    by_cases htimer : c.timer = true
    · simp only [step, if_pos htimer] at hstep
      cases hstep
      exact hc
    · simp only [step, if_neg htimer] at hstep
      cases hstep
      exact hc
  | disconnected =>
    simp only [step] at hstep
    split_ifs at hstep <;> cases hstep
    · exact hc
    · exact hc

end settings

end Connection

namespace PooledHandler
variable {σ : Type}

structure Sound (h : PooledHandler σ) : Prop where
  free : h.connection.busy = false → h.held = []
  one : h.held.length ≤ 1

def load (h : PooledHandler σ) : Nat := if h.connection.busy then 1 else 0

theorem Sound.load_eq {h : PooledHandler σ} (hs : h.Sound) :
    h.load = h.held.length + if h.isLost then 1 else 0 := by
  have hfree := hs.free
  have hone := hs.one
  unfold load isLost held at *
  cases hbusy : h.connection.busy with
  | false => simp [hfree hbusy]
  | true =>
    cases hqueue : h.queue with
    | nil => cases h.connection.isOpen <;> simp
    | cons d queue =>
      rw [hqueue] at hone
      cases hopen : h.connection.isOpen <;> simp [hopen] at hone ⊢
      omega

theorem sound_given {h : PooledHandler σ} (hs : h.Sound) (hfree : h.connection.busy = false)
    (descriptor : Int) : (h.setBusy.post descriptor).Sound ∧
      (h.setBusy.post descriptor).held = [descriptor] ∧
      (h.setBusy.post descriptor).isLost = false ∧ h.held = [] ∧ h.isLost = false := by
  have hheld := hs.free hfree
  obtain ⟨hqueue, hopen⟩ : h.queue = [] ∧ h.connection.isOpen = false := by
    simpa [held] using hheld
  have hgiven : (h.setBusy.post descriptor).held = [descriptor] := by
    simp [held, setBusy, post, hqueue, hopen]
  refine ⟨⟨fun hfree' => (by cases hfree'), by simp [hgiven]⟩, hgiven, ?_, hheld, ?_⟩
  · simp [isLost, setBusy, post, hqueue]
  · simp [isLost, hfree]

end PooledHandler

namespace HttpServer
variable {σ : Type} {service : HttpRequest → Settings → σ → Answer σ} {serverName : QString}

def account (s : HttpServer σ) : List Int :=
  s.rejected ++ s.failed ++ s.closed ++ s.pool.flatMap PooledHandler.held

/-- Each handler answers for one connection at most, and the lost ones are those whose
socket did not take its descriptor. -/
structure Sound (s : HttpServer σ) : Prop where
  handlers : ∀ h ∈ s.pool, h.Sound
  lost : s.pool.countP PooledHandler.isLost = s.failed.length

inductive Handled (s : HttpServer σ) (h : PooledHandler σ) (s' : HttpServer σ) (h' : PooledHandler σ) :
    Prop where
  | kept (held : h'.held = h.held) (lost : h'.isLost = h.isLost) (failed : s'.failed = s.failed)
      (closed : s'.closed = s.closed)
  | lost (descriptor : Int) (held : h.held = [descriptor]) (none : h'.held = [])
      (before : h.isLost = false) (after : h'.isLost = true)
      (failed : s'.failed = s.failed ++ [descriptor]) (closed : s'.closed = s.closed)
  | closed (descriptor : Int) (held : h.held = [descriptor]) (none : h'.held = [])
      (before : h.isLost = false) (after : h'.isLost = false) (failed : s'.failed = s.failed)
      (closed : s'.closed = s.closed ++ [descriptor])

theorem signal_eq {s s' : HttpServer σ} {place : Nat} {h : PooledHandler σ} {event : ConnectionEvent}
    (hevent : ∀ peerAddress descriptorOk, event ≠ .handleConnection peerAddress descriptorOk)
    (hsignal : s.signal service place h event = .ok s') :
    ∃ c, (s.members h).step service event = .ok c ∧
      s' = { s.put place { h with connection := c } with
        closed := if h.connection.isOpen && !c.isOpen then s.closed ++ [h.descriptor]
          else s.closed } := by
  have hbind : ((s.members h).step service event >>= fun c =>
      (.ok { s.put place { h with connection := c } with
        closed := if h.connection.isOpen && !c.isOpen then s.closed ++ [h.descriptor]
          else s.closed } : Except Fault (HttpServer σ))) = .ok s' := by
    cases event with
    | handleConnection peerAddress descriptorOk => exact absurd rfl (hevent peerAddress descriptorOk)
    | readyRead bytes => exact hsignal
    | readTimeout => exact hsignal
    | disconnected => exact hsignal
  obtain ⟨c, hstep, hc⟩ := bind_eq_ok hbind
  exact ⟨c, hstep, (Except.ok.inj hc).symm⟩

theorem signal_cases {s s' : HttpServer σ} {place : Nat} {h : PooledHandler σ} {event : ConnectionEvent}
    (hget : s.pool[place]? = some h) (hs : h.Sound)
    (hsignal : s.signal service place h event = .ok s') :
    ∃ h' : PooledHandler σ, s'.pool = s.pool.set place h' ∧ s'.rejected = s.rejected ∧ h'.Sound ∧
      Handled s h s' h' := by
  by_cases hevent : ∀ peerAddress descriptorOk, event ≠ .handleConnection peerAddress descriptorOk
  · obtain ⟨c, hstep, rfl⟩ := signal_eq hevent hsignal
    refine ⟨{ h with connection := c }, rfl, rfl, ?_⟩
    rcases Connection.open_step hevent hstep with ⟨hbusy, hopen⟩ | ⟨hopen, hclosed, hfree⟩
    · have hbusy' : c.busy = h.connection.busy := hbusy
      have hopen' : c.isOpen = h.connection.isOpen := hopen
      have hheld : PooledHandler.held { h with connection := c } = h.held := by
        simp [PooledHandler.held, hopen']
      refine ⟨⟨fun hfree => hheld.trans (hs.free (hbusy'.symm.trans hfree)), hheld ▸ hs.one⟩,
        .kept hheld (by simp [PooledHandler.isLost, hbusy', hopen']) rfl (by simp [hopen'])⟩
    · have hopen' : h.connection.isOpen = true := hopen
      have hqueue : h.queue = [] := by
        have hone := hs.one
        simp only [PooledHandler.held, hopen', if_true, List.length_append, List.length_singleton] at hone
        exact List.length_eq_zero_iff.mp (by omega)
      have hnone : PooledHandler.held { h with connection := c } = [] := by
        simp [PooledHandler.held, hclosed, hqueue]
      refine ⟨⟨fun _ => hnone, by simp [hnone]⟩, .closed h.descriptor ?_ hnone ?_ ?_ rfl ?_⟩
      · simp [PooledHandler.held, hqueue, hopen']
      · simp [PooledHandler.isLost, hopen']
      · simp [PooledHandler.isLost, hfree]
      · simp [hopen', hclosed]
  · push Not at hevent
    obtain ⟨peerAddress, descriptorOk, rfl⟩ := hevent
    cases hqueue : h.queue with
    | nil =>
      simp only [signal, hqueue] at hsignal
      cases hsignal
      refine ⟨h, ?_, rfl, hs, .kept rfl rfl rfl rfl⟩
      obtain ⟨hplace, rfl⟩ := List.getElem?_eq_some_iff.mp hget
      exact (List.set_getElem_self hplace).symm
    | cons descriptor queue =>
      obtain ⟨hlast, hopen⟩ : queue = [] ∧ h.connection.isOpen = false := by
        have hone := hs.one
        cases hopen : h.connection.isOpen with
        | false =>
          simp only [PooledHandler.held, hqueue, hopen, List.length_append, List.length_cons] at hone
          exact ⟨List.length_eq_zero_iff.mp (by omega), rfl⟩
        | true =>
          simp [PooledHandler.held, hqueue, hopen] at hone
      obtain ⟨hbusy, hdone⟩ :=
        Connection.open_handleConnection (s.members h) peerAddress descriptorOk
      simp only [signal, hqueue, hlast] at hsignal
      cases hsignal
      have hheld : h.held = [descriptor] := by simp [PooledHandler.held, hqueue, hlast, hopen]
      have hbefore : h.isLost = false := by simp [PooledHandler.isLost, hqueue]
      refine ⟨_, rfl, rfl, ⟨fun hfree => absurd (hbusy.symm.trans hfree) (by simp), ?_⟩, ?_⟩
      · simp only [PooledHandler.held, hdone]
        cases descriptorOk <;> simp
      · cases descriptorOk with
        | true =>
          refine .kept ?_ ?_ rfl rfl
          · rw [hheld]
            simp [PooledHandler.held, hdone]
          · rw [hbefore]
            simp [PooledHandler.isLost, hdone]
        | false =>
          refine .lost descriptor hheld ?_ hbefore ?_ rfl rfl
          · simp [PooledHandler.held, hdone]
          · simp [PooledHandler.isLost, hdone, hbusy]

theorem Sound.place {s s' : HttpServer σ} {before after : List (PooledHandler σ)}
    {h h' : PooledHandler σ} (hs : s.Sound) (hpool : s.pool = before ++ h :: after)
    (hpool' : s'.pool = before ++ h' :: after) (hh' : h'.Sound)
    (hlost : s'.failed.length + h.isLost.toNat = s.failed.length + h'.isLost.toNat) : s'.Sound := by
  refine ⟨fun g hg => ?_, ?_⟩
  · rw [hpool'] at hg
    rcases List.mem_append.mp hg with hg | hg
    · exact hs.handlers g (by simp [hpool, hg])
    · rcases List.mem_cons.mp hg with rfl | hg
      · exact hh'
      · exact hs.handlers g (by simp [hpool, hg])
  · have hall := hs.lost
    rw [hpool, List.countP_append, List.countP_cons] at hall
    rw [hpool', List.countP_append, List.countP_cons]
    cases hl : h.isLost <;> cases hl' : h'.isLost <;> simp [hl, hl'] at hall hlost ⊢ <;> omega

theorem sound_incomingConnection {s : HttpServer σ} (hs : s.Sound) (descriptor : Int)
    (members : HttpConnectionHandler) :
    (s.incomingConnection serverName descriptor members).Sound ∧
      (descriptor :: s.account).Perm (s.incomingConnection serverName descriptor members).account := by
  rcases incomingConnection_cases serverName descriptor members s with
    ⟨before, h, after, hpool, hfree, heq⟩ | ⟨-, settings, -, ⟨-, heq⟩ | ⟨-, heq⟩⟩
  · obtain ⟨hgiven, hheld, hlost, hnone, hlost'⟩ :=
      PooledHandler.sound_given (hs.handlers h (by simp [hpool])) hfree descriptor
    rw [heq]
    refine ⟨hs.place hpool rfl hgiven (by rw [hlost, hlost']), ?_⟩
    refine List.perm_iff_count.mpr fun d => ?_
    simp only [account, hpool, List.flatMap_append, List.flatMap_cons, hheld, hnone,
      List.count_append, List.count_cons, List.count_nil]
    omega
  · have hidle : PooledHandler.Sound
        (PooledHandler.mk [] 0 (Connection.idle members settings s.world)) :=
      ⟨fun _ => rfl, Nat.zero_le 1⟩
    obtain ⟨hgiven, hheld, hlost, -, -⟩ := PooledHandler.sound_given hidle rfl descriptor
    rw [heq]
    refine ⟨⟨fun g hg => ?_, ?_⟩, ?_⟩
    · rcases List.mem_append.mp hg with hg | hg
      · exact hs.handlers g hg
      · exact List.mem_singleton.mp hg ▸ hgiven
    · rw [List.countP_append, List.countP_singleton, hlost]
      exact hs.lost
    · refine List.perm_iff_count.mpr fun d => ?_
      simp only [account, List.flatMap_append, List.flatMap_cons, List.flatMap_nil, hheld,
        List.count_append, List.count_cons, List.count_nil]
      omega
  · rw [heq]
    refine ⟨⟨hs.handlers, hs.lost⟩, List.perm_iff_count.mpr fun d => ?_⟩
    simp only [account, List.count_append, List.count_cons, List.count_nil]
    omega

theorem sound_cleanup (serverName : QString) {s : HttpServer σ} (hs : s.Sound) :
    (s.cleanup serverName).Sound ∧ (s.cleanup serverName).account = s.account := by
  obtain ⟨settings, -, heq | ⟨before, h, after, hpool, hfree, heq⟩⟩ := cleanup_cases serverName s
  · rw [heq]
    exact ⟨⟨hs.handlers, hs.lost⟩, rfl⟩
  · have hheld : h.held = [] := (hs.handlers h (by simp [hpool])).free hfree
    have hlost : h.isLost = false := by simp [PooledHandler.isLost, hfree]
    rw [heq]
    refine ⟨⟨fun g hg => hs.handlers g ?_, ?_⟩, by simp [account, hpool, hheld]⟩
    · rw [hpool]
      exact List.mem_append.mpr ((List.mem_append.mp hg).imp id (List.mem_cons_of_mem h))
    · have hall := hs.lost
      rw [hpool, List.countP_append, List.countP_cons, hlost] at hall
      simpa using hall

theorem sound_signal {s s' : HttpServer σ} {before after : List (PooledHandler σ)} {h : PooledHandler σ}
    {event : ConnectionEvent} (hs : s.Sound) (hpool : s.pool = before ++ h :: after)
    (hsignal : s.signal service before.length h event = .ok s') :
    s'.Sound ∧ s.account.Perm s'.account := by
  have hh : h.Sound := hs.handlers h (by simp [hpool])
  obtain ⟨h', hpool', hrejected, hh', hcase⟩ := signal_cases (by simp [hpool]) hh hsignal
  rw [hpool, set_place] at hpool'
  cases hcase with
  | kept hheld hlost hfailed hclosed =>
    refine ⟨hs.place hpool hpool' hh' (by rw [hlost, hfailed]), ?_⟩
    simp [account, hpool, hpool', hheld, hrejected, hfailed, hclosed]
  | lost descriptor hheld hnone hbefore hafter hfailed hclosed =>
    refine ⟨hs.place hpool hpool' hh' (by simp [hbefore, hafter, hfailed]), ?_⟩
    refine List.perm_iff_count.mpr fun d => ?_
    simp only [account, hpool, hpool', hheld, hnone, hrejected, hfailed, hclosed,
      List.flatMap_append, List.flatMap_cons, List.count_append, List.count_nil]
    omega
  | closed descriptor hheld hnone hbefore hafter hfailed hclosed =>
    refine ⟨hs.place hpool hpool' hh' (by rw [hbefore, hafter, hfailed]), ?_⟩
    refine List.perm_iff_count.mpr fun d => ?_
    simp only [account, hpool, hpool', hheld, hnone, hrejected, hfailed, hclosed,
      List.flatMap_append, List.flatMap_cons, List.count_append, List.count_nil]
    omega

theorem sound_step {s s' : HttpServer σ} {event : ServerEvent} (hs : s.Sound)
    (hstep : s.step serverName service event = .ok s') :
    s'.Sound ∧ (event.arrivals ++ s.account).Perm s'.account := by
  cases event with
  | incomingConnection descriptor members =>
    cases hstep
    exact sound_incomingConnection hs descriptor members
  | cleanup =>
    cases hstep
    obtain ⟨hsound, haccount⟩ := sound_cleanup serverName hs
    exact ⟨hsound, by rw [haccount]; rfl⟩
  | signal place event =>
    simp only [step] at hstep
    split at hstep
    · cases hstep
      exact ⟨hs, List.Perm.refl _⟩
    · rename_i h hget
      obtain ⟨before, after, hpool, rfl⟩ := exists_split hget
      exact sound_signal hs hpool hstep

theorem signal_put {s s' : HttpServer σ} {place : Nat} {h : PooledHandler σ} {event : ConnectionEvent}
    (hsignal : s.signal service place h event = .ok s') :
    s' = s ∨ ∃ h' : PooledHandler σ, s'.pool = s.pool.set place h' ∧
      s'.settings = h'.connection.settings ∧
      ((∃ peerAddress descriptorOk,
        h'.connection = (s.members h).handleConnection peerAddress descriptorOk) ∨
      (s.members h).step service event = .ok h'.connection) := by
  by_cases hevent : ∀ peerAddress descriptorOk, event ≠ .handleConnection peerAddress descriptorOk
  · obtain ⟨c, hstep, rfl⟩ := signal_eq hevent hsignal
    exact .inr ⟨_, rfl, rfl, .inr hstep⟩
  · push Not at hevent
    obtain ⟨peerAddress, descriptorOk, rfl⟩ := hevent
    simp only [signal] at hsignal
    split at hsignal <;> cases hsignal
    · exact .inl rfl
    · exact .inr ⟨_, rfl, rfl, .inl ⟨peerAddress, descriptorOk, rfl⟩⟩

/-! ### How many there are -/

def maxThreadsOf (serverName : QString) (settings : Settings) : Int :=
  (value settings serverName maxThreadsKey (.int 100)).1.toInt

theorem maxThreadsOf_value (serverName group : QString) {key : QString} (hkey : key ≠ maxThreadsKey)
    (defaultVal : QVariant) (settings : Settings) :
    maxThreadsOf serverName (value settings group key defaultVal).2 = maxThreadsOf serverName settings := by
  rw [maxThreadsOf, value_value_of_ne rfl hkey, maxThreadsOf]

structure Bounded (serverName : QString) (maxThreads : Int) (s : HttpServer σ) : Prop where
  setting : maxThreadsOf serverName s.settings = maxThreads
  fits : (s.pool.length : Int) ≤ max 0 maxThreads

theorem bounded_step {maxThreads : Int} (hservice : ∀ request s w,
      maxThreadsOf serverName (service request s w).settings = maxThreadsOf serverName s)
    {s s' : HttpServer σ} {event : ServerEvent} (hs : Bounded serverName maxThreads s)
    (hstep : s.step serverName service event = .ok s') : Bounded serverName maxThreads s' := by
  have hvalue : ∀ key ∈ Connection.keys, ∀ defaultVal settings,
      maxThreadsOf serverName settings = maxThreads →
      maxThreadsOf serverName (value settings HttpRequestHandler.serverName key defaultVal).2 = maxThreads := by
    intro key hkey defaultVal settings hsettings
    have hne : key ≠ maxThreadsKey := fun he => absurd (he ▸ hkey) (by decide)
    rw [maxThreadsOf_value _ _ hne, hsettings]
  cases event with
  | incomingConnection descriptor members =>
    cases hstep
    have hread : maxThreadsOf serverName (value s.settings serverName maxThreadsKey (.int 100)).2 =
        maxThreads := by
      rw [maxThreadsOf, value_value rfl (fun _ => rfl)]
      exact hs.setting
    rcases incomingConnection_cases serverName descriptor members s with
      ⟨before, h, after, hpool, -, heq⟩ | ⟨-, settings, rfl, ⟨hroom, heq⟩ | ⟨-, heq⟩⟩
    · rw [heq]
      refine ⟨hs.setting, ?_⟩
      have hfits := hs.fits
      rw [hpool] at hfits
      simpa using hfits
    · rw [heq]
      refine ⟨hread, ?_⟩
      have hmax : (value s.settings serverName maxThreadsKey (.int 100)).1.toInt = maxThreads := hs.setting
      rw [hmax] at hroom
      simp only [List.length_append, List.length_singleton]
      omega
    · rw [heq]
      exact ⟨hread, hs.fits⟩
  | cleanup =>
    cases hstep
    have hread : maxThreadsOf serverName (value s.settings serverName minThreadsKey (.int 1)).2 =
        maxThreads := by rw [maxThreadsOf_value _ _ (by decide), hs.setting]
    obtain ⟨settings, rfl, heq | ⟨before, h, after, hpool, -, heq⟩⟩ := cleanup_cases serverName s
    · rw [heq]
      exact ⟨hread, hs.fits⟩
    · rw [heq]
      refine ⟨hread, ?_⟩
      have hfits := hs.fits
      rw [hpool] at hfits
      simp only [List.length_append, List.length_cons] at hfits ⊢
      omega
  | signal place event =>
    simp only [step] at hstep
    split at hstep
    · cases hstep
      exact hs
    · rename_i h hget
      obtain rfl | ⟨h', hpool, hsettings, hconnection⟩ := signal_put hstep
      · exact hs
      · have hread : maxThreadsOf serverName h'.connection.settings = maxThreads := by
          rcases hconnection with ⟨peerAddress, descriptorOk, heq⟩ | hconnection
          · rw [heq]
            exact Connection.settings_handleConnection (c := s.members h) hvalue hs.setting
              peerAddress descriptorOk
          · exact Connection.settings_step (c := s.members h)
              (R := fun settings => maxThreadsOf serverName settings = maxThreads) hvalue
              (fun request settings w hsettings => (hservice request settings w).trans hsettings)
              hs.setting hconnection
        refine ⟨hsettings ▸ hread, ?_⟩
        rw [hpool, List.length_set]
        exact hs.fits

theorem Sound.busy {s : HttpServer σ} (hs : s.Sound) :
    s.pool.countP (fun h => h.connection.busy) =
      (s.pool.flatMap PooledHandler.held).length + s.failed.length := by
  rw [← hs.lost]
  have hall := hs.handlers
  generalize s.pool = pool at hall ⊢
  induction pool with
  | nil => rfl
  | cons h pool ih =>
    have hload := (hall h List.mem_cons_self).load_eq
    have hrest := ih fun g hg => hall g (List.mem_cons_of_mem h hg)
    rw [PooledHandler.load] at hload
    rw [List.countP_cons, List.countP_cons, List.flatMap_cons, List.length_append, hrest]
    omega

/-- A connection is turned away exactly when the connections that are being served or wait
for their handler, with those that were lost, are as many as there may be threads. -/
theorem rejected_incomingConnection {maxThreads : Int} {s : HttpServer σ} (hs : s.Sound)
    (hbound : Bounded serverName maxThreads s) (descriptor : Int) (members : HttpConnectionHandler) :
    (s.incomingConnection serverName descriptor members).rejected =
      if maxThreads ≤ (s.pool.flatMap PooledHandler.held).length + s.failed.length then
        s.rejected ++ [descriptor]
      else s.rejected := by
  have hbusy := hs.busy
  have hfits := hbound.fits
  rcases incomingConnection_cases serverName descriptor members s with
    ⟨before, h, after, hpool, hfree, heq⟩ | ⟨hall, settings, -, ⟨hroom, heq⟩ | ⟨hroom, heq⟩⟩
  · have hfewer : s.pool.countP (fun h => h.connection.busy) < s.pool.length := by
      rw [List.countP_lt_length_iff]
      exact ⟨h, by simp [hpool], by simp [hfree]⟩
    rw [heq, if_neg (by omega)]
  · have hfull : s.pool.countP (fun h => h.connection.busy) = s.pool.length :=
      List.countP_eq_length.mpr hall
    have hmax : (s.pool.length : Int) < maxThreads := hbound.setting ▸ hroom
    rw [heq, if_neg (by omega)]
  · have hfull : s.pool.countP (fun h => h.connection.busy) = s.pool.length :=
      List.countP_eq_length.mpr hall
    have hmax : ¬ (s.pool.length : Int) < maxThreads := hbound.setting ▸ hroom
    rw [heq, if_pos (by omega)]

theorem sound_run {settings : Settings} {w : σ} {events : List ServerEvent} {s : HttpServer σ}
    (hrun : events.foldlM (step serverName service) (start settings w) = .ok s) :
    s.Sound ∧ (events.flatMap ServerEvent.arrivals).Perm s.account := by
  have hall : ∀ (events : List ServerEvent) (s s' : HttpServer σ), s.Sound →
      events.foldlM (step serverName service) s = .ok s' →
      s'.Sound ∧ (events.flatMap ServerEvent.arrivals ++ s.account).Perm s'.account := by
    intro events
    induction events with
    | nil =>
      intro s s' hs hrun
      cases hrun
      exact ⟨hs, List.Perm.refl _⟩
    | cons event events ih =>
      intro s s' hs hrun
      rw [List.foldlM_cons] at hrun
      obtain ⟨t, hstep, hrun⟩ := bind_eq_ok hrun
      obtain ⟨ht, haccount⟩ := sound_step hs hstep
      obtain ⟨hs', hrest⟩ := ih t s' ht hrun
      refine ⟨hs', List.Perm.trans ?_ hrest⟩
      rw [List.flatMap_cons]
      refine List.Perm.trans ?_ (haccount.append_left _)
      rw [← List.append_assoc]
      exact List.perm_append_comm.append_right _
  have hstart : (start settings w).Sound := ⟨fun h hh => absurd hh List.not_mem_nil, rfl⟩
  obtain ⟨hs, haccount⟩ := hall events _ s hstart hrun
  exact ⟨hs, by simpa [account, start] using haccount⟩

theorem bounded_run (hservice : ∀ request s w,
      maxThreadsOf serverName (service request s w).settings = maxThreadsOf serverName s)
    {settings : Settings} {w : σ} {events : List ServerEvent} {s : HttpServer σ}
    (hrun : events.foldlM (step serverName service) (start settings w) = .ok s) :
    Bounded serverName (maxThreadsOf serverName settings) s :=
  Runs.invariant_of_foldlM (fun _ _ _ hs hstep => bounded_step hservice hs hstep)
    ⟨rfl, le_max_left _ _⟩ hrun

/-- However clients come, talk and go: each connection the listener has accepted is in one
place, turned away, refused by its socket, disconnected or with one handler, which is busy
and has no other; and there are no more handlers than threads. -/
theorem accounted_run (hservice : ∀ request s w,
      maxThreadsOf serverName (service request s w).settings = maxThreadsOf serverName s)
    {settings : Settings} {w : σ} {events : List ServerEvent} {s : HttpServer σ}
    (hrun : events.foldlM (step serverName service) (start settings w) = .ok s) :
    (events.flatMap ServerEvent.arrivals).Perm
        (s.rejected ++ s.failed ++ s.closed ++ s.pool.flatMap PooledHandler.held) ∧
      (∀ h ∈ s.pool, h.held.length ≤ 1 ∧ (h.connection.busy = false → h.held = [])) ∧
      (s.pool.length : Int) ≤ max 0 (maxThreadsOf serverName settings) := by
  obtain ⟨hs, haccount⟩ := sound_run hrun
  exact ⟨haccount, fun h hh => ⟨(hs.handlers h hh).one, (hs.handlers h hh).free⟩,
    (bounded_run hservice hrun).fits⟩

theorem accounted_run_two_clients : ∃ s : HttpServer Nat,
    [ServerEvent.incomingConnection 7 ⟨[], [], false⟩, .signal 0 (.handleConnection 0 true),
        .incomingConnection 8 ⟨[], [], false⟩].foldlM
        (step HttpRequestHandler.serverName fun _ s n => ⟨[], s, n⟩) (start [] 0) = .ok s ∧
      [7, 8].Perm (s.rejected ++ s.failed ++ s.closed ++ s.pool.flatMap PooledHandler.held) ∧
      (∀ h ∈ s.pool, h.held.length ≤ 1 ∧ (h.connection.busy = false → h.held = [])) ∧
      (s.pool.length : Int) ≤ max 0 (maxThreadsOf HttpRequestHandler.serverName []) := by
  obtain ⟨s, hrun⟩ : ∃ s : HttpServer Nat,
      [ServerEvent.incomingConnection 7 ⟨[], [], false⟩, .signal 0 (.handleConnection 0 true),
        .incomingConnection 8 ⟨[], [], false⟩].foldlM
        (step HttpRequestHandler.serverName fun _ s n => ⟨[], s, n⟩) (start [] 0) = .ok s := ⟨_, rfl⟩
  exact ⟨s, hrun, accounted_run (fun _ _ _ => rfl) hrun⟩

/-- A descriptor that its socket does not take costs a thread for good: from then on one
client less is served at a time. -/
theorem rejected_run (hservice : ∀ request s w,
      maxThreadsOf serverName (service request s w).settings = maxThreadsOf serverName s)
    {settings : Settings} {w : σ} {events : List ServerEvent} {s : HttpServer σ}
    (hrun : events.foldlM (step serverName service) (start settings w) = .ok s) (descriptor : Int)
    (members : HttpConnectionHandler) :
    (s.incomingConnection serverName descriptor members).rejected =
      if maxThreadsOf serverName settings ≤
          (s.pool.flatMap PooledHandler.held).length + s.failed.length then
        s.rejected ++ [descriptor]
      else s.rejected :=
  rejected_incomingConnection (sound_run hrun).1 (bounded_run hservice hrun) descriptor members

theorem rejected_run_bad_descriptor : ∃ s : HttpServer Nat,
    [ServerEvent.incomingConnection 7 ⟨[], [], false⟩, .signal 0 (.handleConnection 0 false)].foldlM
        (step HttpRequestHandler.serverName fun _ s n => ⟨[], s, n⟩) (start [] 0) = .ok s ∧
      (s.incomingConnection HttpRequestHandler.serverName 8 ⟨[], [], false⟩).rejected =
        if maxThreadsOf HttpRequestHandler.serverName [] ≤
            (s.pool.flatMap PooledHandler.held).length + s.failed.length then
          s.rejected ++ [8]
        else s.rejected := by
  obtain ⟨s, hrun⟩ : ∃ s : HttpServer Nat,
      [ServerEvent.incomingConnection 7 ⟨[], [], false⟩, .signal 0 (.handleConnection 0 false)].foldlM
        (step HttpRequestHandler.serverName fun _ s n => ⟨[], s, n⟩) (start [] 0) = .ok s := ⟨_, rfl⟩
  exact ⟨s, hrun, rejected_run (fun _ _ _ => rfl) hrun 8 ⟨[], [], false⟩⟩

/-! ### What they hold -/

def stored (c : Connection σ) : Int :=
  match c.currentRequest with
  | none => 0
  | some r => r.currentSize + r.tempFile.length

section memory
variable {maxSize maxMultiPartSize : Int}

theorem stored_le {c : Connection σ} (h : c.Safe maxSize maxMultiPartSize) (hlimit : 0 ≤ maxSize) :
    stored c ≤ maxSize + max 0 maxMultiPartSize := by
  unfold stored
  cases hr : c.currentRequest with
  | none => exact Int.add_nonneg hlimit (le_max_left _ _)
  | some r =>
    obtain ⟨hopen, hgoes, hmax, hmulti⟩ := h.request r hr
    have hfits := hopen.fits hgoes
    have hfile : (r.tempFile.length : Int) ≤ max 0 maxMultiPartSize := by
      rcases Reading.lineState_or_body hgoes with hline | hstatus
      · simp [(hopen.lines hline).2.1]
      · by_cases hboundary : r.boundary = []
        · simp [(hopen.body hstatus hboundary).2]
        · obtain ⟨⟨-, hempty | hlt⟩, -, hsize⟩ := hopen.file hstatus hboundary
          · simp [hempty]
          · omega
    dsimp only
    omega

theorem safe_share {c : Connection σ} (h : c.Safe maxSize maxMultiPartSize) {settings : Settings}
    (hsettings : Connection.maxSizeOf settings = maxSize ∧
      Connection.maxMultiPartSizeOf settings = maxMultiPartSize) (w : σ) :
    Connection.Safe maxSize maxMultiPartSize { c with settings := settings, world := w } :=
  ⟨⟨hsettings, h.request, h.watched⟩, h.unread⟩

structure Limited (maxSize maxMultiPartSize : Int) (s : HttpServer σ) : Prop where
  limits : Connection.maxSizeOf s.settings = maxSize ∧
    Connection.maxMultiPartSizeOf s.settings = maxMultiPartSize
  handlers : ∀ h ∈ s.pool, h.connection.Safe maxSize maxMultiPartSize

theorem Limited.share {s s' : HttpServer σ} (hs : Limited maxSize maxMultiPartSize s)
    (hpool : s'.pool ⊆ s.pool) (hsettings : Connection.SameLimits s'.settings s.settings) :
    Limited maxSize maxMultiPartSize s' :=
  ⟨Connection.limits_of_sameLimits hsettings hs.limits, fun h hh => hs.handlers h (hpool hh)⟩

theorem sameLimits_value_of_ne (group key : QString)
    (hkey : key ≠ Reading.maxRequestSizeKey ∧ key ≠ Reading.maxMultiPartSizeKey)
    (defaultVal : QVariant) (settings : Settings) :
    Connection.SameLimits (value settings group key defaultVal).2 settings := by
  constructor
  · rw [Connection.maxSizeOf, Connection.maxSizeOf, value_value_of_ne (by rfl) hkey.1]
  · rw [Connection.maxMultiPartSizeOf, Connection.maxMultiPartSizeOf, value_value_of_ne (by rfl) hkey.2]

theorem limited_incomingConnection {s : HttpServer σ} (hs : Limited maxSize maxMultiPartSize s)
    (descriptor : Int) (members : HttpConnectionHandler) :
    Limited maxSize maxMultiPartSize (s.incomingConnection serverName descriptor members) := by
  have hsettings := sameLimits_value_of_ne serverName maxThreadsKey
    (by decide) (.int 100) s.settings
  have hgiven : ∀ h : PooledHandler σ, h.connection.Safe maxSize maxMultiPartSize →
      (h.setBusy.post descriptor).connection.Safe maxSize maxMultiPartSize := fun h hh =>
    ⟨⟨hh.limits, hh.request, hh.watched⟩, hh.unread⟩
  rcases incomingConnection_cases serverName descriptor members s with
    ⟨before, h, after, hpool, -, heq⟩ | ⟨-, settings, rfl, ⟨-, heq⟩ | ⟨-, heq⟩⟩
  · rw [heq]
    refine ⟨hs.limits, fun g hg => ?_⟩
    rcases List.mem_append.mp hg with hg | hg
    · exact hs.handlers g (by simp [hpool, hg])
    · rcases List.mem_cons.mp hg with rfl | hg
      · exact hgiven h (hs.handlers h (by simp [hpool]))
      · exact hs.handlers g (by simp [hpool, hg])
  · rw [heq]
    have hlimits := Connection.limits_of_sameLimits hsettings hs.limits
    refine ⟨hlimits, fun g hg => ?_⟩
    rcases List.mem_append.mp hg with hg | hg
    · exact hs.handlers g hg
    · rw [List.mem_singleton.mp hg]
      exact hgiven _ ⟨⟨hlimits, fun r hr => (by cases hr), fun hopen => (by cases hopen)⟩,
        fun hopen => (by cases hopen)⟩
  · rw [heq]
    exact hs.share (List.Subset.refl _) hsettings

theorem limited_signal (hservice : ∀ request s w,
      Connection.SameLimits (service request s w).settings s)
    (hlimit : 0 ≤ maxSize ∧ maxSize < 2 ^ 31 - 1) {s s' : HttpServer σ} {place : Nat}
    {h : PooledHandler σ} {event : ConnectionEvent} (hs : Limited maxSize maxMultiPartSize s)
    (hget : s.pool[place]? = some h) (hsignal : s.signal service place h event = .ok s') :
    Limited maxSize maxMultiPartSize s' := by
  obtain rfl | ⟨h', hpool, hsettings, hconnection⟩ := signal_put hsignal
  · exact hs
  · have hsafe : (s.members h).Safe maxSize maxMultiPartSize :=
      safe_share (hs.handlers h (List.mem_of_getElem? hget)) hs.limits s.world
    have hsafe' : h'.connection.Safe maxSize maxMultiPartSize := by
      rcases hconnection with ⟨peerAddress, descriptorOk, heq⟩ | hstep
      · rw [heq]
        exact hsafe.handleConnection peerAddress descriptorOk
      · exact Connection.safe_step hservice hlimit hsafe hstep
    refine ⟨hsettings ▸ hsafe'.limits, fun g hg => ?_⟩
    rw [hpool] at hg
    rcases List.mem_or_eq_of_mem_set hg with hg | rfl
    · exact hs.handlers g hg
    · exact hsafe'

theorem limited_step (hservice : ∀ request s w,
      Connection.SameLimits (service request s w).settings s)
    (hlimit : 0 ≤ maxSize ∧ maxSize < 2 ^ 31 - 1) {s s' : HttpServer σ} {event : ServerEvent}
    (hs : Limited maxSize maxMultiPartSize s) (hstep : s.step serverName service event = .ok s') :
    Limited maxSize maxMultiPartSize s' := by
  cases event with
  | incomingConnection descriptor members =>
    cases hstep
    exact limited_incomingConnection hs descriptor members
  | cleanup =>
    cases hstep
    have hsettings := sameLimits_value_of_ne serverName minThreadsKey
      (by decide) (.int 1) s.settings
    obtain ⟨settings, rfl, heq | ⟨before, h, after, hpool, -, heq⟩⟩ := cleanup_cases serverName s
    · rw [heq]
      exact hs.share (List.Subset.refl _) hsettings
    · rw [heq]
      refine hs.share (fun g hg => ?_) hsettings
      rw [hpool]
      exact List.mem_append.mpr ((List.mem_append.mp hg).imp id (List.mem_cons_of_mem h))
  | signal place event =>
    simp only [step] at hstep
    split at hstep
    · cases hstep
      exact hs
    · rename_i h hget
      exact limited_signal hservice hlimit hs hget hstep

end memory

/-- All clients together make the server hold no more than its settings allow a request,
times the threads they allow. -/
theorem memory_run (hservice : ∀ request s w,
      maxThreadsOf serverName (service request s w).settings = maxThreadsOf serverName s ∧
        Connection.SameLimits (service request s w).settings s)
    {settings : Settings} {w : σ}
    (hlimit : 0 ≤ Connection.maxSizeOf settings ∧ Connection.maxSizeOf settings < 2 ^ 31 - 1)
    {events : List ServerEvent} {s : HttpServer σ}
    (hrun : events.foldlM (step serverName service) (start settings w) = .ok s) :
    (s.pool.map fun h => stored h.connection).sum ≤ max 0 (maxThreadsOf serverName settings) *
      (Connection.maxSizeOf settings + max 0 (Connection.maxMultiPartSizeOf settings)) := by
  have hstart : Limited (Connection.maxSizeOf settings) (Connection.maxMultiPartSizeOf settings)
      (start settings w) := ⟨⟨rfl, rfl⟩, fun h hh => absurd hh List.not_mem_nil⟩
  have hlimited := Runs.invariant_of_foldlM
    (fun _ _ _ hs hstep => limited_step (fun request s w => (hservice request s w).2) hlimit hs hstep)
    hstart hrun
  have hfits := (bounded_run (fun request s w => (hservice request s w).1) hrun).fits
  have hsum := List.sum_le_card_nsmul (s.pool.map fun h => stored h.connection)
    (Connection.maxSizeOf settings + max 0 (Connection.maxMultiPartSizeOf settings)) (by
      intro n hn
      obtain ⟨h, hh, rfl⟩ := List.mem_map.mp hn
      exact stored_le (hlimited.handlers h hh) hlimit.1)
  rw [List.length_map, nsmul_eq_mul] at hsum
  have hnonneg : 0 ≤ Connection.maxSizeOf settings + max 0 (Connection.maxMultiPartSizeOf settings) :=
    Int.add_nonneg hlimit.1 (le_max_left _ _)
  exact hsum.trans (Int.mul_le_mul_of_nonneg_right hfits hnonneg)

theorem memory_run_partial_request : ∃ s : HttpServer Nat,
    [ServerEvent.incomingConnection 7 ⟨[], [], false⟩, .signal 0 (.handleConnection 0 true),
        .signal 0 (.readyRead (literal "GET / HTTP/1.1\r\n"))].foldlM
        (step HttpRequestHandler.serverName fun _ s n => ⟨[], s, n⟩) (start [] 0) = .ok s ∧
      (s.pool.map fun h => stored h.connection).sum ≤
        max 0 (maxThreadsOf HttpRequestHandler.serverName []) *
          (Connection.maxSizeOf [] + max 0 (Connection.maxMultiPartSizeOf [])) := by
  obtain ⟨s, hrun⟩ : ∃ s : HttpServer Nat,
      [ServerEvent.incomingConnection 7 ⟨[], [], false⟩, .signal 0 (.handleConnection 0 true),
        .signal 0 (.readyRead (literal "GET / HTTP/1.1\r\n"))].foldlM
        (step HttpRequestHandler.serverName fun _ s n => ⟨[], s, n⟩) (start [] 0) = .ok s := ⟨_, rfl⟩
  exact ⟨s, hrun, memory_run (fun _ _ _ => ⟨rfl, rfl, rfl⟩) (by decide) hrun⟩

/-! ### Handlers without work -/

def idleHandlers (s : HttpServer σ) : Nat := s.pool.countP fun h => !h.connection.busy

def minThreadsOf (serverName : QString) (settings : Settings) : Int :=
  (value settings serverName minThreadsKey (.int 1)).1.toInt

theorem surplus_eq_none {maxIdleHandlers idleCounter : Int} {pool : List (PooledHandler σ)} :
    surplus maxIdleHandlers idleCounter pool = none ↔
      pool.countP (fun h => !h.connection.busy) = 0 ∨
        idleCounter + pool.countP (fun h => !h.connection.busy) ≤ maxIdleHandlers := by
  induction pool generalizing idleCounter with
  | nil => simp [surplus]
  | cons h pool ih =>
    rw [surplus, List.countP_cons]
    cases hbusy : h.connection.busy with
    | true =>
      simp only [if_true, Option.map_eq_none_iff, ih, Bool.not_true, Bool.false_eq_true, if_false,
        Nat.add_zero]
    | false =>
      simp only [Bool.false_eq_true, if_false, Bool.not_false, if_true]
      by_cases hmany : idleCounter + 1 > maxIdleHandlers
      · rw [if_pos hmany]
        simp only [reduceCtorEq, false_iff, Nat.succ_ne_zero, false_or]
        omega
      · rw [if_neg hmany, Option.map_eq_none_iff, ih]
        omega

theorem idleHandlers_cleanup (serverName : QString) (s : HttpServer σ) :
    (s.cleanup serverName).idleHandlers =
        (if minThreadsOf serverName s.settings < s.idleHandlers then s.idleHandlers - 1 else s.idleHandlers) ∧
      (s.cleanup serverName).pool.filter (fun h => h.connection.busy) =
        s.pool.filter (fun h => h.connection.busy) ∧
      minThreadsOf serverName (s.cleanup serverName).settings = minThreadsOf serverName s.settings := by
  have hread : minThreadsOf serverName (value s.settings serverName minThreadsKey (.int 1)).2 =
      minThreadsOf serverName s.settings := by
    rw [minThreadsOf, value_value rfl (fun _ => rfl), minThreadsOf]
  unfold cleanup idleHandlers
  dsimp only
  cases hplace : surplus (value s.settings serverName minThreadsKey (.int 1)).1.toInt 0 s.pool with
  | none =>
    have hfew := surplus_eq_none.mp hplace
    refine ⟨?_, rfl, hread⟩
    dsimp only
    split_ifs with hmany
    · have hmany' : (value s.settings serverName minThreadsKey (.int 1)).1.toInt <
          s.pool.countP fun h => !h.connection.busy := hmany
      omega
    · rfl
  | some place =>
    have hmany : ¬ (s.pool.countP (fun h => !h.connection.busy) = 0 ∨
        0 + (s.pool.countP (fun h => !h.connection.busy) : Int) ≤
          (value s.settings serverName minThreadsKey (.int 1)).1.toInt) := fun hfew =>
      absurd (surplus_eq_none.mpr hfew) (by simp [hplace])
    have hmin : minThreadsOf serverName s.settings < s.pool.countP fun h => !h.connection.busy := by
      rw [minThreadsOf]
      omega
    obtain ⟨before, h, after, hpool, rfl, hfree⟩ := surplus_cases hplace
    rw [if_pos hmin]
    dsimp only
    rw [hpool, eraseIdx_place]
    exact ⟨by simp [hfree], by simp [hfree], hread⟩

/-- Left alone, the pool loses one idle handler in each interval until as many are left as
may stay, and no handler that is at work. -/
theorem cleanup_iterate (serverName : QString) (s : HttpServer σ) (intervals : Nat) :
    ((cleanup serverName)^[intervals] s).idleHandlers =
        max (min s.idleHandlers (minThreadsOf serverName s.settings).toNat) (s.idleHandlers - intervals) ∧
      ((cleanup serverName)^[intervals] s).pool.filter (fun h => h.connection.busy) =
        s.pool.filter (fun h => h.connection.busy) := by
  induction intervals generalizing s with
  | zero => exact ⟨by simp, rfl⟩
  | succ intervals ih =>
    obtain ⟨hidle, hbusy, hmin⟩ := idleHandlers_cleanup serverName s
    obtain ⟨hidle', hbusy'⟩ := ih (s.cleanup serverName)
    rw [Function.iterate_succ_apply]
    refine ⟨?_, hbusy'.trans hbusy⟩
    rw [hidle', hmin, hidle]
    split_ifs <;> omega

end HttpServer
end CuteTorrent
