import CuteTorrent.AnnounceRequest
import CuteTorrent.HttpRequestHandler

/-! `TrackerRequestHandler`: the announces of the built-in tracker and the peers
it knows of each torrent. -/
namespace CuteTorrent

/-- `QByteArray::toInt`, with 0 for what it cannot read. -/
def byteArrayToInt (s : QByteArray) : Int :=
  let signed := (cString s).dropWhile Bencode.isSpace
  let digits := match signed with
    | 45 :: t => t
    | 43 :: t => t
    | t => t
  if digits ≠ [] ∧ digits.all Bencode.isDigit then
    let n : Int := if signed.head? = some 45 then -Bencode.digitsValue digits
      else Bencode.digitsValue digits
    if -2 ^ 31 ≤ n ∧ n < 2 ^ 31 then n else 0
  else 0

example : byteArrayToInt (literal " -12") = -12 ∧ byteArrayToInt (literal "12 ") = 0 := by decide

abbrev PeerList := List (QString × PeerInfo)

/-- The peers of each torrent, by the hexadecimal text of its hash. -/
structure TrackerRequestHandler where
  torrents : List (QString × PeerList)
deriving DecidableEq

namespace TrackerRequestHandler

def initial : TrackerRequestHandler := ⟨[]⟩

def failtureText : List (Nat × String) :=
  [(100, "Invalid request type: client request was not a HTTP GET."),
    (101, "Missing info_hash."), (102, "Missing peer_id."), (103, "Missing port."),
    (150, "Invalid infohash: infohash is not 20 bytes long."),
    (151, "Invalid peerid: peerid is not 20 bytes long."),
    (152, "Invalid numwant. Client requested more peers than allowed by tracker."),
    (200, "info_hash not found in the database."),
    (500, "Client sent an eventless request before the specified time."),
    (900, "Generic error.")]

def reply (e : Entry) (response : HttpResponse) : HttpResponse :=
  (response.setStatus 200 "OK").write (Bencode.bencode e)

def replyError (code : Nat) (response : HttpResponse) : HttpResponse :=
  let reason := (Assoc.find code failtureText).map fun text =>
    (literal "failure reason", Entry.string (literal text))
  reply (.dict ((literal "failure code", .int code) :: reason.toList)) response

/-- The checks of `ProcessAnnounceRequest`; an error is the code of its reply. The length
of a `QString` is that of its UTF-16. -/
def readAnnounce (p : Platform) (source : QHostAddress) (request : HttpRequest) :
    Except Nat AnnounceRequest :=
  let infoHash := toHex (cString (request.getParameter "info_hash"))
  let peerId := p.fromCString (request.getParameter "peer_id")
  let port := p.fromCString (request.getParameter "port")
  let numwant := byteArrayToInt (request.getParameter "numwant")
  if infoHash.length = 0 then .error 101
  else if infoHash.length ≠ 40 then .error 150
  else if (utf16 peerId).length = 0 then .error 102
  else if (utf16 peerId).length ≠ 20 then .error 151
  else if port.length = 0 then .error 103
  else
    match toInt port with
    | none => .error 103
    | some n =>
      if h : 1 ≤ n.toNat ∧ n.toNat ≤ 65535 then
        .ok ⟨infoHash, peerId, source, n.toNat, h, p.fromCString (request.getParameter "event"),
          if numwant > 0 then numwant.toNat else 50,
          decide ((request.getParameter "no_peer_id").length > 0),
          decide ((request.getParameter "compact").length > 0)⟩
      else .error 103

/-- The peers up to the break of the loop, where `count` meets `numwant`. -/
def firstPeers (numwant : Nat) : Nat → List PeerInfo → List PeerInfo
  | _, [] => []
  | count, peer :: peers =>
    peer :: if count + 1 = numwant then [] else firstPeers numwant (count + 1) peers

theorem firstPeers_eq_take {numwant count : Nat} (h : count < numwant) (peers : List PeerInfo) :
    firstPeers numwant count peers = peers.take (numwant - count) := by
  induction peers generalizing count with
  | nil => rw [firstPeers, List.take_nil]
  | cons peer peers ih =>
    rw [firstPeers, show numwant - count = (numwant - (count + 1)) + 1 by omega, List.take_succ_cons]
    split_ifs with hlast
    · rw [← hlast, Nat.sub_self, List.take_zero]
    · rw [ih (by omega)]

section
variable (t : TrackerRequestHandler)

/-- `torrents.value(info_hash)` -/
def peerList (infoHash : QString) : PeerList := (Assoc.find infoHash t.torrents).getD []

def contains (infoHash : QString) : Bool := Assoc.contains infoHash t.torrents

/-- What `torrents[info_hash]` leaves: an empty list where there was none. -/
def subscripted (infoHash : QString) : TrackerRequestHandler :=
  if t.contains infoHash then t else ⟨Assoc.insert infoHash [] t.torrents⟩

/-- `torrents[info_hash] = peers` -/
def assign (infoHash : QString) (peers : PeerList) : TrackerRequestHandler :=
  ⟨Assoc.insert infoHash peers t.torrents⟩

/-- `torrents[info_hash].remove(id)`, of a known torrent. -/
def removePeer (infoHash id : QString) : TrackerRequestHandler :=
  ⟨Assoc.modify infoHash (Assoc.erase id) t.torrents⟩

/-- A peer that stops is removed from a known torrent; anything else enters the
list. -/
def announce (a : AnnounceRequest) : TrackerRequestHandler :=
  if t.contains a.infoHash ∧ a.isStopped then t.removePeer a.infoHash a.getPeerInfo.getID
  else
    let s := t.subscripted a.infoHash
    s.assign a.infoHash (Assoc.insert a.getPeerInfo.getID a.getPeerInfo (s.peerList a.infoHash))

theorem peerList_insert (infoHash h : QString) (peers : PeerList) :
    peerList ⟨Assoc.insert infoHash peers t.torrents⟩ h =
      if h = infoHash then peers else t.peerList h := by
  rw [peerList, Assoc.find_insert]
  split_ifs <;> rfl

theorem contains_insert (infoHash h : QString) (peers : PeerList) :
    contains ⟨Assoc.insert infoHash peers t.torrents⟩ h = true ↔
      h = infoHash ∨ t.contains h = true := by
  rw [contains, contains, Assoc.contains_iff, Assoc.contains_iff, Assoc.mem_keys_insert]

@[simp] theorem peerList_subscripted (infoHash h : QString) :
    (t.subscripted infoHash).peerList h = t.peerList h := by
  rw [subscripted]
  split_ifs with hc
  · rfl
  · rw [peerList_insert]
    split_ifs with heq
    · have hnone : Assoc.find h t.torrents = none := by
        rw [Assoc.find_eq_none, ← Assoc.contains_iff, heq]
        exact hc
      rw [peerList, hnone]
      rfl
    · rfl

theorem contains_subscripted (infoHash h : QString) :
    (t.subscripted infoHash).contains h = true ↔ h = infoHash ∨ t.contains h = true := by
  rw [subscripted]
  split_ifs with hc
  · constructor
    · exact .inr
    · rintro (rfl | h)
      · exact hc
      · exact h
  · exact t.contains_insert infoHash h []

theorem peerList_removePeer (infoHash h id : QString) :
    (t.removePeer infoHash id).peerList h =
      if h = infoHash then Assoc.erase id (t.peerList h) else t.peerList h := by
  rw [peerList, removePeer, Assoc.find_modify]
  split_ifs with heq
  · cases hf : Assoc.find h t.torrents with
    | none => simp [peerList, hf, Assoc.erase]
    | some peers => simp [peerList, hf]
  · rfl

theorem contains_removePeer (infoHash h id : QString) :
    (t.removePeer infoHash id).contains h = t.contains h := by
  rw [Bool.eq_iff_iff, contains, contains, Assoc.contains_iff, Assoc.contains_iff, removePeer,
    Assoc.keys_modify]

def edit (known : Bool) (a : AnnounceRequest) (peers : PeerList) : PeerList :=
  if known ∧ a.isStopped then Assoc.erase a.getPeerInfo.getID peers
  else Assoc.insert a.getPeerInfo.getID a.getPeerInfo peers

theorem peerList_announce (a : AnnounceRequest) (h : QString) :
    (t.announce a).peerList h =
      if h = a.infoHash then edit (t.contains h) a (t.peerList h) else t.peerList h := by
  rw [announce]
  by_cases hstop : t.contains a.infoHash ∧ a.isStopped
  · rw [if_pos hstop, peerList_removePeer]
    split_ifs with heq
    · rw [edit, heq, if_pos hstop]
    · rfl
  · simp only [if_neg hstop, assign, peerList_insert, peerList_subscripted]
    split_ifs with heq
    · rw [edit, heq, if_neg hstop]
    · rfl

theorem contains_announce (a : AnnounceRequest) (h : QString) :
    (t.announce a).contains h = true ↔ h = a.infoHash ∨ t.contains h = true := by
  rw [announce]
  by_cases hstop : t.contains a.infoHash ∧ a.isStopped
  · rw [if_pos hstop, contains_removePeer]
    constructor
    · exact .inr
    · rintro (rfl | h)
      · exact hstop.1
      · exact h
  · simp only [if_neg hstop, assign, contains_insert, contains_subscripted]
    tauto

/-- `values()`, in the order of the ids. -/
def peers (infoHash : QString) : List PeerInfo := (t.peerList infoHash).map Prod.snd

/-- The value of `peers`: always a list, of a dictionary for each peer. -/
def peersEntry (p : Platform) (a : AnnounceRequest) : Entry :=
  .list ((firstPeers a.numwant 0 (t.peers a.infoHash)).map fun peer =>
    peer.toEntry p a.noPeerId a.compact)

def replyWithPeerList (p : Platform) (a : AnnounceRequest) (response : HttpResponse) :
    HttpResponse :=
  reply (.dict [(literal "interval", .int 1800), (literal "peers", t.peersEntry p a)]) response

def processAnnounceRequest (p : Platform) (source : QHostAddress) (request : HttpRequest)
    (response : HttpResponse) : TrackerRequestHandler × HttpResponse :=
  match readAnnounce p source request with
  | .error code => (t, replyError code response)
  | .ok a =>
    let s := t.announce a
    if t.contains a.infoHash ∧ a.isStopped then (s, response)
    else (s, s.replyWithPeerList p a response)

def service (p : Platform) (source : QHostAddress) (request : HttpRequest)
    (response : HttpResponse) : TrackerRequestHandler × HttpResponse :=
  if ¬ equalsLiteral request.method "GET" then
    (t, (response.setStatus 100 "Method Not Allowed").write
      (literal "<body><h1>100 Method Not Allowed</h1></body>"))
  else if "/announce".toList.isPrefixOf ((p.fromCString request.getPath).map Char.toLower) then
    t.processAnnounceRequest p source request response
  else
    (t, (response.setStatus 400 "Bad Request").write
      (literal "<body><h1>400 Bad Request </h1></body>"))

end

/-! ### Announces with a hash and a peer id of twenty bytes -/

def parameterFailures : List Nat := [101, 102, 103, 150, 151]

section
variable {p : Platform} {source : QHostAddress} {request : HttpRequest} {infoHash peerId : QByteArray}
  {port : Nat}

structure Legal (request : HttpRequest) (infoHash peerId : QByteArray) (port : Nat) : Prop where
  infoHash_eq : request.getParameter "info_hash" = infoHash
  peerId_eq : request.getParameter "peer_id" = peerId
  port_eq : request.getParameter "port" = Bencode.decimal port
  length_infoHash : infoHash.length = 20
  length_peerId : peerId.length = 20
  port_range : 1 ≤ port ∧ port ≤ 65535

/-- A peer id keeps its length if no zero byte cuts it and no bytes of it are read
together as one character. -/
theorem length_peerId_iff (p : Platform) {peerId : QByteArray} (h : peerId.length = 20) :
    (utf16 (p.fromCString peerId)).length = 20 ↔ (∀ b ∈ peerId, b ≠ 0) ∧ NoSequence peerId := by
  obtain ⟨hle, heq⟩ := length_utf16_decodeUtf8 (Nat.le_refl (cString peerId).length)
  have hcut := length_cString_eq_iff peerId
  have hshort : (cString peerId).length ≤ peerId.length := (List.takeWhile_prefix _).length_le
  constructor
  · intro hlen
    change (utf16 (decodeUtf8 _ (cString peerId))).length = 20 at hlen
    have hnz := hcut.mp (by omega)
    refine ⟨hnz, ?_⟩
    rw [(cString_eq_self_iff _).mpr hnz] at heq hlen
    exact heq.mp (hlen.trans h.symm)
  · rintro ⟨hnz, hno⟩
    rw [Platform.fromCString, (cString_eq_self_iff _).mpr hnz, ← h]
    exact (length_utf16_fromUtf8_eq_iff peerId).mpr hno

theorem readAnnounce_of_nonzero (p : Platform) (source : QHostAddress)
    (l : Legal request infoHash peerId port) (hhash : ∀ b ∈ infoHash, b ≠ 0)
    (hpeer : (∀ b ∈ peerId, b ≠ 0) ∧ NoSequence peerId) :
    ∃ a, readAnnounce p source request = .ok a ∧ a.infoHash = toHex infoHash ∧ a.ip = source ∧
      a.port = port ∧ a.event = p.fromCString (request.getParameter "event") := by
  have hcut : cString infoHash = infoHash := (cString_eq_self_iff _).mpr hhash
  have hlenHash : (toHex infoHash).length = 40 := by
    rw [length_toHex, l.length_infoHash]
  have hlenPeer := (length_peerId_iff p l.length_peerId).mpr hpeer
  have hport : p.fromCString (Bencode.decimal port) = Bencode.number port :=
    Bencode.fromCString_decimal p port
  have hportNe : (Bencode.number port).length ≠ 0 := by
    simpa using Bencode.number_ne_nil port
  have hint : toInt (p.fromCString (Bencode.decimal port)) = some (port : Int) :=
    Bencode.toInt_decimal p (by have := l.port_range; omega)
  rw [hport] at hint
  simp only [readAnnounce, l.infoHash_eq, l.peerId_eq, l.port_eq, hcut, hlenHash, hlenPeer, hport,
    hint, if_neg hportNe]
  exact ⟨_, dif_pos l.port_range, rfl, rfl, rfl, rfl⟩

theorem readAnnounce_of_short (p : Platform) (source : QHostAddress)
    (l : Legal request infoHash peerId port)
    (h : ¬ ((∀ b ∈ infoHash, b ≠ 0) ∧ (∀ b ∈ peerId, b ≠ 0) ∧ NoSequence peerId)) :
    ∃ code ∈ parameterFailures, readAnnounce p source request = .error code := by
  have hhash := length_cString_eq_iff infoHash
  have hpeer := length_peerId_iff p l.length_peerId
  rw [l.length_infoHash] at hhash
  simp only [readAnnounce, l.infoHash_eq, l.peerId_eq, length_toHex]
  by_cases hzero : 2 * (cString infoHash).length = 0
  · exact ⟨101, by decide, if_pos hzero⟩
  by_cases hshort : 2 * (cString infoHash).length = 40
  · have hnot : (utf16 (p.fromCString peerId)).length ≠ 20 :=
      fun he => h ⟨hhash.mp (by omega), hpeer.mp he⟩
    rw [if_neg hzero, if_neg (not_not.mpr hshort)]
    by_cases hempty : (utf16 (p.fromCString peerId)).length = 0
    · exact ⟨102, by decide, if_pos hempty⟩
    · exact ⟨151, by decide, by rw [if_neg hempty, if_pos hnot]⟩
  · exact ⟨150, by decide, by rw [if_neg hzero, if_pos hshort]⟩

/-- No failure is answered, and the announce goes to the list under the
hexadecimal text of its hash, which no other hash has. -/
def Filed (p : Platform) (t : TrackerRequestHandler) (source : QHostAddress) (request : HttpRequest)
    (response : HttpResponse) (infoHash : QByteArray) (port : Nat) : Prop :=
  let served := t.processAnnounceRequest p source request response
  (∀ code ∈ parameterFailures, served.2 ≠ replyError code response) ∧
    served.1.contains (toHex infoHash) = true ∧ (toHex infoHash).length = 40 ∧
    (∀ h, h ≠ toHex infoHash → served.1.peerList h = t.peerList h) ∧
    (p.fromCString (request.getParameter "event") ≠ "stopped".toList →
      ∃ peer ∈ served.1.peers (toHex infoHash), peer.ip = source ∧ peer.port = port) ∧
    ∀ other, toHex other = toHex infoHash → other = infoHash

theorem body_reply (e : Entry) (response : HttpResponse) :
    (reply e response).body = response.body ++ Bencode.bencode e := rfl

theorem replyWithPeerList_ne (p : Platform) (t : TrackerRequestHandler) (a : AnnounceRequest)
    (code : Nat) (response : HttpResponse) :
    t.replyWithPeerList p a response ≠ replyError code response := by
  intro h
  have hbody := congrArg HttpResponse.body h
  rw [replyWithPeerList, replyError, body_reply, body_reply, List.append_cancel_left_eq] at hbody
  have hkeys : Bencode.writeString (literal "interval") = 56 :: (Bencode.writeString (literal "interval")).tail ∧
      Bencode.writeString (literal "failure code") =
        49 :: (Bencode.writeString (literal "failure code")).tail := by decide
  rw [Bencode.bencode, Bencode.bencode] at hbody
  simp only [Bencode.bencodeDict] at hbody
  rw [hkeys.1, hkeys.2] at hbody
  have hfirst := (List.cons.inj (List.cons.inj hbody).2).1
  exact absurd hfirst (by decide)

theorem replyError_ne (code : Nat) (response : HttpResponse) : response ≠ replyError code response := by
  intro h
  have hbody := congrArg (fun r => r.body.length) h
  simp only [replyError, body_reply, List.length_append, Bencode.bencode, List.length_cons] at hbody
  omega

/-- A legal announce is filed under its hash exactly when neither the hash nor
the peer id has a zero byte, and no bytes of the peer id are one character of UTF-8. -/
theorem legal_announce_filed_iff (p : Platform) (t : TrackerRequestHandler) (source : QHostAddress)
    (response : HttpResponse) (l : Legal request infoHash peerId port) :
    Filed p t source request response infoHash port ↔
      (∀ b ∈ infoHash, b ≠ 0) ∧ (∀ b ∈ peerId, b ≠ 0) ∧ NoSequence peerId := by
  constructor
  · intro h
    by_contra hshort
    obtain ⟨code, hcode, he⟩ := readAnnounce_of_short p source l hshort
    refine h.1 code hcode ?_
    rw [processAnnounceRequest, he]
  · rintro ⟨hhash, hpeer⟩
    obtain ⟨a, ha, hinfo, hip, hport, hevent⟩ := readAnnounce_of_nonzero p source l hhash hpeer
    have hserved : (t.processAnnounceRequest p source request response).1 = t.announce a := by
      rw [processAnnounceRequest, ha]
      dsimp only
      split_ifs <;> rfl
    refine ⟨?_, ?_, ?_, ?_, ?_, fun other he => toHex_injective he⟩
    · intro code _
      rw [processAnnounceRequest, ha]
      dsimp only
      split_ifs
      · exact replyError_ne code response
      · exact replyWithPeerList_ne p _ a code response
    · rw [hserved, contains_announce]
      exact .inl hinfo.symm
    · rw [length_toHex, l.length_infoHash]
    · intro h hne
      rw [hserved, peerList_announce, if_neg (hinfo ▸ hne)]
    · intro hstopped
      have hrun : ¬ a.isStopped = true := by
        rw [AnnounceRequest.isStopped, decide_eq_true_eq, hevent]
        exact hstopped
      refine ⟨a.getPeerInfo, ?_, hip, hport⟩
      rw [peers, hserved, peerList_announce, if_pos hinfo.symm, edit, if_neg fun h => hrun h.2]
      exact List.mem_map.mpr ⟨_, Assoc.mem_of_find (Assoc.find_insert_self _ _ _), rfl⟩

end

def sampleRequest (infoHash peerId : QByteArray) (event : String) : HttpRequest where
  method := literal "GET"
  path := literal "/announce"
  headers := []
  parameters := [(literal "info_hash", infoHash), (literal "peer_id", peerId),
    (literal "port", literal "6881"), (literal "event", literal event)]
  uploadedFiles := []
  body := []

theorem sampleRequest_legal {infoHash peerId : QByteArray} (hhash : infoHash.length = 20)
    (hpeer : peerId.length = 20) (event : String) :
    Legal (sampleRequest infoHash peerId event) infoHash peerId 6881 where
  infoHash_eq := rfl
  peerId_eq := rfl
  port_eq := by
    have hport : literal "6881" = Bencode.decimal 6881 := by decide
    exact hport
  length_infoHash := hhash
  length_peerId := hpeer
  port_range := by decide

def samplePeerId : QByteArray :=
  literal "-UT3550-" ++ [0xD1, 0x41, 0xE2, 0x84, 0x42, 0xFF, 0x80, 0xF0, 0x9F, 0x98, 0x43, 0xD1]

theorem bytes_filed : Filed .unix initial (.ipv4 0x0A000001)
    (sampleRequest (List.replicate 20 0xD1) samplePeerId "") .initial (List.replicate 20 0xD1) 6881 :=
  (legal_announce_filed_iff .unix initial (.ipv4 0x0A000001) .initial
    (sampleRequest_legal rfl rfl "")).mpr
    ⟨forall_mem_of_check (by decide), forall_mem_of_check (by decide), by decide⟩

/-- Two bytes of a peer id that are a letter of UTF-8 count once, and the id is refused
as too short. -/
theorem cyrillic_peer_refused :
    ¬ ∀ (p : Platform) (t : TrackerRequestHandler) (source : QHostAddress) (request : HttpRequest)
      (response : HttpResponse) (infoHash peerId : QByteArray) (port : Nat),
      Legal request infoHash peerId port → Filed p t source request response infoHash port := by
  intro h
  let peerId : QByteArray := literal "-UT3550-ф" ++ List.replicate 10 98
  have hfiled := h .unix initial (.ipv4 0x0A000001) (sampleRequest (List.replicate 20 97) peerId "")
    .initial (List.replicate 20 97) peerId 6881 (sampleRequest_legal rfl rfl "")
  refine hfiled.1 151 (by decide) ?_
  rfl

end TrackerRequestHandler
end CuteTorrent
