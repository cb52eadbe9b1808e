import CuteTorrent.TrackerPeers

/-! `http_tracker_connection`: how libtorrent reads the peers of a reply, and
what it makes of the replies of the built-in tracker. -/
namespace CuteTorrent
namespace HttpTrackerConnection

structure PeerEntry where
  pid : QByteArray
  ip : QByteArray
  port : Nat
deriving DecidableEq

def dictFind (e : Entry) (name : String) : Option Entry :=
  match e with
  | .dict d => Assoc.find (literal name) d
  | _ => none

def dictFindString (e : Entry) (name : String) : Option QByteArray :=
  match dictFind e name with
  | some (.string s) => some s
  | _ => none

def dictFindInt (e : Entry) (name : String) : Option Int :=
  match dictFind e name with
  | some (.int n) => some n
  | _ => none

def isDict : Entry → Bool
  | .dict _ => true
  | _ => false

def extractPeerInfo (info : Entry) : Option PeerEntry :=
  if isDict info then do
    let pid := match dictFindString info "peer id" with
      | some i => if i.length = 20 then i else List.replicate 20 0
      | none => List.replicate 20 0
    let ip ← dictFindString info "ip"
    let port ← dictFindInt info "port"
    return ⟨pid, ip, (port % 2 ^ 16).toNat⟩
  else none

def extractPeers : List Entry → Option (List PeerEntry)
  | [] => some []
  | info :: infos => do
    let peer ← extractPeerInfo info
    let peers ← extractPeers infos
    return peer :: peers

/-- The compact form: four bytes of the address and two of the port. -/
def readCompact : QByteArray → List PeerEntry
  | a :: b :: c :: d :: hi :: lo :: peers =>
    ⟨List.replicate 20 0, toUtf8 (['.'].intercalate ([a, b, c, d].map fun n => Bencode.number n.toNat)),
      256 * hi.toNat + lo.toNat⟩ :: readCompact peers
  | _ => []

/-- The part of `parse` that reads the value of `peers`, of a reply that has
nothing else. -/
def parsePeers : Entry → Option (List PeerEntry)
  | .string peers => some (readCompact peers)
  | .list peers => extractPeers peers
  | _ => none

end HttpTrackerConnection

namespace TrackerRequestHandler
open HttpTrackerConnection

/-- The client reads as many different stored peers as there are, up to the
number it wants, with their addresses and ports. -/
def ReadBack (p : Platform) (t : TrackerRequestHandler) (a : AnnounceRequest) : Prop :=
  ∃ decoded, parsePeers (t.peersEntry p a) = some decoded ∧
    ∃ chosen, chosen ⊆ t.peers a.infoHash ∧
      (chosen.map fun peer => (peer.ip, peer.port)).Nodup ∧
      chosen.length = min a.numwant (t.peers a.infoHash).length ∧
      decoded.map (fun e => (e.ip, e.port)) =
        chosen.map fun peer => (toUtf8 peer.ip.toString, peer.port)

section
variable (p : Platform)

theorem dictFind_toEntry_ip (peer : PeerInfo) (noPeerId compact : Bool) :
    dictFind (peer.toEntry p noPeerId compact) "ip" =
      some (if compact then .int peer.ip.toIPv4Address else .string (p.toStdString peer.ip.toString)) := by
  have hne : literal "ip" ≠ literal "port" := by decide
  rw [PeerInfo.toEntry, dictFind, Assoc.find_insert_of_ne hne, Assoc.find_insert_self]

theorem dictFind_toEntry_port (peer : PeerInfo) (noPeerId compact : Bool) :
    dictFind (peer.toEntry p noPeerId compact) "port" = some (.int peer.port) := by
  rw [PeerInfo.toEntry, dictFind, Assoc.find_insert_self]

theorem extractPeerInfo_compact (peer : PeerInfo) (noPeerId : Bool) :
    extractPeerInfo (peer.toEntry p noPeerId true) = none := by
  have hip : dictFindString (peer.toEntry p noPeerId true) "ip" = none := by
    rw [dictFindString, dictFind_toEntry_ip]
    rfl
  rw [extractPeerInfo, hip]
  rfl

theorem extractPeerInfo_plain (peer : PeerInfo) (noPeerId : Bool) :
    ∃ e, extractPeerInfo (peer.toEntry p noPeerId false) = some e ∧
      e.ip = toUtf8 peer.ip.toString ∧ e.port = peer.port := by
  have hfind : dictFindString (peer.toEntry p noPeerId false) "ip" =
      some (toUtf8 peer.ip.toString) := by
    rw [dictFindString, dictFind_toEntry_ip]
    rfl
  have hport : dictFindInt (peer.toEntry p noPeerId false) "port" = some (peer.port : Int) := by
    rw [dictFindInt, dictFind_toEntry_port]
  have hmod : ((peer.port : Int) % 2 ^ 16).toNat = peer.port := by
    have := peer.port_range
    omega
  rw [extractPeerInfo, hfind, hport]
  exact ⟨_, rfl, rfl, hmod⟩

theorem extractPeers_compact {peers : List PeerInfo} (noPeerId : Bool) (hne : peers ≠ []) :
    extractPeers (peers.map fun peer => peer.toEntry p noPeerId true) = none := by
  obtain ⟨peer, rest, rfl⟩ := List.exists_cons_of_ne_nil hne
  rw [List.map_cons, extractPeers, extractPeerInfo_compact]
  rfl

theorem extractPeers_plain (peers : List PeerInfo) (noPeerId : Bool) :
    ∃ decoded, extractPeers (peers.map fun peer => peer.toEntry p noPeerId false) = some decoded ∧
      decoded.map (fun e => (e.ip, e.port)) =
        peers.map fun peer => (toUtf8 peer.ip.toString, peer.port) := by
  induction peers with
  | nil => exact ⟨[], rfl, rfl⟩
  | cons peer peers ih =>
    obtain ⟨e, he, hip, hport⟩ := extractPeerInfo_plain p peer noPeerId
    obtain ⟨decoded, hdecoded, hmap⟩ := ih
    refine ⟨e :: decoded, ?_, ?_⟩
    · rw [List.map_cons, extractPeers, he, hdecoded]
      rfl
    · rw [List.map_cons, List.map_cons, hmap, hip, hport]

/-- The client reads the peers back exactly when it has not asked for the compact
form, or there are none. -/
theorem read_back_iff (as : List AnnounceRequest) (a : AnnounceRequest) (hwant : 1 ≤ a.numwant) :
    ReadBack p (run as) a ↔ a.compact = false ∨ (run as).peers a.infoHash = [] := by
  have hentry : (run as).peersEntry p a = .list ((((run as).peers a.infoHash).take a.numwant).map
      fun peer => peer.toEntry p a.noPeerId a.compact) := by
    rw [peersEntry, firstPeers_eq_take (by omega), Nat.sub_zero]
  constructor
  · rintro ⟨decoded, hdecoded, -⟩
    rw [hentry, parsePeers] at hdecoded
    cases hcompact : a.compact with
    | false => exact .inl rfl
    | true =>
      refine .inr ?_
      by_contra hne
      have htake : ((run as).peers a.infoHash).take a.numwant ≠ [] := by
        simpa [List.take_eq_nil_iff, hne] using (by omega : a.numwant ≠ 0)
      rw [hcompact, extractPeers_compact p a.noPeerId htake] at hdecoded
      exact absurd hdecoded (by simp)
  · intro h
    have hplain : (((run as).peers a.infoHash).take a.numwant).map
        (fun peer => peer.toEntry p a.noPeerId a.compact) =
        (((run as).peers a.infoHash).take a.numwant).map
          fun peer => peer.toEntry p a.noPeerId false := by
      cases h with
      | inl hcompact => rw [hcompact]
      | inr hnil => rw [hnil, List.take_nil, List.map_nil, List.map_nil]
    obtain ⟨decoded, hdecoded, hmap⟩ := extractPeers_plain p
      (((run as).peers a.infoHash).take a.numwant) a.noPeerId
    refine ⟨decoded, ?_, _, List.take_subset _ _, ?_, List.length_take, hmap⟩
    · rw [hentry, hplain, parsePeers, hdecoded]
    · exact (nodup_peers_run as a.infoHash).sublist ((List.take_sublist _ _).map _)

end

def sampleAnnounce (compact : Bool) : AnnounceRequest :=
  ⟨toHex (List.replicate 20 97), List.replicate 20 'b', .ipv4 0x0A000001, 6881, by decide, [], 50,
    false, compact⟩

theorem sampleAnnounce_ipv4 :
    ∀ peer ∈ (run [sampleAnnounce true]).peers (sampleAnnounce true).infoHash,
      ∃ ad, peer.ip = .ipv4 ad := by
  intro peer hpeer
  have hone : (run [sampleAnnounce true]).peers (sampleAnnounce true).infoHash =
      [(sampleAnnounce true).getPeerInfo] := by
    decide +kernel
  rw [hone, List.mem_singleton] at hpeer
  exact ⟨0x0A000001, by rw [hpeer]; rfl⟩

theorem plain_reply_read : ReadBack .unix (run [sampleAnnounce false]) (sampleAnnounce false) :=
  (read_back_iff .unix [sampleAnnounce false] (sampleAnnounce false) (by decide)).mpr (.inl rfl)

/-- Asked for the compact form, the tracker sends what its own client rejects. -/
theorem compact_reply_rejected :
    ¬ ∀ (p : Platform) (as : List AnnounceRequest) (a : AnnounceRequest), 1 ≤ a.numwant →
      (∀ peer ∈ (run as).peers a.infoHash, ∃ ad, peer.ip = .ipv4 ad) → ReadBack p (run as) a := by
  intro h
  obtain ⟨decoded, hdecoded, -⟩ := h .unix [sampleAnnounce true] (sampleAnnounce true) (by decide)
    sampleAnnounce_ipv4
  have hnone : parsePeers ((run [sampleAnnounce true]).peersEntry .unix (sampleAnnounce true)) =
      none := by
    rfl
  rw [hnone] at hdecoded
  exact absurd hdecoded (by simp)

end TrackerRequestHandler
end CuteTorrent
