import CuteTorrent.TrackerRequestMapper

/-! What the tracker knows after a sequence of announces, against the announces
themselves. -/
namespace CuteTorrent
namespace TrackerRequestHandler

structure WellFiled (peers : PeerList) : Prop where
  keyed : ∀ e ∈ peers, e.1 = e.2.getID
  ascending : (Assoc.keys peers).Pairwise fun i j => i ≠ j ∧ ¬ j < i

namespace WellFiled

theorem nil : WellFiled [] := ⟨by simp, by simp⟩

theorem nodup {peers : PeerList} (w : WellFiled peers) : (Assoc.keys peers).Nodup :=
  w.ascending.imp fun h => h.1

theorem find_iff {peers : PeerList} (w : WellFiled peers) (peer : PeerInfo) :
    Assoc.find peer.getID peers = some peer ↔ peer ∈ peers.map Prod.snd := by
  constructor
  · intro h
    exact List.mem_map.mpr ⟨_, Assoc.mem_of_find h, rfl⟩
  · intro h
    obtain ⟨⟨id, q⟩, he, rfl⟩ := List.mem_map.mp h
    have hid : id = q.getID := w.keyed _ he
    subst hid
    exact Assoc.find_of_mem w.nodup he

theorem erase {peers : PeerList} (w : WellFiled peers) (id : QString) :
    WellFiled (Assoc.erase id peers) := by
  refine ⟨fun e he => w.keyed e (List.mem_of_mem_filter he), ?_⟩
  rw [Assoc.keys_erase]
  exact w.ascending.filter _

theorem insert {peers : PeerList} (w : WellFiled peers) (peer : PeerInfo) :
    WellFiled (Assoc.insert peer.getID peer peers) := by
  refine ⟨?_, Assoc.pairwise_insert (fun _ _ => List.lt_asymm) (fun _ _ _ => List.lt_trans)
    w.ascending _ _⟩
  intro e he
  cases Assoc.mem_insert he with
  | inl heq => rw [heq]
  | inr he => exact w.keyed e he

theorem edit {peers : PeerList} (w : WellFiled peers) (known : Bool) (a : AnnounceRequest) :
    WellFiled (edit known a peers) := by
  rw [TrackerRequestHandler.edit]
  split_ifs
  · exact w.erase _
  · exact w.insert _

theorem nodup_peers {peers : PeerList} (w : WellFiled peers) :
    (peers.map fun e => (e.2.ip, e.2.port)).Nodup := by
  have hn : (peers.map fun e => e.2.getID).Nodup := by
    have hkeys : (peers.map fun e => e.2.getID) = Assoc.keys peers :=
      List.map_congr_left fun e he => (w.keyed e he).symm
    rw [hkeys]
    exact w.nodup
  rw [List.nodup_iff_pairwise_ne, List.pairwise_map] at hn ⊢
  refine hn.imp fun hne heq => hne ?_
  exact PeerInfo.getID_eq_iff.mpr (Prod.mk.inj heq)

end WellFiled

theorem mem_edit_iff {peers : PeerList} (w : WellFiled peers) (known : Bool) (a : AnnounceRequest)
    (peer : PeerInfo) : peer ∈ (edit known a peers).map Prod.snd ↔
      if peer.ip = a.ip ∧ peer.port = a.port then
        ¬ (known = true ∧ a.isStopped = true) ∧ peer = a.getPeerInfo
      else peer ∈ peers.map Prod.snd := by
  have hsame : (peer.getID = a.getPeerInfo.getID) ↔ peer.ip = a.ip ∧ peer.port = a.port :=
    PeerInfo.getID_eq_iff
  rw [← (w.edit known a).find_iff, ← w.find_iff, edit]
  by_cases hstop : known = true ∧ a.isStopped = true
  · rw [if_pos hstop, Assoc.find_erase]
    simp only [hsame]
    split_ifs <;> simp [hstop]
  · rw [if_neg hstop, Assoc.find_insert]
    simp only [hsame]
    split_ifs
    · simp only [Option.some.injEq, hstop, not_false_eq_true, true_and]
      exact eq_comm
    · exact Iff.rfl

def run (as : List AnnounceRequest) : TrackerRequestHandler := as.foldl announce initial

@[simp] theorem run_concat (as : List AnnounceRequest) (b : AnnounceRequest) :
    run (as ++ [b]) = (run as).announce b := by
  rw [run, List.foldl_append]
  rfl

def announcesOf (as : List AnnounceRequest) (infoHash : QString) : List AnnounceRequest :=
  as.filter fun a => decide (a.infoHash = infoHash)

def latest (as : List AnnounceRequest) (infoHash : QString) (ip : QHostAddress) (port : Nat) :
    Option AnnounceRequest :=
  ((announcesOf as infoHash).filter fun a => decide (a.ip = ip ∧ a.port = port)).getLast?

/-- The peers of every hash are those whose latest announce is no `stopped`, each
with the id of that announce, and no peer stands there twice. -/
def KnowsLivePeers (t : TrackerRequestHandler) (as : List AnnounceRequest) : Prop :=
  ∀ infoHash, ((t.peers infoHash).map fun peer => (peer.ip, peer.port)).Nodup ∧
    ∀ peer, peer ∈ t.peers infoHash ↔
      ∃ a, latest as infoHash peer.ip peer.port = some a ∧ a.isStopped = false ∧
        a.peerId = peer.peerId

/-- A hash whose first announce is a `stopped`, of a peer that does not announce
it again. -/
def StopsFirst (as : List AnnounceRequest) (infoHash : QString) (a : AnnounceRequest) : Prop :=
  ∃ rest, announcesOf as infoHash = a :: rest ∧ a.isStopped = true ∧
    ∀ b ∈ rest, ¬ (b.ip = a.ip ∧ b.port = a.port)

theorem wellFiled_run (as : List AnnounceRequest) (infoHash : QString) :
    WellFiled ((run as).peerList infoHash) := by
  induction as using List.reverseRecOn with
  | nil => exact WellFiled.nil
  | append_singleton as b ih =>
    rw [run_concat, peerList_announce]
    split_ifs
    · exact ih.edit _ _
    · exact ih

theorem nodup_peers_run (as : List AnnounceRequest) (infoHash : QString) :
    (((run as).peers infoHash).map fun peer => (peer.ip, peer.port)).Nodup := by
  rw [peers, List.map_map]
  exact (wellFiled_run as infoHash).nodup_peers

theorem announcesOf_concat (as : List AnnounceRequest) (b : AnnounceRequest) (infoHash : QString) :
    announcesOf (as ++ [b]) infoHash =
      announcesOf as infoHash ++ if b.infoHash = infoHash then [b] else [] := by
  rw [announcesOf, List.filter_append]
  split_ifs with h <;> simp [announcesOf, h]

theorem contains_run (as : List AnnounceRequest) (infoHash : QString) :
    (run as).contains infoHash = true ↔ announcesOf as infoHash ≠ [] := by
  induction as using List.reverseRecOn with
  | nil => simp [run, initial, contains, Assoc.contains, announcesOf]
  | append_singleton as b ih =>
    rw [run_concat, contains_announce, ih, announcesOf_concat]
    by_cases h : b.infoHash = infoHash
    · simp [h]
    · simp [h, Ne.symm h]

theorem latest_concat (as : List AnnounceRequest) (b : AnnounceRequest) (infoHash : QString)
    (ip : QHostAddress) (port : Nat) : latest (as ++ [b]) infoHash ip port =
      if b.infoHash = infoHash ∧ b.ip = ip ∧ b.port = port then some b
      else latest as infoHash ip port := by
  rw [latest, announcesOf_concat, List.filter_append]
  by_cases hh : b.infoHash = infoHash
  · by_cases hp : b.ip = ip ∧ b.port = port
    · simp [hh, hp]
    · simp only [hh, if_true, true_and, List.filter_cons, hp, decide_false,
        Bool.false_eq_true, if_false, List.filter_nil, List.append_nil]
      rfl
  · simp [hh, latest]

theorem eq_of_latest {as : List AnnounceRequest} {infoHash : QString} {ip : QHostAddress} {port : Nat}
    {a : AnnounceRequest} (h : latest as infoHash ip port = some a) : a.ip = ip ∧ a.port = port := by
  have hmem := List.mem_of_getLast? h
  simpa using (List.mem_filter.mp hmem).2

theorem stopsFirst_concat (as : List AnnounceRequest) (b : AnnounceRequest) (infoHash : QString)
    (a : AnnounceRequest) : StopsFirst (as ++ [b]) infoHash a ↔
      b.infoHash = infoHash ∧ announcesOf as infoHash = [] ∧ b.isStopped = true ∧ a = b ∨
        StopsFirst as infoHash a ∧ ¬ (b.infoHash = infoHash ∧ b.ip = a.ip ∧ b.port = a.port) := by
  simp only [StopsFirst, announcesOf_concat]
  by_cases hh : b.infoHash = infoHash
  · simp only [hh, if_true, true_and]
    cases announcesOf as infoHash with
    | nil =>
      simp only [List.nil_append, List.cons.injEq]
      constructor
      · rintro ⟨rest, ⟨rfl, -⟩, hstop, -⟩
        exact .inl ⟨trivial, hstop, rfl⟩
      · rintro (⟨-, hstop, rfl⟩ | ⟨⟨rest, hnil, -⟩, -⟩)
        · exact ⟨[], ⟨rfl, rfl⟩, hstop, by simp⟩
        · exact absurd hnil (by simp)
    | cons c cs =>
      simp only [List.cons_append, List.cons.injEq, reduceCtorEq, false_and, false_or]
      constructor
      · rintro ⟨rest, ⟨rfl, rfl⟩, hstop, hrest⟩
        refine ⟨⟨cs, ⟨rfl, rfl⟩, hstop, fun d hd => hrest d (List.mem_append_left _ hd)⟩, ?_⟩
        exact hrest b (by simp)
      · rintro ⟨⟨rest, ⟨rfl, rfl⟩, hstop, hrest⟩, hb⟩
        refine ⟨cs ++ [b], ⟨rfl, rfl⟩, hstop, ?_⟩
        intro d hd
        cases List.mem_append.mp hd with
        | inl hd => exact hrest d hd
        | inr hd => exact List.mem_singleton.mp hd ▸ hb
  · simp [hh]

/-- A stored peer has made the latest announce of its address and port, or has
been filed by a `stopped`. -/
theorem mem_peers_run (as : List AnnounceRequest) (infoHash : QString) (peer : PeerInfo) :
    peer ∈ (run as).peers infoHash ↔
      (∃ a, latest as infoHash peer.ip peer.port = some a ∧ a.isStopped = false ∧
        a.getPeerInfo = peer) ∨
      ∃ a, StopsFirst as infoHash a ∧ a.getPeerInfo = peer := by
  induction as using List.reverseRecOn with
  | nil => simp [run, initial, peers, peerList, latest, announcesOf, StopsFirst]
  | append_singleton as b ih =>
    have hw := wellFiled_run as infoHash
    simp only [run_concat, peers, peerList_announce, latest_concat, stopsFirst_concat] at ih ⊢
    by_cases hh : infoHash = b.infoHash
    · subst hh
      have hknown := contains_run as b.infoHash
      simp only [if_true, true_and, mem_edit_iff hw]
      by_cases hsame : peer.ip = b.ip ∧ peer.port = b.port
      · have hsame' : b.ip = peer.ip ∧ b.port = peer.port := ⟨hsame.1.symm, hsame.2.symm⟩
        simp only [if_pos hsame, if_pos hsame', Option.some.injEq]
        constructor
        · rintro ⟨hstop, rfl⟩
          cases hb : b.isStopped with
          | false => exact .inl ⟨b, rfl, hb, rfl⟩
          | true =>
            have hnil : announcesOf as b.infoHash = [] := by
              by_contra hne
              exact hstop ⟨hknown.mpr hne, hb⟩
            exact .inr ⟨b, .inl ⟨hnil, rfl, rfl⟩, rfl⟩
        · rintro (⟨a, rfl, hrun, rfl⟩ | ⟨a, ⟨hnil, -, rfl⟩ | ⟨-, hne⟩, rfl⟩)
          · exact ⟨fun hstop => Bool.false_ne_true (hrun.symm.trans hstop.2), rfl⟩
          · exact ⟨fun hstop => hknown.mp hstop.1 hnil, rfl⟩
          · exact absurd hsame' hne
      · have hsame' : ¬ (b.ip = peer.ip ∧ b.port = peer.port) :=
          fun h => hsame ⟨h.1.symm, h.2.symm⟩
        rw [if_neg hsame, if_neg hsame', ih]
        apply or_congr_right
        constructor
        · rintro ⟨a, ha, rfl⟩
          exact ⟨a, .inr ⟨ha, hsame'⟩, rfl⟩
        · rintro ⟨a, ⟨-, -, rfl⟩ | ⟨ha, -⟩, rfl⟩
          · exact absurd ⟨rfl, rfl⟩ hsame'
          · exact ⟨a, ha, rfl⟩
    · simp only [if_neg hh, Ne.symm hh, false_and, if_false, false_or, not_false_eq_true, and_true]
      exact ih

theorem latest_of_stopsFirst {as : List AnnounceRequest} {infoHash : QString} {a : AnnounceRequest}
    (h : StopsFirst as infoHash a) : latest as infoHash a.ip a.port = some a := by
  obtain ⟨rest, has, -, hrest⟩ := h
  have hnil : rest.filter (fun b => decide (b.ip = a.ip ∧ b.port = a.port)) = [] := by
    apply List.filter_eq_nil_iff.mpr
    intro b hb
    simpa using hrest b hb
  rw [latest, has, List.filter_cons, if_pos (by simp), hnil]
  rfl

theorem knowsLivePeers_run_iff (as : List AnnounceRequest) :
    KnowsLivePeers (run as) as ↔ ∀ infoHash a, ¬ StopsFirst as infoHash a := by
  constructor
  · intro h infoHash a hstops
    have hmem : a.getPeerInfo ∈ (run as).peers infoHash :=
      (mem_peers_run as infoHash _).mpr (.inr ⟨a, hstops, rfl⟩)
    obtain ⟨b, hlatest, hrun, -⟩ := ((h infoHash).2 _).mp hmem
    have hab : a = b := Option.some.inj ((latest_of_stopsFirst hstops).symm.trans hlatest)
    obtain ⟨-, -, hstop, -⟩ := hstops
    rw [← hab, hstop] at hrun
    exact Bool.false_ne_true hrun.symm
  · intro h infoHash
    refine ⟨?_, fun peer => ?_⟩
    · exact nodup_peers_run as infoHash
    · have hnone : ¬ ∃ a, StopsFirst as infoHash a ∧ a.getPeerInfo = peer :=
        fun ⟨a, ha, _⟩ => h infoHash a ha
      rw [mem_peers_run, or_iff_left hnone]
      constructor
      · rintro ⟨a, ha, hrun, rfl⟩
        exact ⟨a, ha, hrun, rfl⟩
      · rintro ⟨a, ha, hrun, hid⟩
        obtain ⟨hip, hport⟩ := eq_of_latest ha
        refine ⟨a, ha, hrun, ?_⟩
        cases peer
        simp only [AnnounceRequest.getPeerInfo, PeerInfo.mk.injEq]
        exact ⟨hid, hip, hport⟩

def accepted (p : Platform) (requests : List (QHostAddress × HttpRequest)) : List AnnounceRequest :=
  requests.filterMap fun r => (readAnnounce p r.1 r.2).toOption

def handled (p : Platform) (requests : List (QHostAddress × HttpRequest)) : TrackerRequestHandler :=
  requests.foldl (fun t r => (t.processAnnounceRequest p r.1 r.2 .initial).1) initial

theorem processAnnounceRequest_fst (p : Platform) (t : TrackerRequestHandler)
    (source : QHostAddress) (request : HttpRequest) (response : HttpResponse) :
    (t.processAnnounceRequest p source request response).1 =
      ((readAnnounce p source request).toOption.map t.announce).getD t := by
  rw [processAnnounceRequest]
  cases readAnnounce p source request with
  | error code => rfl
  | ok a =>
    dsimp only
    split_ifs <;> rfl

theorem handled_eq_run (p : Platform) (requests : List (QHostAddress × HttpRequest)) :
    handled p requests = run (accepted p requests) := by
  induction requests using List.reverseRecOn with
  | nil => rfl
  | append_singleton requests r ih =>
    have hlast : accepted p (requests ++ [r]) =
        accepted p requests ++ (readAnnounce p r.1 r.2).toOption.toList := by
      rw [accepted, List.filterMap_append, ← accepted]
      cases h : (readAnnounce p r.1 r.2).toOption <;> simp [h]
    rw [handled, List.foldl_append, ← handled, ih, List.foldl_cons, List.foldl_nil,
      processAnnounceRequest_fst, hlast]
    cases (readAnnounce p r.1 r.2).toOption with
    | none => simp
    | some a => simp

/-- The tracker knows the live peers exactly when no hash is announced first by
a peer that stops and never comes back. -/
theorem knows_live_peers_iff (p : Platform) (requests : List (QHostAddress × HttpRequest)) :
    KnowsLivePeers (handled p requests) (accepted p requests) ↔
      ∀ infoHash a, ¬ StopsFirst (accepted p requests) infoHash a := by
  rw [handled_eq_run]
  exact knowsLivePeers_run_iff _

theorem stopped_peer_filed :
    ¬ ∀ (p : Platform) (requests : List (QHostAddress × HttpRequest)),
      KnowsLivePeers (handled p requests) (accepted p requests) := by
  intro h
  have hlive := h .unix [(.ipv4 0x0A000001, sampleRequest (List.replicate 20 97) (List.replicate 20 98) "stopped")]
  rw [handled_eq_run] at hlive
  refine (knowsLivePeers_run_iff _).mp hlive (toHex (List.replicate 20 97))
    ⟨toHex (List.replicate 20 97), List.replicate 20 'b', .ipv4 0x0A000001, 6881, by decide,
      "stopped".toList, 50, false, false⟩ ⟨[], ?_, ?_, by simp⟩
  · decide +kernel
  · decide

end TrackerRequestHandler
end CuteTorrent
