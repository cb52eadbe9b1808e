import Mathlib.Data.List.Permutation
import CuteTorrent.Library.Runs
import CuteTorrent.TrackerPeers

/-! Announces on several connections: each one is handled in a thread of its own,
and all threads share one `TrackerRequestHandler`. -/
namespace CuteTorrent

/-- Where a thread stands in `ProcessAnnounceRequest`, past the checks of the
parameters. -/
inductive Stage where
  | accepted
  /-- `torrents.contains`, and the peer has stopped. -/
  | leaving
  | entering
  /-- `PeerList peers = torrents[info_hash]` -/
  | copied (peers : PeerList)
  /-- `peers[id] = info` -/
  | edited (peers : PeerList)
deriving DecidableEq

/-- The shared tracker, the announces under way, and those that have taken their
last step on it, in this order. -/
structure TrackerThreads where
  tracker : TrackerRequestHandler
  running : List (AnnounceRequest × Stage)
  finished : List AnnounceRequest
deriving DecidableEq

namespace TrackerThreads
open TrackerRequestHandler (WellFiled edit)

def initial : TrackerThreads := ⟨.initial, [], []⟩

/-- A request gets past the checks, or a thread takes its next step. -/
inductive Move where
  | accept (a : AnnounceRequest)
  | advance (thread : Nat)
deriving DecidableEq

def atStage (s : TrackerThreads) (thread : Nat) (a : AnnounceRequest) (stage : Stage) :
    TrackerThreads :=
  { s with running := s.running.set thread (a, stage) }

def finish (s : TrackerThreads) (thread : Nat) (a : AnnounceRequest)
    (tracker : TrackerRequestHandler) : TrackerThreads :=
  ⟨tracker, s.running.eraseIdx thread, s.finished ++ [a]⟩

def advance (s : TrackerThreads) (thread : Nat) (a : AnnounceRequest) : Stage → TrackerThreads
  | .accepted =>
    s.atStage thread a (if s.tracker.contains a.infoHash ∧ a.isStopped then .leaving else .entering)
  | .leaving => s.finish thread a (s.tracker.removePeer a.infoHash a.getPeerInfo.getID)
  | .entering =>
    let tracker := s.tracker.subscripted a.infoHash
    { s with tracker := tracker }.atStage thread a (.copied (tracker.peerList a.infoHash))
  | .copied peers =>
    s.atStage thread a (.edited (Assoc.insert a.getPeerInfo.getID a.getPeerInfo peers))
  | .edited peers => s.finish thread a (s.tracker.assign a.infoHash peers)

def step (s : TrackerThreads) : Move → TrackerThreads
  | .accept a => { s with running := s.running ++ [(a, .accepted)] }
  | .advance thread =>
    match s.running[thread]? with
    | some (a, stage) => s.advance thread a stage
    | none => s

/-- The peer lists are those of the finished announces handled one by one in some
order. -/
def Serial (s : TrackerThreads) : Prop :=
  ∃ order, order.Perm s.finished ∧
    ∀ h, s.tracker.peerList h = (TrackerRequestHandler.run order).peerList h

def Known (s : TrackerThreads) (infoHash : QString) : Prop :=
  ∃ b ∈ s.finished, b.infoHash = infoHash

/-- A list is written back only over the list it was copied from, up to the entry
of its own peer, and the last step of a stopped peer finds what its check found. -/
def Undisturbed (s : TrackerThreads) : Move → Prop
  | .accept _ => True
  | .advance thread =>
    match s.running[thread]? with
    | some (a, .leaving) => s.Known a.infoHash
    | some (a, .edited peers) =>
      (∀ id, id ≠ a.getPeerInfo.getID →
        Assoc.find id peers = Assoc.find id (s.tracker.peerList a.infoHash)) ∧
      (a.isStopped = true → ¬ s.Known a.infoHash)
    | _ => True

def Holds (a : AnnounceRequest) : Stage → Prop
  | .leaving => a.isStopped = true
  | .copied peers => WellFiled peers
  | .edited peers => WellFiled peers ∧ Assoc.find a.getPeerInfo.getID peers = some a.getPeerInfo
  | _ => True

structure Inv (s : TrackerThreads) : Prop where
  lists : ∀ h, s.tracker.peerList h = (TrackerRequestHandler.run s.finished).peerList h
  holds : ∀ t ∈ s.running, Holds t.1 t.2

theorem Inv.serial {s : TrackerThreads} (i : Inv s) : Serial s :=
  ⟨s.finished, .refl _, i.lists⟩

theorem inv_initial : Inv initial := ⟨fun _ => rfl, by simp [initial]⟩

theorem known_iff (s : TrackerThreads) (infoHash : QString) :
    (TrackerRequestHandler.run s.finished).contains infoHash = true ↔ s.Known infoHash := by
  rw [TrackerRequestHandler.contains_run, Known, TrackerRequestHandler.announcesOf, ne_eq,
    List.filter_eq_nil_iff]
  simp

theorem Inv.wellFiled {s : TrackerThreads} (i : Inv s) (h : QString) :
    WellFiled (s.tracker.peerList h) :=
  i.lists h ▸ TrackerRequestHandler.wellFiled_run s.finished h

theorem Inv.atStage {s : TrackerThreads} (i : Inv s) (thread : Nat) {a : AnnounceRequest}
    {stage : Stage} (h : Holds a stage) : Inv (s.atStage thread a stage) := by
  refine ⟨i.lists, ?_⟩
  intro t ht
  cases List.mem_or_eq_of_mem_set ht with
  | inl ht => exact i.holds t ht
  | inr heq =>
    rw [heq]
    exact h

theorem Inv.finish {s : TrackerThreads} (i : Inv s) (thread : Nat) {a : AnnounceRequest}
    {tracker : TrackerRequestHandler}
    (h : ∀ k, tracker.peerList k = if k = a.infoHash then
      edit ((TrackerRequestHandler.run s.finished).contains k) a (s.tracker.peerList k)
      else s.tracker.peerList k) : Inv (s.finish thread a tracker) := by
  refine ⟨?_, fun t ht => i.holds t (List.mem_of_mem_eraseIdx ht)⟩
  intro k
  change tracker.peerList k = (TrackerRequestHandler.run (s.finished ++ [a])).peerList k
  rw [h, TrackerRequestHandler.run_concat, TrackerRequestHandler.peerList_announce, i.lists]

theorem Inv.leave {s : TrackerThreads} (i : Inv s) (thread : Nat) {a : AnnounceRequest}
    (hstop : a.isStopped = true) (h : s.Known a.infoHash) :
    Inv (s.finish thread a (s.tracker.removePeer a.infoHash a.getPeerInfo.getID)) := by
  apply i.finish
  intro k
  rw [TrackerRequestHandler.peerList_removePeer]
  split_ifs with hk
  · have hknown : (TrackerRequestHandler.run s.finished).contains k = true :=
      (s.known_iff k).mpr (hk ▸ h)
    rw [edit, if_pos ⟨hknown, hstop⟩]
  · rfl

/-- The write-back of a list that differs only in the peer's own entry. -/
theorem Inv.writeBack {s : TrackerThreads} (i : Inv s) (thread : Nat) {a : AnnounceRequest}
    {peers : PeerList} (hpeers : Holds a (.edited peers))
    (hothers : ∀ id, id ≠ a.getPeerInfo.getID →
      Assoc.find id peers = Assoc.find id (s.tracker.peerList a.infoHash))
    (hstop : a.isStopped = true → ¬ s.Known a.infoHash) :
    Inv (s.finish thread a (s.tracker.assign a.infoHash peers)) := by
  have hcopy : peers = Assoc.insert a.getPeerInfo.getID a.getPeerInfo
      (s.tracker.peerList a.infoHash) := by
    refine Assoc.eq_of_find_eq (fun _ _ h1 h2 => List.le_antisymm h2 h1)
      hpeers.1.ascending ((i.wellFiled a.infoHash).insert a.getPeerInfo).ascending ?_
    intro id
    rw [Assoc.find_insert]
    split_ifs with hid
    · rw [hid, hpeers.2]
    · exact hothers id hid
  apply i.finish
  intro k
  rw [TrackerRequestHandler.assign, TrackerRequestHandler.peerList_insert]
  split_ifs with hk
  · have hnot : ¬ ((TrackerRequestHandler.run s.finished).contains k = true ∧
        a.isStopped = true) := by
      rw [known_iff, hk]
      exact fun hboth => hstop hboth.2 hboth.1
    rw [edit, if_neg hnot, hk]
    exact hcopy
  · rfl

theorem inv_step {s : TrackerThreads} (i : Inv s) {move : Move} (h : Undisturbed s move) :
    Inv (step s move) := by
  cases move with
  | accept a =>
    refine ⟨i.lists, ?_⟩
    intro t ht
    cases List.mem_append.mp ht with
    | inl ht => exact i.holds t ht
    | inr ht =>
      rw [List.mem_singleton.mp ht]
      trivial
  | advance thread =>
    cases hrun : s.running[thread]? with
    | none => simpa only [step, hrun] using i
    | some t =>
      obtain ⟨a, stage⟩ := t
      have hholds : Holds a stage := i.holds _ (List.mem_of_getElem? hrun)
      simp only [Undisturbed, hrun] at h
      simp only [step, hrun]
      cases stage with
      | accepted =>
        apply i.atStage
        split_ifs with hstop
        · exact hstop.2
        · trivial
      | leaving => exact i.leave thread hholds h
      | entering =>
        have hread : Inv { s with tracker := s.tracker.subscripted a.infoHash } := by
          refine ⟨fun k => ?_, i.holds⟩
          exact (TrackerRequestHandler.peerList_subscripted s.tracker a.infoHash k).trans (i.lists k)
        exact hread.atStage thread (hread.wellFiled a.infoHash)
      | copied peers =>
        exact i.atStage thread ⟨hholds.insert a.getPeerInfo, Assoc.find_insert_self _ _ _⟩
      | edited peers => exact i.writeBack thread hholds h.1 h.2

/-- As long as no thread is disturbed the lists are always those of the finished
announces, one after another. -/
theorem serial_of_undisturbed {moves : List Move} (h : Runs.Along step Undisturbed initial moves) :
    Runs.Throughout step Serial initial moves := by
  have hinv : Runs.Throughout step Inv initial moves :=
    Runs.throughout_of_along (I := Inv) (fun _ _ i hm => inv_step i hm) inv_initial h
  exact hinv.imp fun _ i => i.serial

/-! ### Two peers of a new torrent -/

theorem samplePort_legal : 1 ≤ 6881 ∧ 6881 ≤ 65535 := by decide

def samplePeer (address : UInt32) : AnnounceRequest :=
  ⟨toHex (List.replicate 20 97), List.replicate 20 'b', .ipv4 address, 6881, samplePort_legal, [], 50,
    false, false⟩

def twoPeers (order : List Nat) : List Move :=
  .accept (samplePeer 1) :: .accept (samplePeer 2) :: order.map .advance

theorem one_by_one_serial :
    Runs.Throughout step Serial initial (twoPeers [0, 1, 0, 0, 0, 0, 0, 0]) := by
  apply serial_of_undisturbed
  refine ⟨trivial, trivial, trivial, trivial, trivial, trivial, ⟨fun id hid => ?_, ?_⟩, trivial,
    trivial, ⟨fun id hid => ?_, ?_⟩, trivial⟩
  · exact Assoc.find_insert_of_ne hid _ _
  · exact fun hstop => absurd hstop (by decide)
  · exact Assoc.find_insert_of_ne hid _ _
  · exact fun hstop => absurd hstop (by decide)

/-- Both threads read the list before either writes it back: one peer is lost. -/
theorem peer_lost :
    ¬ ∀ moves : List Move, (Runs.final step initial moves).running = [] →
      Serial (Runs.final step initial moves) := by
  intro h
  obtain ⟨order, hperm, hlists⟩ := h (twoPeers [0, 1, 0, 0, 1, 1, 0, 0]) (by decide +kernel)
  have hfinished : (Runs.final step initial (twoPeers [0, 1, 0, 0, 1, 1, 0, 0])).finished =
      [samplePeer 1, samplePeer 2] := by decide +kernel
  have hlost := hlists (toHex (List.replicate 20 97))
  rw [hfinished, List.perm_pair] at hperm
  revert hlost
  rcases hperm with rfl | rfl
  · decide +kernel
  · decide +kernel

end TrackerThreads
end CuteTorrent
