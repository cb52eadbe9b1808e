import CuteTorrent.Bencode

/-! The tracker's requests and peers: `AnnounceRequest`, `PeerInfo` and the text
that names a peer. -/
namespace CuteTorrent
open Bencode (number isDigit_of_mem_number number_injective)

structure Ipv6Address where
  groups : List UInt16
  length_groups : groups.length = 8
deriving DecidableEq

inductive QHostAddress where
  | null
  | ipv4 (a : UInt32)
  | ipv6 (a6 : Ipv6Address) (scopeId : QString)
deriving DecidableEq

namespace QHostAddress

def upperHexDigit (n : Nat) : Char := if n < 10 then Char.ofNat (48 + n) else Char.ofNat (55 + n)

def upperHex (n : Nat) : QString :=
  if n = 0 then ['0'] else (Nat.digits 16 n).reverse.map upperHexDigit

def octets (a : UInt32) : List Nat :=
  [a.toNat / 2 ^ 24, a.toNat / 2 ^ 16 % 256, a.toNat / 2 ^ 8 % 256, a.toNat % 256]

def toString : QHostAddress → QString
  | null => []
  | ipv4 a => ['.'].intercalate ((octets a).map number)
  | ipv6 a6 scopeId =>
    [':'].intercalate (a6.groups.map fun g => upperHex g.toNat) ++
      if scopeId = [] then [] else '%' :: scopeId

def toIPv4Address : QHostAddress → Nat
  | ipv4 a => a.toNat
  | _ => 0

theorem octets_injective {a b : UInt32} (h : octets a = octets b) : a = b := by
  simp only [octets, List.cons.injEq, and_true] at h
  obtain ⟨h1, h2, h3, h4⟩ := h
  apply UInt32.toNat_inj.mp
  omega

theorem upperHexDigit_ne : ∀ n < 16, upperHexDigit n ≠ ':' ∧ upperHexDigit n ≠ '%' := by decide

theorem mem_upperHex {n : Nat} {c : Char} (h : c ∈ upperHex n) : c ≠ ':' ∧ c ≠ '%' := by
  rw [upperHex] at h
  split_ifs at h
  · rw [List.mem_singleton.mp h]
    decide
  · obtain ⟨d, hd, rfl⟩ := List.mem_map.mp h
    exact upperHexDigit_ne d (Nat.digits_lt_base (by omega) (List.mem_reverse.mp hd))

def upperHexValue (s : QString) : Nat :=
  Nat.ofDigits 16 (s.map fun c => if c.toNat < 58 then c.toNat - 48 else c.toNat - 55).reverse

theorem upperHexValue_upperHex (n : Nat) : upperHexValue (upperHex n) = n := by
  have hdigit : ∀ d < 16, (if (upperHexDigit d).toNat < 58 then (upperHexDigit d).toNat - 48
      else (upperHexDigit d).toNat - 55) = d := by decide
  rw [upperHex]
  split_ifs with h
  · rw [h]
    rfl
  · have hback : (Nat.digits 16 n).map ((fun c => if c.toNat < 58 then c.toNat - 48
        else c.toNat - 55) ∘ upperHexDigit) = Nat.digits 16 n := by
      conv_rhs => rw [← List.map_id (Nat.digits 16 n)]
      exact List.map_congr_left fun d hd => hdigit d (Nat.digits_lt_base (by omega) hd)
    rw [upperHexValue, List.map_map, List.map_reverse, List.reverse_reverse, hback,
      Nat.ofDigits_digits]

theorem upperHex_injective {m n : Nat} (h : upperHex m = upperHex n) : m = n := by
  rw [← upperHexValue_upperHex m, h, upperHexValue_upperHex]

theorem intercalate_injective {sep : Char} {ls ms : List QString} (hl : ∀ l ∈ ls, sep ∉ l)
    (hm : ∀ m ∈ ms, sep ∉ m) (hlne : ls ≠ []) (hmne : ms ≠ [])
    (h : [sep].intercalate ls = [sep].intercalate ms) : ls = ms := by
  rw [← List.splitOn_intercalate sep hl hlne, h, List.splitOn_intercalate sep hm hmne]

theorem groups_injective {a b : Ipv6Address}
    (h : [':'].intercalate (a.groups.map fun g => upperHex g.toNat) =
      [':'].intercalate (b.groups.map fun g => upperHex g.toNat)) : a = b := by
  have hsep : ∀ gs : List UInt16, ∀ l ∈ gs.map (fun g => upperHex g.toNat), ':' ∉ l := by
    intro gs l hl hc
    obtain ⟨g, -, rfl⟩ := List.mem_map.mp hl
    exact (mem_upperHex hc).1 rfl
  have hne : ∀ c : Ipv6Address, (c.groups.map fun g => upperHex g.toNat) ≠ [] := by
    intro c hnil
    have hlen := c.length_groups
    rw [List.map_eq_nil_iff] at hnil
    simp [hnil] at hlen
  have hmap := intercalate_injective (hsep _) (hsep _) (hne a) (hne b) h
  have hinj : Function.Injective fun g : UInt16 => upperHex g.toNat := by
    intro g g' hg
    exact UInt16.toNat_inj.mp (upperHex_injective hg)
  obtain ⟨ga, _⟩ := a
  obtain ⟨gb, _⟩ := b
  simpa using (List.map_injective_iff.mpr hinj) hmap

theorem sep_mem_intercalate (sep : Char) {ls : List QString} (h : 2 ≤ ls.length) :
    sep ∈ [sep].intercalate ls := by
  obtain ⟨l, m, ms, rfl⟩ : ∃ l m ms, ls = l :: m :: ms := by
    match ls, h with
    | l :: m :: ms, _ => exact ⟨l, m, ms, rfl⟩
  rw [List.intercalate_cons_cons]
  simp

theorem dot_mem_ipv4 (a : UInt32) : '.' ∈ (ipv4 a).toString :=
  sep_mem_intercalate '.' (by simp [octets])

theorem colon_not_mem_ipv4 (a : UInt32) : ':' ∉ (ipv4 a).toString := by
  intro hc
  cases mem_intercalate hc with
  | inl heq => exact absurd heq (by decide)
  | inr hc =>
    obtain ⟨l, hl, hc⟩ := hc
    obtain ⟨n, -, rfl⟩ := List.mem_map.mp hl
    exact absurd (isDigit_of_mem_number hc) (by decide)

theorem colon_mem_ipv6 (a6 : Ipv6Address) (scopeId : QString) :
    ':' ∈ (ipv6 a6 scopeId).toString :=
  List.mem_append_left _ (sep_mem_intercalate ':' (by simp [a6.length_groups]))

theorem ipv4_injective {a b : UInt32} (h : (ipv4 a).toString = (ipv4 b).toString) : a = b := by
  have hdots : ∀ c : UInt32, ∀ l ∈ (octets c).map number, '.' ∉ l := by
    intro c l hl hc
    obtain ⟨n, -, rfl⟩ := List.mem_map.mp hl
    exact absurd (isDigit_of_mem_number hc) (by decide)
  have hmap := intercalate_injective (hdots a) (hdots b) (by simp [octets]) (by simp [octets]) h
  have hinj : Function.Injective number := fun _ _ => number_injective
  exact octets_injective (List.map_injective_iff.mpr hinj hmap)

theorem ipv6_injective {a b : Ipv6Address} {s t : QString}
    (h : (ipv6 a s).toString = (ipv6 b t).toString) : a = b ∧ s = t := by
  have hpercent : ∀ c : Ipv6Address, '%' ∉ [':'].intercalate (c.groups.map fun g => upperHex g.toNat) := by
    intro c hc
    cases mem_intercalate hc with
    | inl heq => exact absurd heq (by decide)
    | inr hc =>
      obtain ⟨l, hl, hc⟩ := hc
      obtain ⟨g, -, rfl⟩ := List.mem_map.mp hl
      exact (mem_upperHex hc).2 rfl
  simp only [toString] at h
  by_cases hs : s = []
  · by_cases ht : t = []
    · rw [if_pos hs, if_pos ht, List.append_nil, List.append_nil] at h
      exact ⟨groups_injective h, hs.trans ht.symm⟩
    · rw [if_pos hs, if_neg ht, List.append_nil] at h
      exact absurd (h ▸ List.mem_append_right _ List.mem_cons_self) (hpercent a)
  · by_cases ht : t = []
    · rw [if_neg hs, if_pos ht, List.append_nil] at h
      exact absurd (h ▸ List.mem_append_right _ List.mem_cons_self) (hpercent b)
    · rw [if_neg hs, if_neg ht] at h
      obtain ⟨hgroups, hscope⟩ := append_cons_cancel (hpercent a) (hpercent b) h
      exact ⟨groups_injective hgroups, hscope⟩

theorem toString_injective {a b : QHostAddress} (h : a.toString = b.toString) : a = b := by
  cases a with
  | null =>
    cases b with
    | null => rfl
    | ipv4 b => exact absurd (h ▸ dot_mem_ipv4 b) List.not_mem_nil
    | ipv6 b t => exact absurd (h ▸ colon_mem_ipv6 b t) List.not_mem_nil
  | ipv4 a =>
    cases b with
    | null => exact absurd (h ▸ dot_mem_ipv4 a) List.not_mem_nil
    | ipv4 b => rw [ipv4_injective h]
    | ipv6 b t => exact absurd (h ▸ colon_mem_ipv6 b t) (colon_not_mem_ipv4 a)
  | ipv6 a s =>
    cases b with
    | null => exact absurd (h ▸ colon_mem_ipv6 a s) List.not_mem_nil
    | ipv4 b => exact absurd (h ▸ colon_mem_ipv6 a s) (colon_not_mem_ipv4 b)
    | ipv6 b t =>
      obtain ⟨hab, hst⟩ := ipv6_injective h
      rw [hab, hst]

end QHostAddress

/-- A peer of a torrent; no other port gets past the check of an announce. -/
structure PeerInfo where
  peerId : QString
  ip : QHostAddress
  port : Nat
  port_range : 1 ≤ port ∧ port ≤ 65535
deriving DecidableEq

namespace PeerInfo

def getID (peer : PeerInfo) : QString := peer.ip.toString ++ ':' :: number peer.port

/-- The key of the peer id is `id`; with `compact` the address is a number. -/
def toEntry (p : Platform) (peer : PeerInfo) (noPeerId compact : Bool) : Entry :=
  let peerMap := if noPeerId then [] else
    [(literal "id", Entry.string (p.toStdString peer.peerId))]
  let ip := if compact then Entry.int peer.ip.toIPv4Address
    else Entry.string (p.toStdString peer.ip.toString)
  .dict (Assoc.insert (literal "port") (.int peer.port) (Assoc.insert (literal "ip") ip peerMap))

theorem getID_eq_iff {a b : PeerInfo} : a.getID = b.getID ↔ a.ip = b.ip ∧ a.port = b.port := by
  constructor
  · intro h
    have hcolon : ∀ n, ':' ∉ (number n).reverse := by
      intro n hc
      exact absurd (isDigit_of_mem_number (List.mem_reverse.mp hc)) (by decide)
    have hrev := congrArg List.reverse h
    simp only [getID, List.reverse_append, List.reverse_cons, List.append_assoc,
      List.singleton_append] at hrev
    obtain ⟨hport, hip⟩ := append_cons_cancel (hcolon _) (hcolon _) hrev
    exact ⟨QHostAddress.toString_injective (List.reverse_injective hip),
      number_injective (List.reverse_injective hport)⟩
  · rintro ⟨hip, hport⟩
    rw [getID, getID, hip, hport]

end PeerInfo

structure AnnounceRequest where
  infoHash : QString
  peerId : QString
  ip : QHostAddress
  port : Nat
  port_range : 1 ≤ port ∧ port ≤ 65535
  event : QString
  numwant : Nat
  noPeerId : Bool
  compact : Bool
deriving DecidableEq

namespace AnnounceRequest

def getPeerInfo (a : AnnounceRequest) : PeerInfo := ⟨a.peerId, a.ip, a.port, a.port_range⟩

def isStopped (a : AnnounceRequest) : Bool := decide (a.event = "stopped".toList)

end AnnounceRequest
end CuteTorrent
