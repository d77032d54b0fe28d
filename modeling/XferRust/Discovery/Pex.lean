import XferRust.Bencode.RoundTrip
import XferRust.Bencode.Torrent
import XferRust.Dht.Compact
import XferRust.Lib.StepRun

/-! # Peer exchange (BEP 11)

Two peers tell each other whom they are connected to.  `PexExchange` keeps the addresses of its
last message and sends what has changed since: the peers that are new, with their flags, and the
addresses that are gone.  On the wire both are lists of compact addresses, which only IPv4 has; an
IPv6 peer is passed over.
-/
namespace XferRust.Discovery

open Bencode (Key Value BencodeError)
open Dht (SocketAddr portAt portAt_append)
open SortedMap (lookup insertMany)

/-- `PexPeer`. -/
structure PexPeer where
  addr : SocketAddr
  flags : UInt8

/-- `PexMessage`. -/
structure PexMessage where
  added : List PexPeer
  dropped : List SocketAddr

/-- `b"added"`. -/
abbrev addedKey : Key := [97, 100, 100, 101, 100]
/-- `b"added.f"`. -/
abbrev addedFlagsKey : Key := [97, 100, 100, 101, 100, 46, 102]
/-- `b"dropped"`. -/
abbrev droppedKey : Key := [100, 114, 111, 112, 112, 101, 100]

/-! ## Compact addresses -/

/-- `compact_peer_bytes`. -/
def compactPeerBytes : SocketAddr → Option (List UInt8)
  | .v4 ip port => some (ip.bytes ++ BigEndian.ofU16 port)
  | .v6 .. => none

/-- One record of `parse_compact_peers`. -/
def peerOfChunk (chunk : List UInt8) : SocketAddr := .v4 (.ofSlice 4 chunk) (portAt chunk 4)

/-- `parse_compact_peers`. -/
def parseCompactPeers (data : List UInt8) : List SocketAddr :=
  (Records.chunksExact 6 data).map peerOfChunk

theorem compactPeerBytes_eq_some {a : SocketAddr} {r : List UInt8}
    (h : compactPeerBytes a = some r) : r.length = 6 ∧ peerOfChunk r = a := by
  cases a with
  | v6 => cases h
  | v4 ip port =>
    obtain rfl := Option.some.inj h
    constructor
    · rw [List.length_append, ip.length_eq]
      rfl
    · rw [peerOfChunk, portAt_append ip.length_eq, Octets.ofSlice_append]

theorem compactPeerBytes_isSome (a : SocketAddr) : (compactPeerBytes a).isSome = a.isIpv4 := by
  cases a <;> rfl

/-- The records of addresses, read back: the IPv6 ones are missing. -/
theorem parse_records (addrs : List SocketAddr) :
    parseCompactPeers (addrs.filterMap compactPeerBytes).flatten =
      addrs.filter SocketAddr.isIpv4 := by
  rw [parseCompactPeers, Records.chunksExact_flatten (by decide) fun r hr => by
    obtain ⟨a, -, ha⟩ := List.mem_filterMap.mp hr
    exact (compactPeerBytes_eq_some ha).1]
  induction addrs with
  | nil => rfl
  | cons a addrs ih =>
    have hfamily := compactPeerBytes_isSome a
    cases ha : compactPeerBytes a with
    | none =>
      rw [ha] at hfamily
      rw [List.filterMap_cons_none ha, List.filter_cons_of_neg (by rw [← hfamily]; decide), ih]
    | some r =>
      rw [ha] at hfamily
      rw [List.filterMap_cons_some ha, List.filter_cons_of_pos hfamily.symm, List.map_cons,
        (compactPeerBytes_eq_some ha).2, ih]

theorem length_records (addrs : List SocketAddr) :
    (addrs.filterMap compactPeerBytes).flatten.length =
      (addrs.filter SocketAddr.isIpv4).length * 6 := by
  rw [Records.length_flatten fun r hr => by
    obtain ⟨a, -, ha⟩ := List.mem_filterMap.mp hr
    exact (compactPeerBytes_eq_some ha).1]
  rw [List.length_filterMap_eq_countP, List.countP_eq_length_filter]
  simp only [compactPeerBytes_isSome]

/-! ## Messages -/

namespace PexMessage

/-- The loop of `encode` over the added peers: their records, and the flags beside them. -/
def addedFields : List PexPeer → List UInt8 × List UInt8
  | [] => ([], [])
  | p :: added =>
    let (addedBytes, addedF) := addedFields added
    match compactPeerBytes p.addr with
    | some bytes => (bytes ++ addedBytes, p.flags :: addedF)
    | none => (addedBytes, addedF)

/-- The dictionary of `encode`. -/
def fields (msg : PexMessage) : List (Key × Value) :=
  insertMany
    [(addedKey, .bytes (addedFields msg.added).1),
      (addedFlagsKey, .bytes (addedFields msg.added).2),
      (droppedKey, .bytes (msg.dropped.filterMap compactPeerBytes).flatten)] []

/-- `encode`. -/
def encode (msg : PexMessage) : List UInt8 := Bencode.encode (.dict msg.fields)

/-- The peers of `decode`: the flags that are missing are 0. -/
def peersWith (flags : List UInt8) (addrs : List SocketAddr) : List PexPeer :=
  addrs.mapIdx fun i addr => { addr, flags := (flags[i]?).getD 0 }

/-- What `decode` reads from the dictionary. -/
def ofFields (d : List (Key × Value)) : PexMessage where
  added := match lookup addedKey d with
    | some (.bytes added) =>
      peersWith (((lookup addedFlagsKey d).bind Value.asBytes).getD []) (parseCompactPeers added)
    | _ => []
  dropped := match lookup droppedKey d with
    | some (.bytes dropped) => parseCompactPeers dropped
    | _ => []

/-- `decode`. -/
def decode (data : List UInt8) : Except String PexMessage := do
  let v ← (Bencode.decode data).mapError fun e => "PEX bencode 解析失败: " ++ e.message
  match v.asDict with
  | some d => .ok (ofFields d)
  | none => .error "PEX 消息必须是字典"

/-- The part of a message that the wire carries. -/
def ipv4 (msg : PexMessage) : PexMessage where
  added := msg.added.filter fun p => p.addr.isIpv4
  dropped := msg.dropped.filter SocketAddr.isIpv4

theorem addedFields_eq (added : List PexPeer) :
    addedFields added =
      (((added.map PexPeer.addr).filterMap compactPeerBytes).flatten,
        (added.filter fun p => p.addr.isIpv4).map PexPeer.flags) := by
  induction added with
  | nil => rfl
  | cons p added ih =>
    have hfamily := compactPeerBytes_isSome p.addr
    rw [addedFields, ih]
    cases ha : compactPeerBytes p.addr with
    | none =>
      rw [ha] at hfamily
      rw [List.map_cons, List.filterMap_cons_none ha,
        List.filter_cons_of_neg (by rw [← hfamily]; decide)]
    | some r =>
      rw [ha] at hfamily
      rw [List.map_cons, List.filterMap_cons_some ha,
        @List.filter_cons_of_pos _ (fun q : PexPeer => q.addr.isIpv4) p added hfamily.symm]
      rfl

/-- The addresses and the flags of peers, put together again. -/
theorem peersWith_map (peers : List PexPeer) :
    peersWith (peers.map PexPeer.flags) (peers.map PexPeer.addr) = peers := by
  refine List.ext_getElem ?_ fun i h₁ h₂ => ?_
  · rw [peersWith, List.length_mapIdx, List.length_map]
  · simp only [peersWith, List.getElem_mapIdx, List.getElem_map, List.getElem?_map,
      List.getElem?_eq_getElem h₂]
    rfl

theorem map_addr_filter (added : List PexPeer) :
    (added.map PexPeer.addr).filter SocketAddr.isIpv4 =
      (added.filter fun p => p.addr.isIpv4).map PexPeer.addr := by
  rw [List.filter_map]
  rfl

/-- What is written is read back, but for the IPv6 peers. -/
theorem ofFields_fields (msg : PexMessage) : ofFields msg.fields = msg.ipv4 := by
  show PexMessage.mk
    (peersWith (addedFields msg.added).2 (parseCompactPeers (addedFields msg.added).1))
    (parseCompactPeers (msg.dropped.filterMap compactPeerBytes).flatten) = _
  rw [addedFields_eq, parse_records, parse_records, map_addr_filter, peersWith_map]
  rfl

/-- A message whose lists are not longer than memory. -/
structure Fits (msg : PexMessage) : Prop where
  added : msg.added.length * 6 < 18446744073709551616
  dropped : msg.dropped.length * 6 < 18446744073709551616

theorem length_addedFields (added : List PexPeer) :
    (addedFields added).1.length = (addedFields added).2.length * 6 := by
  rw [addedFields_eq, length_records, map_addr_filter, List.length_map, List.length_map]

theorem fields_proper {msg : PexMessage} (h : msg.Fits) : (Value.dict msg.fields).Proper := by
  have hflags : (addedFields msg.added).2.length ≤ msg.added.length := by
    rw [addedFields_eq, List.length_map]
    exact List.length_filter_le _ _
  have hadded := length_addedFields msg.added
  have hdropped := length_records msg.dropped
  have hless := List.length_filter_le SocketAddr.isIpv4 msg.dropped
  have hfit := h.added
  have hfit' := h.dropped
  refine ⟨⟨SortedMap.insertMany_sorted .nil, ?_⟩, ?_, ?_, ?_, trivial⟩
  · exact SortedMap.forall_mem_insertMany
      (List.forall_mem_cons.mpr ⟨by simp, List.forall_mem_cons.mpr ⟨by simp,
        List.forall_mem_singleton.mpr (by simp)⟩⟩) fun e he => (List.not_mem_nil he).elim
  · show (addedFields msg.added).1.length < 18446744073709551616
    omega
  · show (addedFields msg.added).2.length < 18446744073709551616
    omega
  · show (msg.dropped.filterMap compactPeerBytes).flatten.length < 18446744073709551616
    omega

/-- **The wire carries the IPv4 part of a message**, whole. -/
theorem decode_wire {msg : PexMessage} (h : msg.Fits) : decode msg.encode = .ok msg.ipv4 := by
  rw [decode, encode, Bencode.decode_eq_ok (fields_proper h) (show 1 ≤ 64 by decide)]
  exact congrArg Except.ok (ofFields_fields msg)

end PexMessage

end XferRust.Discovery
