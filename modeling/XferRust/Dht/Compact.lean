import XferRust.Lib.BigEndian
import XferRust.Lib.Records

/-! # Compact addresses (BEP 5, BEP 32)

The packed forms in which KRPC messages carry peers and nodes: 6 and 18 bytes for a peer, 26 and
38 for a node, of IPv4 and of IPv6.  Each is read back record by record; a record whose port is
zero is passed over.
-/
namespace XferRust.Dht

/-- `NodeId`. -/
abbrev NodeId := Octets 20

/-- `InfoHash`. -/
abbrev InfoHash := Octets 20

/-- `SocketAddr`: of IPv6, with the flow information and the scope id. -/
inductive SocketAddr where
  | v4 (ip : Octets 4) (port : UInt16)
  | v6 (ip : Octets 16) (port : UInt16) (flowinfo scopeId : UInt32)
  deriving DecidableEq

namespace SocketAddr

def port : SocketAddr → UInt16
  | v4 _ port => port
  | v6 _ port _ _ => port

def isIpv4 : SocketAddr → Bool
  | v4 .. => true
  | v6 .. => false

def isIpv6 (a : SocketAddr) : Bool := !a.isIpv4

/-- The address with what the compact forms carry of it: the IP and the port. -/
def bare : SocketAddr → SocketAddr
  | v4 ip port => v4 ip port
  | v6 ip port _ _ => v6 ip port 0 0

end SocketAddr

/-- `PeerAddr`, by its one field. -/
abbrev PeerAddr := SocketAddr

/-- `NodeEntry`. -/
structure NodeEntry where
  id : NodeId
  addr : SocketAddr
  deriving DecidableEq

/-- The port in the two bytes at an offset. -/
def portAt (c : List UInt8) (o : Nat) : UInt16 :=
  BigEndian.toU16 (c.getD o 0) (c.getD (o + 1) 0)

theorem portAt_append {front : List UInt8} {o : Nat} (ho : front.length = o) (port : UInt16) :
    portAt (front ++ BigEndian.ofU16 port) o = port := by
  subst ho
  rw [portAt, List.getD_eq_getElem?_getD, List.getD_eq_getElem?_getD,
    List.getElem?_append_right (Nat.le_refl _), List.getElem?_append_right (Nat.le_add_right _ 1),
    Nat.sub_self, Nat.add_sub_cancel_left]
  exact BigEndian.toU16_ofU16 port

/-! ## Peers -/

/-- `PeerAddr::encode_compact`; a peer of the other family has its IP replaced by zeros. -/
def encodeCompact : PeerAddr → List UInt8
  | .v4 ip port => ip.bytes ++ BigEndian.ofU16 port
  | .v6 _ port _ _ => [0, 0, 0, 0] ++ BigEndian.ofU16 port

/-- One record of `from_compact`. -/
def peerOfRecord (c : List UInt8) : Option PeerAddr :=
  let port := portAt c 4
  if port = 0 then none else some (.v4 (.ofSlice 4 c) port)

/-- `PeerAddr::from_compact`. -/
def fromCompact (data : List UInt8) : List PeerAddr :=
  (Records.chunksExact 6 data).filterMap peerOfRecord

/-- One record of `from_compact6`. -/
def peer6OfRecord (c : List UInt8) : Option PeerAddr :=
  let port := portAt c 16
  if port = 0 then none else some (.v6 (.ofSlice 16 c) port 0 0)

/-- `PeerAddr::from_compact6`. -/
def fromCompact6 (data : List UInt8) : List PeerAddr :=
  (Records.chunksExact 18 data).filterMap peer6OfRecord

/-- One record of `encode_peers6_compact`; a peer of the other family has none. -/
def peer6Record : PeerAddr → Option (List UInt8)
  | .v4 .. => none
  | .v6 ip port _ _ => some (ip.bytes ++ BigEndian.ofU16 port)

/-- `encode_peers6_compact`. -/
def encodePeers6Compact (peers : List PeerAddr) : List UInt8 := (peers.filterMap peer6Record).flatten

theorem length_encodeCompact (p : PeerAddr) : (encodeCompact p).length = 6 := by
  cases p with
  | v4 ip port =>
    rw [encodeCompact, List.length_append, ip.length_eq]
    rfl
  | v6 ip port => rfl

/-- The record of an IPv4 peer is read back, unless its port is zero. -/
theorem peerOfRecord_encodeCompact (ip : Octets 4) (port : UInt16) :
    peerOfRecord (encodeCompact (.v4 ip port)) = if port = 0 then none else some (.v4 ip port) := by
  rw [peerOfRecord, encodeCompact, portAt_append ip.length_eq, Octets.ofSlice_append]

theorem fromCompact_encodeCompact (ip : Octets 4) (port : UInt16) :
    fromCompact (encodeCompact (.v4 ip port)) =
      (if port = 0 then none else some (.v4 ip port)).toList := by
  rw [fromCompact, Records.chunksExact_self (by decide) (length_encodeCompact _),
    List.filterMap_cons,
    peerOfRecord_encodeCompact, List.filterMap_nil]
  split <;> simp_all

theorem length_peer6Record {p : PeerAddr} {r : List UInt8} (h : peer6Record p = some r) :
    r.length = 18 := by
  cases p with
  | v4 => cases h
  | v6 ip port =>
    obtain rfl := Option.some.inj h
    rw [List.length_append, ip.length_eq]
    rfl

theorem length_encodePeers6Compact (peers : List PeerAddr) :
    (encodePeers6Compact peers).length = (peers.filterMap peer6Record).length * 18 := by
  refine Records.length_flatten fun r hr => ?_
  obtain ⟨p, _, hp⟩ := List.mem_filterMap.mp hr
  exact length_peer6Record hp

/-- The record of an IPv6 peer gives its IP and its port back, unless the port is zero. -/
theorem peer6OfRecord_peer6Record (p : PeerAddr) :
    (peer6Record p).bind peer6OfRecord =
      if p.isIpv6 ∧ p.port ≠ 0 then some p.bare else none := by
  cases p with
  | v4 => rfl
  | v6 ip port flowinfo scopeId =>
    show peer6OfRecord (ip.bytes ++ BigEndian.ofU16 port) = _
    rw [peer6OfRecord, portAt_append ip.length_eq, Octets.ofSlice_append]
    by_cases hport : port = 0 <;> simp [hport, SocketAddr.isIpv6, SocketAddr.isIpv4,
      SocketAddr.port, SocketAddr.bare]

/-- **The peers of `peers6` are the IPv6 peers with a port.** -/
theorem fromCompact6_encodePeers6Compact (peers : List PeerAddr) :
    fromCompact6 (encodePeers6Compact peers) =
      (peers.filter fun p => p.isIpv6 ∧ p.port ≠ 0).map SocketAddr.bare := by
  rw [fromCompact6, encodePeers6Compact, Records.chunksExact_flatten (by decide) fun r hr => by
    obtain ⟨p, _, hp⟩ := List.mem_filterMap.mp hr
    exact length_peer6Record hp]
  rw [List.filterMap_filterMap, ← List.filterMap_eq_map, List.filterMap_filter]
  refine congrArg (List.filterMap · peers) (funext fun p => ?_)
  rw [peer6OfRecord_peer6Record]
  simp

/-! ## Nodes -/

/-- The address that `encode_nodes_compact` writes for a node of the other family. -/
def fallbackIp : Octets 4 := ⟨[127, 0, 0, 1], rfl⟩

/-- One record of `encode_nodes_compact`. -/
def nodeRecord (n : NodeEntry) : List UInt8 :=
  let ip := match n.addr with
    | .v4 ip _ => ip
    | .v6 .. => fallbackIp
  n.id.bytes ++ ip.bytes ++ BigEndian.ofU16 n.addr.port

/-- `encode_nodes_compact`. -/
def encodeNodesCompact (nodes : List NodeEntry) : List UInt8 := nodes.flatMap nodeRecord

/-- One record of `decode_nodes_compact`. -/
def nodeOfRecord (c : List UInt8) : Option NodeEntry :=
  let port := portAt c 24
  if port = 0 then none
  else some { id := .ofSlice 20 c, addr := .v4 (.ofSlice 4 (c.drop 20)) port }

/-- `decode_nodes_compact`. -/
def decodeNodesCompact (data : List UInt8) : List NodeEntry :=
  (Records.chunksExact 26 data).filterMap nodeOfRecord

/-- One record of `decode_nodes6_compact`. -/
def node6OfRecord (c : List UInt8) : Option NodeEntry :=
  let port := portAt c 36
  if port = 0 then none
  else some { id := .ofSlice 20 c, addr := .v6 (.ofSlice 16 (c.drop 20)) port 0 0 }

/-- `decode_nodes6_compact`. -/
def decodeNodes6Compact (data : List UInt8) : List NodeEntry :=
  (Records.chunksExact 38 data).filterMap node6OfRecord

/-- One record of `encode_nodes6_compact`; a node of the other family has none. -/
def node6Record (n : NodeEntry) : Option (List UInt8) :=
  match n.addr with
  | .v6 ip port _ _ => some (n.id.bytes ++ ip.bytes ++ BigEndian.ofU16 port)
  | .v4 .. => none

/-- `encode_nodes6_compact`. -/
def encodeNodes6Compact (nodes : List NodeEntry) : List UInt8 :=
  (nodes.filterMap node6Record).flatten

/-- The node with what the compact forms carry of its address. -/
def NodeEntry.bare (n : NodeEntry) : NodeEntry := { n with addr := n.addr.bare }

/-- The node as `encode_nodes_compact` writes it. -/
def NodeEntry.written (n : NodeEntry) : NodeEntry :=
  match n.addr with
  | .v4 .. => n
  | .v6 _ port _ _ => { n with addr := .v4 fallbackIp port }

theorem length_nodeRecord (n : NodeEntry) : (nodeRecord n).length = 26 := by
  simp only [nodeRecord, List.length_append, Octets.length_bytes]
  rfl

theorem length_encodeNodesCompact (nodes : List NodeEntry) :
    (encodeNodesCompact nodes).length = nodes.length * 26 := by
  rw [encodeNodesCompact, List.flatMap_def, Records.length_flatten fun r hr => by
    obtain ⟨n, _, rfl⟩ := List.mem_map.mp hr
    exact length_nodeRecord n]
  rw [List.length_map]

/-- The record of a node gives the node back as it was written, unless its port is zero. -/
theorem nodeOfRecord_nodeRecord (n : NodeEntry) :
    nodeOfRecord (nodeRecord n) = if n.addr.port = 0 then none else some n.written := by
  obtain ⟨id, addr⟩ := n
  have hrecord (ip : Octets 4) (port : UInt16) :
      nodeOfRecord (id.bytes ++ ip.bytes ++ BigEndian.ofU16 port) =
        if port = 0 then none else some ⟨id, .v4 ip port⟩ := by
    have hfront : (id.bytes ++ ip.bytes).length = 24 := by
      rw [List.length_append, id.length_eq, ip.length_eq]
    rw [nodeOfRecord, portAt_append hfront, List.append_assoc, Octets.ofSlice_append,
      List.drop_left' id.length_eq, Octets.ofSlice_append]
  cases addr with
  | v4 ip port => exact hrecord ip port
  | v6 _ port => exact hrecord fallbackIp port

/-- **What `nodes` carries**: every node with a port, each IPv6 node among them rewritten to the
loopback address. -/
theorem decodeNodesCompact_encodeNodesCompact (nodes : List NodeEntry) :
    decodeNodesCompact (encodeNodesCompact nodes) =
      (nodes.filter fun n => n.addr.port ≠ 0).map NodeEntry.written := by
  rw [decodeNodesCompact, encodeNodesCompact, List.flatMap_def,
    Records.chunksExact_flatten (by decide) fun r hr => by
      obtain ⟨n, _, rfl⟩ := List.mem_map.mp hr
      exact length_nodeRecord n]
  rw [List.filterMap_map, ← List.filterMap_eq_map, List.filterMap_filter]
  refine congrArg (List.filterMap · nodes) (funext fun n => ?_)
  rw [Function.comp_apply, nodeOfRecord_nodeRecord]
  simp

theorem length_node6Record {n : NodeEntry} {r : List UInt8} (h : node6Record n = some r) :
    r.length = 38 := by
  obtain ⟨id, addr⟩ := n
  cases addr with
  | v4 => cases h
  | v6 ip port =>
    obtain rfl := Option.some.inj h
    rw [List.length_append, List.length_append, id.length_eq, ip.length_eq]
    rfl

theorem length_encodeNodes6Compact (nodes : List NodeEntry) :
    (encodeNodes6Compact nodes).length = (nodes.filterMap node6Record).length * 38 := by
  refine Records.length_flatten fun r hr => ?_
  obtain ⟨n, _, hn⟩ := List.mem_filterMap.mp hr
  exact length_node6Record hn

theorem node6OfRecord_node6Record (n : NodeEntry) :
    (node6Record n).bind node6OfRecord =
      if n.addr.isIpv6 ∧ n.addr.port ≠ 0 then some n.bare else none := by
  obtain ⟨id, addr⟩ := n
  cases addr with
  | v4 => rfl
  | v6 ip port flowinfo scopeId =>
    have hfront : (id.bytes ++ ip.bytes).length = 36 := by
      rw [List.length_append, id.length_eq, ip.length_eq]
    show node6OfRecord (id.bytes ++ ip.bytes ++ BigEndian.ofU16 port) = _
    rw [node6OfRecord, portAt_append hfront, List.append_assoc, Octets.ofSlice_append,
      List.drop_left' id.length_eq, Octets.ofSlice_append]
    by_cases hport : port = 0 <;> simp [hport, SocketAddr.isIpv6, SocketAddr.isIpv4,
      SocketAddr.port, SocketAddr.bare, NodeEntry.bare]

/-- **What `nodes6` carries**: the IPv6 nodes with a port. -/
theorem decodeNodes6Compact_encodeNodes6Compact (nodes : List NodeEntry) :
    decodeNodes6Compact (encodeNodes6Compact nodes) =
      (nodes.filter fun n => n.addr.isIpv6 ∧ n.addr.port ≠ 0).map NodeEntry.bare := by
  rw [decodeNodes6Compact, encodeNodes6Compact,
    Records.chunksExact_flatten (by decide) fun r hr => by
      obtain ⟨n, _, hn⟩ := List.mem_filterMap.mp hr
      exact length_node6Record hn]
  rw [List.filterMap_filterMap, ← List.filterMap_eq_map, List.filterMap_filter]
  refine congrArg (List.filterMap · nodes) (funext fun n => ?_)
  rw [node6OfRecord_node6Record]
  simp

end XferRust.Dht
