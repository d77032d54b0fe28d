import XferRust.Dht.Krpc

/-! # What one side encodes the other side parses

The queries come back as they were sent.  Of the peers of a response every one with a port comes
back, those of IPv4 first; the compact form of an IPv6 peer has no room for its flow information
and its scope id.  Of the nodes of a response every one with a port comes back too, but an IPv6
node in the list for IPv4 comes back under the loopback address.
-/
namespace XferRust.Dht
open Bencode (Key Value decode encode)
open SortedMap (insertMany lookup)

/-! ## Reading a built dictionary -/

theorem lookup_built (k : Key) (new : Dict) :
    lookup k (insertMany new []) = lookup k new.reverse := by
  rw [SortedMap.find_insertMany]
  exact Option.or_none

/-- What a field of a message needs so that the message is read back: a short key, and a value
that is not too long and not too deep. -/
def Fits (n : Nat) (e : Key × Value) : Prop :=
  e.1.length < 18446744073709551616 ∧ e.2.Proper ∧ e.2.depth ≤ n

theorem Fits.mono {m n : Nat} {e : Key × Value} (h : Fits m e) (hmn : m ≤ n) : Fits n e :=
  ⟨h.1, h.2.1, Nat.le_trans h.2.2 hmn⟩

theorem fits_bytes {k : Key} {b : List UInt8} (n : Nat) (hk : k.length < 18446744073709551616)
    (hb : b.length < 18446744073709551616) : Fits n (k, .bytes b) := ⟨hk, hb, Nat.zero_le n⟩

theorem fits_int {k : Key} (n : Nat) (i : Int64) (hk : k.length < 18446744073709551616) :
    Fits n (k, .int i) := ⟨hk, trivial, Nat.zero_le n⟩

theorem fits_octets {k : Key} {m : Nat} (n : Nat) (o : Octets m)
    (hk : k.length < 18446744073709551616) (hm : m < 18446744073709551616) :
    Fits n (k, .bytes o.bytes) :=
  fits_bytes n hk (o.length_eq.symm ▸ hm)

theorem fits_dict {k : Key} {n : Nat} {new : Dict} (hk : k.length < 18446744073709551616)
    (h : ∀ e ∈ new, Fits n e) : Fits (n + 1) (k, .dict (insertMany new [])) :=
  ⟨hk, Value.insertMany_proper fun e he => ⟨(h e he).1, (h e he).2.1⟩,
    Value.insertMany_depth fun e he => Nat.succ_le_succ (h e he).2.2⟩

theorem topLevel_encode {new : Dict} (h : ∀ e ∈ new, Fits (Bencode.maxDepth - 1) e)
    (text : String) : topLevel (encode (.dict (insertMany new []))) text = .ok (insertMany new []) := by
  have hfits : Fits Bencode.maxDepth (tKey, .dict (insertMany new [])) := fits_dict (by decide) h
  rw [topLevel, Bencode.decode_eq_ok hfits.2.1 hfits.2.2]
  rfl

theorem octetsAt_of_lookup {k : Key} {d : Dict} {o : Octets 20}
    (h : lookup k d = some (.bytes o.bytes)) (missing bad : String) :
    octetsAt k d missing bad = .ok o := by
  have hbytes : bytesAt k d = some o.bytes := by rw [bytesAt, h]; rfl
  rw [octetsAt, hbytes]
  show (if o.bytes.length ≠ 20 then _ else _) = _
  rw [if_neg (not_not_intro o.length_eq), Octets.ofSlice_bytes]

/-! ## Queries -/

/-- The arguments of a query are read back, and with them what the method makes of them. -/
theorem parseQuery_encodeQuery (tid : Octets 2) {method : List UInt8} (q : String) {id : NodeId}
    {args : Dict} (hlen : method.length < 18446744073709551616)
    (hq : (Value.bytes method).asStr = some q) (hargs : ∀ e ∈ args, Fits 0 e)
    (hid : lookup idKey (insertMany args []) = some (.bytes id.bytes)) :
    parseQuery (encodeQuery tid method (insertMany args [])) =
      queryOf q tid.bytes id (insertMany args []) := by
  have hfields : ∀ e ∈ queryFields tid method (insertMany args []),
      Fits (Bencode.maxDepth - 1) e := by
    refine List.forall_mem_cons.mpr ⟨fits_octets _ tid (by decide) (by decide), ?_⟩
    refine List.forall_mem_cons.mpr ⟨fits_bytes _ (by decide) (by decide), ?_⟩
    refine List.forall_mem_cons.mpr ⟨fits_bytes _ (by decide) hlen, ?_⟩
    exact List.forall_mem_singleton.mpr
      (fits_dict (by decide) fun e he => (hargs e he).mono (Nat.zero_le _))
  have htop := topLevel_encode hfields "消息顶层必须是字典"
  have ht : bytesAt tKey (insertMany (queryFields tid method (insertMany args [])) []) =
      some tid.bytes := by
    rw [bytesAt, lookup_built]
    rfl
  have hy : strAt yKey (insertMany (queryFields tid method (insertMany args [])) []) =
      some "q" := by
    rw [strAt, lookup_built]
    rfl
  have hq' : strAt qKey (insertMany (queryFields tid method (insertMany args [])) []) =
      some q := by
    rw [strAt, lookup_built]
    exact hq
  have ha : dictAt aKey (insertMany (queryFields tid method (insertMany args [])) []) =
      some (insertMany args []) := by
    rw [dictAt, lookup_built]
    rfl
  rw [parseQuery, encodeQuery, htop]
  simp only [ht, hy, hq', ha, need, octetsAt_of_lookup hid, bind, Except.bind, ne_eq,
    not_true_eq_false, if_false]

theorem parseQuery_encodePing (tid : Octets 2) (id : NodeId) :
    parseQuery (encodePing tid id) = .ok (.ping tid.bytes id) := by
  have hargs : ∀ e ∈ [(idKey, Value.bytes id.bytes)], Fits 0 e :=
    List.forall_mem_singleton.mpr (fits_octets 0 id (by decide) (by decide))
  rw [encodePing, parseQuery_encodeQuery tid "ping" (by decide) rfl hargs (lookup_built _ _),
    queryOf, if_pos rfl]

theorem parseQuery_encodeFindNode (tid : Octets 2) (id target : NodeId) :
    parseQuery (encodeFindNode tid id target) = .ok (.findNode tid.bytes id target) := by
  have hargs : ∀ e ∈ [(idKey, Value.bytes id.bytes), (targetKey, .bytes target.bytes)],
      Fits 0 e :=
    List.forall_mem_cons.mpr ⟨fits_octets 0 id (by decide) (by decide),
      List.forall_mem_singleton.mpr (fits_octets 0 target (by decide) (by decide))⟩
  rw [encodeFindNode, parseQuery_encodeQuery tid "find_node" (by decide) rfl hargs
    (lookup_built _ _), queryOf, if_neg (by decide), if_pos rfl,
    octetsAt_of_lookup (lookup_built _ _)]
  rfl

theorem parseQuery_encodeGetPeers (tid : Octets 2) (id : NodeId) (infoHash : InfoHash) :
    parseQuery (encodeGetPeers tid id infoHash) = .ok (.getPeers tid.bytes id infoHash) := by
  have hargs : ∀ e ∈ [(idKey, Value.bytes id.bytes), (infoHashKey, .bytes infoHash.bytes)],
      Fits 0 e :=
    List.forall_mem_cons.mpr ⟨fits_octets 0 id (by decide) (by decide),
      List.forall_mem_singleton.mpr (fits_octets 0 infoHash (by decide) (by decide))⟩
  rw [encodeGetPeers, parseQuery_encodeQuery tid "get_peers" (by decide) rfl hargs
    (lookup_built _ _), queryOf, if_neg (by decide), if_neg (by decide), if_pos rfl,
    octetsAt_of_lookup (lookup_built _ _)]
  rfl

/-- The port of a query as a signed number, and back. -/
theorem toUInt16_port (port : UInt16) : port.toUInt64.toInt64.toUInt64.toUInt16 = port := by
  simp

theorem toInt_port (port : UInt16) : port.toUInt64.toInt64.toInt = port.toNat := by
  have hport := port.toNat_lt
  show (port.toUInt64.toBitVec).toInt = port.toNat
  rw [BitVec.toInt_eq_toNat_of_lt (by
    show 2 * port.toUInt64.toNat < 2 ^ 64
    rw [UInt16.toNat_toUInt64]
    omega)]
  rfl

theorem parseQuery_encodeAnnouncePeer (tid : Octets 2) (id : NodeId) (infoHash : InfoHash)
    {port : UInt16} {token : List UInt8} (impliedPort : Bool) (hport : 0 < port)
    (htoken : token.length < 18446744073709551616) :
    parseQuery (encodeAnnouncePeer tid id infoHash port token impliedPort) =
      .ok (.announcePeer tid.bytes id infoHash (some port) impliedPort token) := by
  have hargs : ∀ e ∈ [(idKey, Value.bytes id.bytes), (infoHashKey, .bytes infoHash.bytes),
      (impliedPortKey, .int (if impliedPort then 1 else 0)),
      (portKey, .int port.toUInt64.toInt64), (tokenKey, .bytes token)], Fits 0 e := by
    refine List.forall_mem_cons.mpr ⟨fits_octets 0 id (by decide) (by decide), ?_⟩
    refine List.forall_mem_cons.mpr ⟨fits_octets 0 infoHash (by decide) (by decide), ?_⟩
    refine List.forall_mem_cons.mpr ⟨fits_int 0 _ (by decide), ?_⟩
    refine List.forall_mem_cons.mpr ⟨fits_int 0 _ (by decide), ?_⟩
    exact List.forall_mem_singleton.mpr (fits_bytes 0 (by decide) htoken)
  rw [encodeAnnouncePeer, parseQuery_encodeQuery tid "announce_peer" (by decide) rfl hargs
    (lookup_built _ _), queryOf, if_neg (by decide), if_neg (by decide), if_neg (by decide),
    if_pos rfl, octetsAt_of_lookup (lookup_built _ _), intAt, intAt, bytesAt, lookup_built,
    lookup_built, lookup_built]
  have hrange : 0 < port.toUInt64.toInt64.toInt ∧ port.toUInt64.toInt64.toInt ≤ 65535 := by
    have hport : 0 < port.toNat := hport
    have hlt := port.toNat_lt
    rw [toInt_port]
    omega
  show Except.ok (IncomingQuery.announcePeer tid.bytes id infoHash
    (((some port.toUInt64.toInt64).filter fun p => 0 < p.toInt ∧ p.toInt ≤ 65535).map
      fun p => p.toUInt64.toUInt16) ((if impliedPort then 1 else 0 : Int64) != 0) token) = _
  rw [Option.filter_some, if_pos (decide_eq_true hrange), Option.map_some, toUInt16_port]
  cases impliedPort <;> rfl

/-! ## Responses -/

/-- The arguments of a response are read back, and the id among them. -/
theorem responseArgs_responseMessage (text : Value → String) (tid : Octets 2) {id : NodeId}
    {fields : Dict} (hfields : ∀ e ∈ fields, Fits 1 e)
    (hid : lookup idKey (insertMany fields []) = some (.bytes id.bytes)) :
    responseArgs text (responseMessage tid.bytes fields) tid =
      .ok (insertMany fields [], id) := by
  have htop_fits : ∀ e ∈ responseTop tid.bytes (insertMany fields []),
      Fits (Bencode.maxDepth - 1) e := by
    refine List.forall_mem_cons.mpr ⟨fits_octets _ tid (by decide) (by decide), ?_⟩
    refine List.forall_mem_cons.mpr ⟨fits_bytes _ (by decide) (by decide), ?_⟩
    exact List.forall_mem_singleton.mpr
      (fits_dict (by decide) fun e he => (hfields e he).mono (by decide))
  have htop := topLevel_encode htop_fits "响应顶层必须是字典"
  have ht : bytesAt tKey (insertMany (responseTop tid.bytes (insertMany fields [])) []) =
      some tid.bytes := by
    rw [bytesAt, lookup_built]
    rfl
  have hy : strAt yKey (insertMany (responseTop tid.bytes (insertMany fields [])) []) =
      some "r" := by
    rw [strAt, lookup_built]
    rfl
  have hr : dictAt rKey (insertMany (responseTop tid.bytes (insertMany fields [])) []) =
      some (insertMany fields []) := by
    rw [dictAt, lookup_built]
    rfl
  rw [responseArgs, responseMessage, htop]
  simp only [ht, hy, hr, need, octetsAt_of_lookup hid, bind, Except.bind, ne_eq,
    not_true_eq_false, if_false, if_true]

theorem mem_fieldUnless {skip : Bool} {k : Key} {b : List UInt8} {e : Key × Value}
    (h : e ∈ fieldUnless skip k b) : e = (k, .bytes b) := by
  cases skip with
  | true => cases h
  | false => exact List.mem_singleton.mp h

/-! ### Peers -/

section Peers
variable (id : NodeId) (peers : List PeerAddr) (token : List UInt8)

theorem lookup_id_peersFields :
    lookup idKey (insertMany (peersFields id peers token) []) = some (.bytes id.bytes) := by
  rw [lookup_built, peersFields, fieldUnless]
  cases (encodePeers6Compact peers).isEmpty <;> rfl

theorem token_peersFields :
    bytesAt tokenKey (insertMany (peersFields id peers token) []) = some token := by
  rw [bytesAt, lookup_built, peersFields, fieldUnless]
  cases (encodePeers6Compact peers).isEmpty <;> rfl

theorem nodes_peersFields : decodeNodesField (insertMany (peersFields id peers token) []) = [] := by
  rw [decodeNodesField, bytesAt, bytesAt, lookup_built, lookup_built, peersFields, fieldUnless]
  cases (encodePeers6Compact peers).isEmpty <;> rfl

omit id token in
/-- The values are read one by one, each as one record. -/
theorem flatMap_values :
    (((peers.filter SocketAddr.isIpv4).map fun p => Value.bytes (encodeCompact p)).filterMap
      Value.asBytes).flatMap peersOfItem = peers.filter fun p => p.isIpv4 ∧ p.port ≠ 0 := by
  induction peers with
  | nil => rfl
  | cons p peers ih =>
    cases p with
    | v6 ip port flowinfo scopeId => exact ih
    | v4 ip port =>
      show peersOfItem (encodeCompact (.v4 ip port)) ++ List.flatMap peersOfItem _ = _
      rw [ih, peersOfItem, if_pos (length_encodeCompact _), fromCompact_encodeCompact,
        List.filter_cons]
      by_cases hport : port = 0
      · rw [if_pos hport, if_neg fun h => (of_decide_eq_true h).2 hport]
        rfl
      · rw [if_neg hport, if_pos (decide_eq_true ⟨rfl, hport⟩)]
        rfl

theorem values_peersFields : peersOfValues (insertMany (peersFields id peers token) []) =
    some (peers.filter fun p => p.isIpv4 ∧ p.port ≠ 0) := by
  have hlookup : lookup valuesKey (insertMany (peersFields id peers token) []) =
      some (.list ((peers.filter SocketAddr.isIpv4).map fun p => .bytes (encodeCompact p))) := by
    rw [lookup_built, peersFields, fieldUnless]
    cases (encodePeers6Compact peers).isEmpty <;> rfl
  rw [peersOfValues, hlookup, ← flatMap_values]

/-- The peers under `peers6`, whether or not the field is there. -/
theorem peers6_peersFields : peersOfPeers6 (insertMany (peersFields id peers token) []) =
    (peers.filter fun p => p.isIpv6 ∧ p.port ≠ 0).map SocketAddr.bare := by
  have hlookup : lookup peers6Key (insertMany (peersFields id peers token) []) =
      if (encodePeers6Compact peers).isEmpty then none
        else some (.bytes (encodePeers6Compact peers)) := by
    rw [lookup_built, peersFields, fieldUnless]
    cases (encodePeers6Compact peers).isEmpty <;> rfl
  have hlen : (encodePeers6Compact peers).length % 18 = 0 := by
    rw [length_encodePeers6Compact]
    exact Nat.mul_mod_left _ _
  rw [← fromCompact6_encodePeers6Compact, peersOfPeers6, hlookup]
  cases hempty : (encodePeers6Compact peers).isEmpty with
  | true => rw [List.isEmpty_iff.mp hempty]; rfl
  | false => exact if_pos ⟨hempty, hlen⟩

variable {id peers token}

theorem fits_peersFields (hpeers : 18 * peers.length < 18446744073709551616)
    (htoken : token.length < 18446744073709551616) :
    ∀ e ∈ peersFields id peers token, Fits 1 e := by
  have hlen6 : (encodePeers6Compact peers).length < 18446744073709551616 := by
    have hle : (peers.filterMap peer6Record).length ≤ peers.length := List.length_filterMap_le _ _
    rw [length_encodePeers6Compact]
    omega
  have hvalues : Fits 1 (valuesKey,
      .list ((peers.filter SocketAddr.isIpv4).map fun p => .bytes (encodeCompact p))) := by
    refine ⟨show valuesKey.length < _ by decide, ⟨trivial, Value.allItems_iff.mpr fun v hv => ?_⟩,
      Value.depthItems_le.mpr fun v hv => ?_⟩
    · obtain ⟨p, _, rfl⟩ := List.mem_map.mp hv
      show (encodeCompact p).length < 18446744073709551616
      rw [length_encodeCompact]
      decide
    · obtain ⟨p, _, rfl⟩ := List.mem_map.mp hv
      exact Nat.le_refl 1
  refine List.forall_mem_cons.mpr ⟨fits_octets 1 id (by decide) (by decide), ?_⟩
  refine List.forall_mem_cons.mpr ⟨hvalues, fun e he => ?_⟩
  rcases List.mem_append.mp he with he | he
  · rw [mem_fieldUnless he]
    exact fits_bytes 1 (by decide) hlen6
  · rw [List.mem_singleton.mp he]
    exact fits_bytes 1 (by decide) htoken

/-- **The peers of a response come back**: those of IPv4 and then those of IPv6, all with a port,
and nothing else. -/
theorem parseGetPeersResponse_encode (tid : Octets 2)
    (hpeers : 18 * peers.length < 18446744073709551616)
    (htoken : token.length < 18446744073709551616) :
    parseGetPeersResponse (encodeGetPeersResponseWithPeers tid.bytes id peers token) tid =
      .ok
        { responderId := id
          token := token
          peers := some ((peers.filter fun p => p.isIpv4 ∧ p.port ≠ 0)
            ++ (peers.filter fun p => p.isIpv6 ∧ p.port ≠ 0).map SocketAddr.bare)
          nodes := [] } := by
  rw [parseGetPeersResponse, encodeGetPeersResponseWithPeers,
    responseArgs_responseMessage _ tid (fits_peersFields hpeers htoken)
      (lookup_id_peersFields id peers token)]
  show Except.ok (GetPeersResponse.mk id ((bytesAt tokenKey _).getD []) _ (decodeNodesField _)) = _
  rw [token_peersFields, nodes_peersFields, values_peersFields, peers6_peersFields]
  cases h6 : (peers.filter fun p => p.isIpv6 ∧ p.port ≠ 0).map SocketAddr.bare with
  | nil => simp
  | cons p rest => rfl

end Peers

/-- **Queries and responses round trip.**  A query is parsed to what was encoded; of the peers of a
response those of IPv4 with a port come back as they are, and after them those of IPv6 with a port
by IP and port, with flow information and scope id zero.  A slice and a vector are no longer than
memory. -/
theorem krpc_round_trip (tid : Octets 2) (id target : NodeId) (infoHash : InfoHash)
    (port : UInt16) (token : List UInt8) (impliedPort : Bool) (peers : List PeerAddr)
    (hport : 0 < port) (htoken : token.length < 18446744073709551616)
    (hpeers : 18 * peers.length < 18446744073709551616) :
    parseQuery (encodePing tid id) = .ok (.ping tid.bytes id) ∧
    parseQuery (encodeFindNode tid id target) = .ok (.findNode tid.bytes id target) ∧
    parseQuery (encodeGetPeers tid id infoHash) = .ok (.getPeers tid.bytes id infoHash) ∧
    parseQuery (encodeAnnouncePeer tid id infoHash port token impliedPort) =
      .ok (.announcePeer tid.bytes id infoHash (some port) impliedPort token) ∧
    parseGetPeersResponse (encodeGetPeersResponseWithPeers tid.bytes id peers token) tid =
      .ok
        { responderId := id
          token := token
          peers := some ((peers.filter fun p => p.isIpv4 ∧ p.port ≠ 0)
            ++ (peers.filter fun p => p.isIpv6 ∧ p.port ≠ 0).map SocketAddr.bare)
          nodes := [] } :=
  ⟨parseQuery_encodePing tid id, parseQuery_encodeFindNode tid id target,
    parseQuery_encodeGetPeers tid id infoHash,
    parseQuery_encodeAnnouncePeer tid id infoHash impliedPort hport htoken,
    parseGetPeersResponse_encode tid hpeers htoken⟩

/-- `[fe80::1%2]:6881`. -/
def linkLocalPeer : PeerAddr :=
  .v6 ⟨[254, 128, 0, 0, 0, 0, 0, 0, 0, 0, 0, 0, 0, 0, 0, 1], rfl⟩ 6881 0 2

def zeroId : NodeId := ⟨List.replicate 20 0, rfl⟩

theorem linkLocalPeer_round_trip :
    0 < (6881 : UInt16) ∧ parseGetPeersResponse
      (encodeGetPeersResponseWithPeers [97, 97] zeroId [linkLocalPeer] [1]) ⟨[97, 97], rfl⟩ =
        .ok { responderId := zeroId, token := [1], peers := some [linkLocalPeer.bare], nodes := [] } :=
  ⟨by decide, (krpc_round_trip ⟨[97, 97], rfl⟩ zeroId zeroId zeroId 6881 [1] true [linkLocalPeer]
    (by decide) (by decide) (by decide)).2.2.2.2⟩

/-- The scope of a link-local peer is lost on the way. -/
theorem linkLocalPeer_changed :
    ¬ (parseGetPeersResponse
      (encodeGetPeersResponseWithPeers [97, 97] zeroId [linkLocalPeer] [1]) ⟨[97, 97], rfl⟩ =
        .ok { responderId := zeroId, token := [1], peers := some [linkLocalPeer], nodes := [] }) := by
  rw [@parseGetPeersResponse_encode zeroId [linkLocalPeer] [1] ⟨[97, 97], rfl⟩ (by decide)
    (by decide)]
  decide


/-! ### Nodes -/

/-- What a list of nodes and one for IPv6 are to give: nodes of the lists with their own id and
address, and no node of the wrong family. -/
structure CarriesOwn (nodes nodes6 decoded : List NodeEntry) : Prop where
  own : ∀ n ∈ decoded, ∃ given ∈ nodes ++ nodes6, n = given.bare
  skipped : decoded = (nodes.filter fun n => n.addr.isIpv4 ∧ n.addr.port ≠ 0)
    ++ (nodes6.filter fun n => n.addr.isIpv6 ∧ n.addr.port ≠ 0).map NodeEntry.bare

theorem written_eq_iff (nodes : List NodeEntry) :
    (nodes.filter fun n => n.addr.port ≠ 0).map NodeEntry.written =
        (nodes.filter fun n => n.addr.isIpv4 ∧ n.addr.port ≠ 0) ↔
      ∀ n ∈ nodes, n.addr.isIpv6 → n.addr.port = 0 := by
  have hfilter : (nodes.filter fun n => n.addr.isIpv4 ∧ n.addr.port ≠ 0) =
      (nodes.filter fun n => n.addr.port ≠ 0).filter fun n => n.addr.isIpv4 := by
    rw [List.filter_filter]
    refine congrArg (List.filter · nodes) (funext fun n => ?_)
    simp
  rw [hfilter]
  constructor
  · intro h n hn h6
    -- nothing is dropped by the second filter, since the lengths agree
    have hlen := congrArg List.length h
    rw [List.length_map] at hlen
    have hall := List.length_filter_eq_length_iff.mp hlen.symm
    by_contra hport
    have h4 := hall n (List.mem_filter.mpr ⟨hn, decide_eq_true hport⟩)
    rw [SocketAddr.isIpv6, h4] at h6
    cases h6
  · intro h
    have h4 : ∀ n ∈ nodes.filter fun n => n.addr.port ≠ 0, n.addr.isIpv4 = true := by
      intro n hn
      obtain ⟨hmem, hport⟩ := List.mem_filter.mp hn
      by_contra h4
      exact of_decide_eq_true hport (h n hmem (by
        rw [SocketAddr.isIpv6, eq_false_of_ne_true h4]
        rfl))
    rw [List.filter_eq_self.mpr h4]
    refine (List.map_congr_left fun n hn => ?_).trans (List.map_id _)
    obtain ⟨id, addr⟩ := n
    cases addr with
    | v4 => rfl
    | v6 => cases h4 _ hn

section Nodes
variable (ourId : NodeId) (nodes nodes6 : List NodeEntry) (token : Option (List UInt8))

theorem lookup_id_responseFields :
    lookup idKey (insertMany (responseFields ourId nodes nodes6 token) []) =
      some (.bytes ourId.bytes) := by
  rw [lookup_built, responseFields, fieldUnless, fieldUnless]
  cases nodes.isEmpty <;> cases nodes6.isEmpty || (encodeNodes6Compact nodes6).isEmpty <;>
    cases token <;> rfl

theorem token_responseFields :
    bytesAt tokenKey (insertMany (responseFields ourId nodes nodes6 token) []) = token := by
  rw [bytesAt, lookup_built, responseFields, fieldUnless, fieldUnless]
  cases nodes.isEmpty <;> cases nodes6.isEmpty || (encodeNodes6Compact nodes6).isEmpty <;>
    cases token <;> rfl

/-- A field that is left out would have carried nothing. -/
theorem nodes_responseFields :
    decodeNodesField (insertMany (responseFields ourId nodes nodes6 token) []) =
      decodeNodesCompact (encodeNodesCompact nodes) ++
        decodeNodes6Compact (encodeNodes6Compact nodes6) := by
  have hnodes : bytesAt nodesKey (insertMany (responseFields ourId nodes nodes6 token) []) =
      if nodes.isEmpty then none else some (encodeNodesCompact nodes) := by
    rw [bytesAt, lookup_built, responseFields, fieldUnless, fieldUnless]
    cases nodes.isEmpty <;> cases nodes6.isEmpty || (encodeNodes6Compact nodes6).isEmpty <;>
      cases token <;> rfl
  have hnodes6 : bytesAt nodes6Key (insertMany (responseFields ourId nodes nodes6 token) []) =
      if nodes6.isEmpty || (encodeNodes6Compact nodes6).isEmpty then none
        else some (encodeNodes6Compact nodes6) := by
    rw [bytesAt, lookup_built, responseFields, fieldUnless, fieldUnless]
    cases nodes.isEmpty <;> cases nodes6.isEmpty || (encodeNodes6Compact nodes6).isEmpty <;>
      cases token <;> rfl
  have hfirst : ((bytesAt nodesKey (insertMany (responseFields ourId nodes nodes6 token) [])).map
      decodeNodesCompact).getD [] = decodeNodesCompact (encodeNodesCompact nodes) := by
    rw [hnodes]
    cases nodes <;> rfl
  have hsecond : ((bytesAt nodes6Key (insertMany (responseFields ourId nodes nodes6 token) [])).map
      decodeNodes6Compact).getD [] = decodeNodes6Compact (encodeNodes6Compact nodes6) := by
    rw [hnodes6]
    cases nodes6 with
    | nil => rfl
    | cons n rest =>
      cases hempty : (encodeNodes6Compact (n :: rest)).isEmpty with
      | true => rw [List.isEmpty_iff.mp hempty]; rfl
      | false => rfl
  rw [decodeNodesField, hfirst, hsecond]

variable {nodes nodes6 token}

theorem fits_responseFields (hnodes : 26 * nodes.length < 18446744073709551616)
    (hnodes6 : 38 * nodes6.length < 18446744073709551616)
    (htoken : ∀ t ∈ token, t.length < 18446744073709551616) :
    ∀ e ∈ responseFields ourId nodes nodes6 token, Fits 1 e := by
  have hlen : (encodeNodesCompact nodes).length < 18446744073709551616 := by
    rw [length_encodeNodesCompact]
    omega
  have hlen6 : (encodeNodes6Compact nodes6).length < 18446744073709551616 := by
    have hle : (nodes6.filterMap node6Record).length ≤ nodes6.length := List.length_filterMap_le _ _
    rw [length_encodeNodes6Compact]
    omega
  refine List.forall_mem_cons.mpr ⟨fits_octets 1 ourId (by decide) (by decide), fun e he => ?_⟩
  rcases List.mem_append.mp he with he | he
  · rw [mem_fieldUnless he]
    exact fits_bytes 1 (by decide) hlen
  · rcases List.mem_append.mp he with he | he
    · rw [mem_fieldUnless he]
      exact fits_bytes 1 (by decide) hlen6
    · cases token with
      | none => cases he
      | some t =>
        rw [List.mem_singleton.mp he]
        exact fits_bytes 1 (by decide) (htoken t rfl)

/-- **What a response gives once it is parsed**: the nodes with a port, each IPv6 node of the
first list rewritten. -/
theorem parseResponse_encode (tid : Octets 2) (hnodes : 26 * nodes.length < 18446744073709551616)
    (hnodes6 : 38 * nodes6.length < 18446744073709551616)
    (htoken : ∀ t ∈ token, t.length < 18446744073709551616) :
    parseResponse (encodeResponseV6 tid.bytes ourId nodes nodes6 token) tid =
      .ok
        { responderId := ourId
          nodes := (nodes.filter fun n => n.addr.port ≠ 0).map NodeEntry.written
            ++ (nodes6.filter fun n => n.addr.isIpv6 ∧ n.addr.port ≠ 0).map NodeEntry.bare
          token := token } := by
  rw [parseResponse, encodeResponseV6,
    responseArgs_responseMessage _ tid (fits_responseFields ourId hnodes hnodes6 htoken)
      (lookup_id_responseFields ourId nodes nodes6 token)]
  show Except.ok (NodeResponse.mk ourId (decodeNodesField _) (bytesAt tokenKey _)) = _
  rw [nodes_responseFields, token_responseFields, decodeNodesCompact_encodeNodesCompact,
    decodeNodes6Compact_encodeNodes6Compact]

end Nodes

theorem own_of_skipped {nodes nodes6 decoded : List NodeEntry}
    (h : decoded = (nodes.filter fun n => n.addr.isIpv4 ∧ n.addr.port ≠ 0)
      ++ (nodes6.filter fun n => n.addr.isIpv6 ∧ n.addr.port ≠ 0).map NodeEntry.bare) :
    CarriesOwn nodes nodes6 decoded := by
  refine ⟨fun n hn => ?_, h⟩
  rw [h] at hn
  rcases List.mem_append.mp hn with hn | hn
  · obtain ⟨hmem, hport⟩ := List.mem_filter.mp hn
    refine ⟨n, List.mem_append_left _ hmem, ?_⟩
    obtain ⟨id, addr⟩ := n
    cases addr with
    | v4 => rfl
    | v6 => cases (of_decide_eq_true hport).1
  · obtain ⟨given, hgiven, rfl⟩ := List.mem_map.mp hn
    exact ⟨given, List.mem_append_right _ (List.mem_filter.mp hgiven).1, rfl⟩

/-- **When a response carries no invented node**: exactly when the list for IPv4 has no IPv6 node
with a port, and the same for its compact form alone. -/
theorem carriesOwn_iff (tid : Octets 2) (ourId : NodeId) (nodes nodes6 : List NodeEntry)
    (token : Option (List UInt8)) (hnodes : 26 * nodes.length < 18446744073709551616)
    (hnodes6 : 38 * nodes6.length < 18446744073709551616)
    (htoken : ∀ t ∈ token, t.length < 18446744073709551616) :
    ((∃ r, parseResponse (encodeResponseV6 tid.bytes ourId nodes nodes6 token) tid = .ok r ∧
        CarriesOwn nodes nodes6 r.nodes) ↔
      ∀ n ∈ nodes, n.addr.isIpv6 → n.addr.port = 0) ∧
    (CarriesOwn nodes [] (decodeNodesCompact (encodeNodesCompact nodes)) ↔
      ∀ n ∈ nodes, n.addr.isIpv6 → n.addr.port = 0) := by
  have hr := parseResponse_encode ourId tid hnodes hnodes6 htoken
  rw [← written_eq_iff, decodeNodesCompact_encodeNodesCompact]
  refine ⟨⟨?_, fun h => ⟨_, hr, own_of_skipped ?_⟩⟩, ⟨fun h => ?_, fun h => own_of_skipped ?_⟩⟩
  · rintro ⟨r, hr', howned⟩
    obtain rfl := Except.ok.inj (hr.symm.trans hr')
    exact List.append_cancel_right howned.skipped
  · rw [h]
  · exact h.skipped.trans (List.append_nil _)
  · exact h.trans (List.append_nil _).symm

/-- An IPv6 node, `[2001:db8::1]:6881`. -/
def documentationNode : NodeEntry :=
  ⟨zeroId, .v6 ⟨[32, 1, 13, 184, 0, 0, 0, 0, 0, 0, 0, 0, 0, 0, 0, 1], rfl⟩ 6881 0 0⟩

/-- In the list for IPv6 the node comes back. -/
theorem documentationNode_carried :
    ∃ r, parseResponse (encodeResponseV6 [97, 97] zeroId [] [documentationNode] none)
        ⟨[97, 97], rfl⟩ = .ok r ∧ CarriesOwn [] [documentationNode] r.nodes :=
  (carriesOwn_iff ⟨[97, 97], rfl⟩ zeroId [] [documentationNode] none (by decide) (by decide)
    (fun _ h => nomatch h)).1.mpr fun _ h => nomatch h

/-- In the list for IPv4 it comes back as a node of the loopback address. -/
theorem documentationNode_rewritten :
    parseResponse (encodeResponseV6 [97, 97] zeroId [documentationNode] [] none) ⟨[97, 97], rfl⟩ =
        .ok { responderId := zeroId, nodes := [⟨zeroId, .v4 fallbackIp 6881⟩], token := none } ∧
      ¬ ∃ r, parseResponse (encodeResponseV6 [97, 97] zeroId [documentationNode] [] none)
        ⟨[97, 97], rfl⟩ = .ok r ∧ CarriesOwn [documentationNode] [] r.nodes := by
  have hparse : parseResponse (encodeResponseV6 [97, 97] zeroId [documentationNode] [] none)
      ⟨[97, 97], rfl⟩ =
        .ok { responderId := zeroId, nodes := [⟨zeroId, .v4 fallbackIp 6881⟩], token := none } :=
    @parseResponse_encode zeroId [documentationNode] [] none ⟨[97, 97], rfl⟩ (by decide)
      (by decide) (fun _ h => nomatch h)
  refine ⟨hparse, ?_⟩
  rintro ⟨r, hr, howned⟩
  obtain rfl := Except.ok.inj (hparse.symm.trans hr)
  exact absurd howned.skipped (by decide)

end XferRust.Dht
