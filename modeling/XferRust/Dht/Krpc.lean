import XferRust.Bencode.RoundTrip
import XferRust.Bencode.Torrent
import XferRust.Dht.Compact

/-! # KRPC messages (BEP 5)

The queries and the responses of the DHT: their encoders, and the parsers of the other side.
A `BTreeMap` is the list of its entries with ascending keys, built by the insertions of the
source in their order.
-/
namespace XferRust.Dht
open Bencode (Key Value decode encode)
open SortedMap (insertMany lookup)

/-- `KrpcError`. -/
inductive KrpcError where
  | bencode (text : String)
  | format (text : String)
  | remote (code : Int64) (msg : String)
  | timeout
  | tidMismatch
  | network (text : String)
  deriving DecidableEq

/-- `BTreeMap<Vec<u8>, Value>`. -/
abbrev Dict := List (Key × Value)

/-! ## The keys -/

/-- `b"t"`. -/
abbrev tKey : Key := [116]
/-- `b"y"`. -/
abbrev yKey : Key := [121]
/-- `b"q"`. -/
abbrev qKey : Key := [113]
/-- `b"a"`. -/
abbrev aKey : Key := [97]
/-- `b"r"`. -/
abbrev rKey : Key := [114]
/-- `b"e"`. -/
abbrev eKey : Key := [101]
/-- `b"id"`. -/
abbrev idKey : Key := [105, 100]
/-- `b"target"`. -/
abbrev targetKey : Key := [116, 97, 114, 103, 101, 116]
/-- `b"info_hash"`. -/
abbrev infoHashKey : Key := [105, 110, 102, 111, 95, 104, 97, 115, 104]
/-- `b"implied_port"`. -/
abbrev impliedPortKey : Key := [105, 109, 112, 108, 105, 101, 100, 95, 112, 111, 114, 116]
/-- `b"port"`. -/
abbrev portKey : Key := [112, 111, 114, 116]
/-- `b"token"`. -/
abbrev tokenKey : Key := [116, 111, 107, 101, 110]
/-- `b"nodes"`. -/
abbrev nodesKey : Key := [110, 111, 100, 101, 115]
/-- `b"nodes6"`. -/
abbrev nodes6Key : Key := [110, 111, 100, 101, 115, 54]
/-- `b"values"`. -/
abbrev valuesKey : Key := [118, 97, 108, 117, 101, 115]
/-- `b"peers6"`. -/
abbrev peers6Key : Key := [112, 101, 101, 114, 115, 54]

/-! ## The methods -/

/-- `b"ping"`. -/
abbrev pingMethod : List UInt8 := [112, 105, 110, 103]
/-- `b"find_node"`. -/
abbrev findNodeMethod : List UInt8 := [102, 105, 110, 100, 95, 110, 111, 100, 101]
/-- `b"get_peers"`. -/
abbrev getPeersMethod : List UInt8 := [103, 101, 116, 95, 112, 101, 101, 114, 115]
/-- `b"announce_peer"`. -/
abbrev announcePeerMethod : List UInt8 :=
  [97, 110, 110, 111, 117, 110, 99, 101, 95, 112, 101, 101, 114]

/-! ## The queries -/

/-- The fields of a query, in the order in which they are inserted. -/
def queryFields (tid : Octets 2) (method : List UInt8) (args : Dict) : Dict :=
  [(tKey, .bytes tid.bytes), (yKey, .bytes qKey), (qKey, .bytes method), (aKey, .dict args)]

/-- `encode_query`. -/
def encodeQuery (tid : Octets 2) (method : List UInt8) (args : Dict) : List UInt8 :=
  encode (.dict (insertMany (queryFields tid method args) []))

/-- `encode_ping`. -/
def encodePing (tid : Octets 2) (ourId : NodeId) : List UInt8 :=
  encodeQuery tid pingMethod (insertMany [(idKey, .bytes ourId.bytes)] [])

/-- `encode_find_node`. -/
def encodeFindNode (tid : Octets 2) (ourId target : NodeId) : List UInt8 :=
  encodeQuery tid findNodeMethod
    (insertMany [(idKey, .bytes ourId.bytes), (targetKey, .bytes target.bytes)] [])

/-- `encode_get_peers`. -/
def encodeGetPeers (tid : Octets 2) (ourId : NodeId) (infoHash : InfoHash) : List UInt8 :=
  encodeQuery tid getPeersMethod
    (insertMany [(idKey, .bytes ourId.bytes), (infoHashKey, .bytes infoHash.bytes)] [])

/-- `encode_announce_peer`. -/
def encodeAnnouncePeer (tid : Octets 2) (ourId : NodeId) (infoHash : InfoHash) (port : UInt16)
    (token : List UInt8) (impliedPort : Bool) : List UInt8 :=
  encodeQuery tid announcePeerMethod
    (insertMany
      [(idKey, .bytes ourId.bytes), (infoHashKey, .bytes infoHash.bytes),
        (impliedPortKey, .int (if impliedPort then 1 else 0)),
        (portKey, .int port.toUInt64.toInt64), (tokenKey, .bytes token)] [])

/-! ## The responses -/

/-- The fields of a response around its arguments, in the order in which they are inserted. -/
def responseTop (tid : List UInt8) (r : Dict) : Dict :=
  [(tKey, .bytes tid), (yKey, .bytes rKey), (rKey, .dict r)]

/-- The message around the arguments of a response, which are inserted in their order. -/
def responseMessage (tid : List UInt8) (fields : Dict) : List UInt8 :=
  encode (.dict (insertMany (responseTop tid (insertMany fields [])) []))

/-- A field of bytes that is left out on a condition. -/
def fieldUnless (skip : Bool) (k : Key) (b : List UInt8) : Dict :=
  if skip then [] else [(k, .bytes b)]

/-- The arguments of `encode_response_v6`. -/
def responseFields (ourId : NodeId) (nodes nodes6 : List NodeEntry) (token : Option (List UInt8)) :
    Dict :=
  let compact := encodeNodes6Compact nodes6
  (idKey, .bytes ourId.bytes) :: (fieldUnless nodes.isEmpty nodesKey (encodeNodesCompact nodes)
    ++ (fieldUnless (nodes6.isEmpty || compact.isEmpty) nodes6Key compact
    ++ (token.map fun t => (tokenKey, Value.bytes t)).toList))

/-- `encode_response_v6`. -/
def encodeResponseV6 (tid : List UInt8) (ourId : NodeId) (nodes nodes6 : List NodeEntry)
    (token : Option (List UInt8)) : List UInt8 :=
  responseMessage tid (responseFields ourId nodes nodes6 token)

/-- `encode_response`. -/
def encodeResponse (tid : List UInt8) (ourId : NodeId) (nodes : List NodeEntry)
    (token : Option (List UInt8)) : List UInt8 :=
  encodeResponseV6 tid ourId nodes [] token

/-- The arguments of `encode_get_peers_response_with_peers`. -/
def peersFields (ourId : NodeId) (peers : List PeerAddr) (token : List UInt8) : Dict :=
  let values := (peers.filter SocketAddr.isIpv4).map fun p => Value.bytes (encodeCompact p)
  let peers6 := encodePeers6Compact peers
  (idKey, .bytes ourId.bytes) :: (valuesKey, .list values)
    :: (fieldUnless peers6.isEmpty peers6Key peers6 ++ [(tokenKey, .bytes token)])

/-- `encode_get_peers_response_with_peers`. -/
def encodeGetPeersResponseWithPeers (tid : List UInt8) (ourId : NodeId) (peers : List PeerAddr)
    (token : List UInt8) : List UInt8 :=
  responseMessage tid (peersFields ourId peers token)

/-- `encode_error`. -/
def encodeError (tid : List UInt8) (code : Int64) (msg : String) : List UInt8 :=
  encode (.dict (insertMany
    [(tKey, .bytes tid), (yKey, .bytes eKey),
      (eKey, .list [.int code, .bytes msg.toUTF8.toList])] []))

/-! ## Access to fields -/

/-- `ok_or_else` with a `KrpcError::Format`. -/
def need {α : Type} (x : Option α) (text : String) : Except KrpcError α :=
  match x with
  | some a => .ok a
  | none => .error (.format text)

def bytesAt (k : Key) (d : Dict) : Option (List UInt8) := (lookup k d).bind Value.asBytes

def strAt (k : Key) (d : Dict) : Option String := (lookup k d).bind Value.asStr

def intAt (k : Key) (d : Dict) : Option Int64 := (lookup k d).bind Value.asInt

def dictAt (k : Key) (d : Dict) : Option Dict := (lookup k d).bind Value.asDict

/-- An argument of 20 bytes. -/
def octetsAt (k : Key) (d : Dict) (missing bad : String) : Except KrpcError (Octets 20) := do
  let b ← need (bytesAt k d) missing
  if b.length ≠ 20 then .error (.format bad) else .ok (.ofSlice 20 b)

/-- The dictionary of a message. -/
def topLevel (data : List UInt8) (text : String) : Except KrpcError Dict := do
  let v ← (decode data).mapError fun e => .bencode e.message
  need v.asDict text

/-! ## Parsing responses -/

/-- `NodeResponse`. -/
structure NodeResponse where
  responderId : NodeId
  nodes : List NodeEntry
  token : Option (List UInt8)

/-- `GetPeersResponse`. -/
structure GetPeersResponse where
  responderId : NodeId
  token : List UInt8
  peers : Option (List PeerAddr)
  nodes : List NodeEntry
  deriving DecidableEq

/-- The error of an error response, with the text that the caller reads off its second part. -/
def remoteError (text : Value → String) (d : Dict) : KrpcError :=
  match (lookup eKey d).bind Value.asList with
  | some (code :: msg :: _) => .remote (code.asInt.getD 203) (text msg)
  | _ => .remote 203 "未知错误"

/-- What the parsers of responses do alike: the checks of `t` and `y`, and the arguments with the
id among them. -/
def responseArgs (text : Value → String) (data : List UInt8) (expectedTid : Octets 2) :
    Except KrpcError (Dict × NodeId) := do
  let d ← topLevel data "响应顶层必须是字典"
  let t ← need (bytesAt tKey d) "响应缺少 t 字段"
  if t ≠ expectedTid.bytes then .error .tidMismatch
  else do
    let y := strAt yKey d
    if y = some "r" then do
      let r ← need (dictAt rKey d) "响应缺少 r 字段"
      let responderId ← octetsAt idKey r "响应缺少 id 字段" "响应 id 长度非法"
      .ok (r, responderId)
    else if y = some "e" then .error (remoteError text d)
    else .error (.format "响应 y 字段非法")

/-- `decode_nodes_field`. -/
def decodeNodesField (r : Dict) : List NodeEntry :=
  ((bytesAt nodesKey r).map decodeNodesCompact).getD []
    ++ ((bytesAt nodes6Key r).map decodeNodes6Compact).getD []

/-- The message of an error response for `parse_response`: bytes that are no text count as the
empty text. -/
def responseErrorText (msg : Value) : String :=
  (msg.asStr.or (msg.asBytes.map fun _ => "")).getD "未知错误"

/-- `parse_response`. -/
def parseResponse (data : List UInt8) (expectedTid : Octets 2) :
    Except KrpcError NodeResponse := do
  let (r, responderId) ← responseArgs responseErrorText data expectedTid
  .ok { responderId, nodes := decodeNodesField r, token := bytesAt tokenKey r }

/-- The peers of an item of `values`: six bytes of IPv4, or eighteen of IPv6. -/
def peersOfItem (b : List UInt8) : List PeerAddr :=
  if b.length = 6 then fromCompact b else if b.length = 18 then fromCompact6 b else []

/-- The peers under `values`. -/
def peersOfValues (r : Dict) : Option (List PeerAddr) :=
  match lookup valuesKey r with
  | some (.list items) => some ((items.filterMap Value.asBytes).flatMap peersOfItem)
  | some (.bytes b) =>
    if b.isEmpty = false ∧ b.length % 6 = 0 then some (fromCompact b) else none
  | _ => none

/-- The peers under `peers6`. -/
def peersOfPeers6 (r : Dict) : List PeerAddr :=
  match lookup peers6Key r with
  | some (.bytes b) => if b.isEmpty = false ∧ b.length % 18 = 0 then fromCompact6 b else []
  | some (.list items) =>
    (items.filterMap Value.asBytes).flatMap fun b => if b.length = 18 then fromCompact6 b else []
  | _ => []

/-- `parse_get_peers_response`. -/
def parseGetPeersResponse (data : List UInt8) (expectedTid : Octets 2) :
    Except KrpcError GetPeersResponse := do
  let (r, responderId) ← responseArgs (fun msg => msg.asStr.getD "未知错误") data expectedTid
  let peers := peersOfValues r
  let peers6 := peersOfPeers6 r
  .ok
    { responderId
      token := (bytesAt tokenKey r).getD []
      peers := if peers6.isEmpty then peers else some (peers.getD [] ++ peers6)
      nodes := decodeNodesField r }

/-! ## Parsing queries -/

/-- `IncomingQuery`. -/
inductive IncomingQuery where
  | ping (tid : List UInt8) (id : NodeId)
  | findNode (tid : List UInt8) (id target : NodeId)
  | getPeers (tid : List UInt8) (id : NodeId) (infoHash : InfoHash)
  | announcePeer (tid : List UInt8) (id : NodeId) (infoHash : InfoHash) (port : Option UInt16)
      (impliedPort : Bool) (token : List UInt8)

/-- The query of a method with its arguments. -/
def queryOf (q : String) (tid : List UInt8) (id : NodeId) (a : Dict) :
    Except KrpcError IncomingQuery :=
  if q = "ping" then .ok (.ping tid id)
  else if q = "find_node" then do
    let target ← octetsAt targetKey a "find_node 缺少 target 参数" "find_node target 长度非法"
    .ok (.findNode tid id target)
  else if q = "get_peers" then do
    let infoHash ← octetsAt infoHashKey a "get_peers 缺少 info_hash 参数"
      "get_peers info_hash 长度非法"
    .ok (.getPeers tid id infoHash)
  else if q = "announce_peer" then do
    let infoHash ← octetsAt infoHashKey a "announce_peer 缺少 info_hash 参数"
      "announce_peer info_hash 长度非法"
    let port := ((intAt portKey a).filter fun p => 0 < p.toInt ∧ p.toInt ≤ 65535).map
      fun p => p.toUInt64.toUInt16
    let impliedPort := ((intAt impliedPortKey a).map fun n => n != 0).getD false
    .ok (.announcePeer tid id infoHash port impliedPort ((bytesAt tokenKey a).getD []))
  else .error (.format s!"未知查询方法: {q}")

/-- `parse_query`. -/
def parseQuery (data : List UInt8) : Except KrpcError IncomingQuery := do
  let d ← topLevel data "消息顶层必须是字典"
  let tid ← need (bytesAt tKey d) "消息缺少 t 字段"
  let y ← need (strAt yKey d) "消息缺少 y 字段"
  if y ≠ "q" then .error (.format s!"仅处理查询消息(y=q)，收到 y={y}")
  else do
    let q ← need (strAt qKey d) "消息缺少 q 字段"
    let a ← need (dictAt aKey d) "消息缺少 a 字段"
    let id ← octetsAt idKey a "查询缺少 id 参数" "查询 id 长度非法"
    queryOf q tid id a

end XferRust.Dht
