import XferRust.Lib.StepRun
import XferRust.Dht.Krpc
import XferRust.Dht.RoutingTable

/-! # The DHT node

The handler of incoming packets, with a task for each packet: a task goes from one locked section
to the next, and the sections of the tasks interleave in any order.  Beside it stand the queries
that the node sends itself.  Which nodes these go to, and what their callers put into the routing
table, is left open: a step may query anyone, add any entry and mark any node as bad.

SHA-1 is a parameter.  Whether a datagram gets through is not of interest to a sender; a query
whose answer does not come is given up.
-/
namespace XferRust.Dht
open Bencode (Value)
open SortedMap (lookup)

/-! ## Known peers -/

/-- `MAX_KNOWN_INFOHASHES`. -/
def maxKnownInfohashes : Nat := 4096

/-- `MAX_PEERS_PER_INFOHASH`. -/
def maxPeersPerInfohash : Nat := 100

/-- `known_peers` and `known_order`. -/
structure KnownPeers where
  map : List (InfoHash × List SocketAddr)
  /-- The keys in the order of their insertion. -/
  order : List InfoHash

namespace KnownPeers

/-- The loop that makes room for another key.  A key without a place in the order is never met
while the two agree; which of several such keys the source takes is up to its hash map. -/
def evict (map : List (InfoHash × List SocketAddr)) : List InfoHash → KnownPeers
  | [] => { map := map.drop (map.length + 1 - maxKnownInfohashes), order := [] }
  | old :: order =>
    if maxKnownInfohashes ≤ map.length then evict (map.filter fun e => e.1 ≠ old) order
    else { map, order := old :: order }

/-- The value under a key replaced, or put at the end. -/
def setEntry (infoHash : InfoHash) (peers : List SocketAddr) :
    List (InfoHash × List SocketAddr) → List (InfoHash × List SocketAddr)
  | [] => [(infoHash, peers)]
  | e :: es => if e.1 = infoHash then (infoHash, peers) :: es else e :: setEntry infoHash peers es

/-- `add_known_peer`. -/
def add (k : KnownPeers) (infoHash : InfoHash) (addr : SocketAddr) : KnownPeers :=
  let k :=
    if (lookup infoHash k.map).isSome then k
    else
      let room := evict k.map k.order
      { room with order := room.order ++ [infoHash] }
  let entry := (lookup infoHash k.map).getD []
  if entry.contains addr then k
  else
    let more := entry ++ [addr]
    let kept := more.drop (more.length - maxPeersPerInfohash)
    { k with map := setEntry infoHash kept k.map }

end KnownPeers

/-! ## Messages -/

/-- The queries of the node. -/
inductive Query where
  | ping
  | findNode (target : NodeId)
  | getPeers (infoHash : InfoHash)
  /-- The port is always given. -/
  | announcePeer (infoHash : InfoHash) (port : UInt16) (token : List UInt8)
  deriving DecidableEq

/-- What the node sends. -/
inductive Message where
  | query (tid : Octets 2) (id : NodeId) (q : Query)
  | nodes (tid : List UInt8) (id : NodeId) (nodes nodes6 : List NodeEntry)
      (token : Option (List UInt8))
  | peers (tid : List UInt8) (id : NodeId) (peers : List PeerAddr) (token : List UInt8)
  | error (tid : List UInt8) (code : Int64) (msg : String)
  deriving DecidableEq

namespace Message

/-- The bytes of a message. -/
def encode : Message → List UInt8
  | query tid id .ping => encodePing tid id
  | query tid id (.findNode target) => encodeFindNode tid id target
  | query tid id (.getPeers infoHash) => encodeGetPeers tid id infoHash
  | query tid id (.announcePeer infoHash port token) =>
    encodeAnnouncePeer tid id infoHash port token false
  | nodes tid id v4 v6 token => encodeResponseV6 tid id v4 v6 token
  | peers tid id known token => encodeGetPeersResponseWithPeers tid id known token
  | error tid code msg => encodeError tid code msg

/-- The id that a message gives for its sender's. -/
def senderId : Message → Option NodeId
  | query _ id _ => some id
  | nodes _ id .. => some id
  | peers _ id .. => some id
  | error .. => none

/-- The token that a reply issues. -/
def token : Message → Option (List UInt8)
  | query .. => none
  | nodes _ _ _ _ token => token
  | peers _ _ _ token => some token
  | error .. => none

end Message

/-! ## The node -/

/-- `Dht`, without the socket and the file.  A pending query is found by the address that it was
sent to and by its transaction id. -/
structure DhtNode where
  ourId : NodeId
  table : RoutingTable
  tokenSalt : Octets 8
  knownPeers : KnownPeers
  pending : List ((SocketAddr × Octets 2) × Query × SocketAddr)
  enableIpv6 : Bool
  v6Socket : Bool

/-- The twelve bytes in front of an IPv4 address that is written as one of IPv6. -/
def mappedPrefix : List UInt8 := [0, 0, 0, 0, 0, 0, 0, 0, 0, 0, 255, 255]

/-- `canonical_addr`. -/
def canonicalAddr (addr : SocketAddr) : SocketAddr :=
  match addr with
  | .v6 ip port _ _ =>
    if ip.bytes.take 12 = mappedPrefix then .v4 (.ofSlice 4 (ip.bytes.drop 12)) port else addr
  | .v4 .. => addr

/-- `SocketAddr::new` with the IP of an address. -/
def withPort (addr : SocketAddr) (port : UInt16) : SocketAddr :=
  match addr with
  | .v4 ip _ => .v4 ip port
  | .v6 ip _ _ _ => .v6 ip port 0 0

/-- `response_tid`. -/
def responseTid (data : List UInt8) : Option (Octets 2) := do
  let v ← (Bencode.decode data).toOption
  let d ← v.asDict
  let y := strAt yKey d
  if y = some "r" ∨ y = some "e" then do
    let t ← bytesAt tKey d
    if t.length ≠ 2 then none else some (.ofSlice 2 t)
  else none

namespace DhtNode

/-- `wire_dst`. -/
def wireDst (d : DhtNode) (dst : SocketAddr) : SocketAddr :=
  match dst with
  | .v4 ip port =>
    if d.v6Socket then .v6 (.ofSlice 16 (mappedPrefix ++ ip.bytes)) port 0 0 else dst
  | .v6 .. => dst

/-- The values that `Dht::new` takes from elsewhere. -/
structure Given where
  /-- `DhtConfig::node_id`. -/
  nodeId : Option NodeId
  /-- `NodeId::random`. -/
  random : NodeId
  salt : Octets 8
  /-- `DhtConfig::routing_table_file`, and what it holds where it can be read. -/
  file : Option (Option String)
  enableIpv6 : Bool
  /-- The address of the socket that was bound, or the error of the binding. -/
  bound : Except String SocketAddr

/-- The table of the file, where one is configured and holds one. -/
def Given.loaded (readers : Readers) (given : Given) : Option RoutingTable :=
  given.file.bind (RoutingTable.load readers)

/-- `Dht::new`. -/
def new (readers : Readers) (given : Given) : Except String DhtNode := do
  let nodeId := given.nodeId.getD given.random
  let localAddr ← given.bound
  .ok
    { ourId := nodeId
      table := (given.loaded readers).getD (RoutingTable.new nodeId)
      tokenSalt := given.salt
      knownPeers := { map := [], order := [] }
      pending := []
      enableIpv6 := given.enableIpv6
      v6Socket := localAddr.isIpv6 }

section
variable (sha1 : List UInt8 → List UInt8)

/-- `make_token`. -/
def makeToken (d : DhtNode) (remoteId : NodeId) : List UInt8 :=
  (sha1 (remoteId.bytes ++ d.ourId.bytes ++ d.tokenSalt.bytes)).take 8

end

/-- `encode_nodes_response`. -/
def nodesResponse (d : DhtNode) (tid : List UInt8) (closest : List NodeEntry) (src : SocketAddr)
    (token : Option (List UInt8)) : Message :=
  let v4 := closest.filter fun n => n.addr.isIpv4
  if !d.enableIpv6 ∨ !src.isIpv6 then .nodes tid d.ourId v4 [] token
  else
    let v6 := closest.filter fun n => n.addr.isIpv6
    .nodes tid d.ourId v4 v6 token

end DhtNode

/-! ## The handler -/

/-- A task, by what it does next: each action holds its lock from beginning to end. -/
inductive Task where
  | addNode (entry : NodeEntry) (next : Task)
  | readPeers (infoHash : InfoHash) (next : List SocketAddr → Task)
  | readTable (next : RoutingTable → Task)
  | addKnownPeer (infoHash : InfoHash) (addr : SocketAddr) (next : Task)
  | send (dst : SocketAddr) (m : Message) (next : Task)
  | done

namespace DhtNode
variable (sha1 : List UInt8 → List UInt8)

/-- The reply to a query for nodes. -/
def replyNodes (d : DhtNode) (tid : List UInt8) (target : NodeId) (src : SocketAddr)
    (token : List UInt8) : Task :=
  .readTable fun table =>
    .send src (d.nodesResponse tid (table.closest target maxNodes) src (some token)) .done

/-- The address that an announcement stands for. -/
def announceAddr (src : SocketAddr) (port : Option UInt16) (impliedPort : Bool) : SocketAddr :=
  withPort src (if impliedPort then src.port else port.getD src.port)

/-- What `handle_incoming` does for a query that was parsed. -/
def handleQuery (d : DhtNode) (src : SocketAddr) : IncomingQuery → Task
  | .ping tid id =>
    .addNode { id, addr := src } (.send src (.nodes tid d.ourId [] [] none) .done)
  | .findNode tid id target =>
    .addNode { id, addr := src } (d.replyNodes tid target src (d.makeToken sha1 id))
  | .getPeers tid id infoHash =>
    .addNode { id, addr := src } (.readPeers infoHash fun peers =>
      if peers.isEmpty then d.replyNodes tid infoHash src (d.makeToken sha1 id)
      else .send src (.peers tid d.ourId peers (d.makeToken sha1 id)) .done)
  | .announcePeer tid id infoHash port impliedPort token =>
    if token ≠ d.makeToken sha1 id then .send src (.error tid 203 "Invalid token") .done
    else
      .addNode { id, addr := src } (.addKnownPeer infoHash (announceAddr src port impliedPort)
        (.send src (.nodes tid d.ourId [] [] none) .done))

/-- `handle_incoming`; what is no query is ignored. -/
def handleIncoming (d : DhtNode) (data : List UInt8) (src : SocketAddr) : Task :=
  match parseQuery data with
  | .ok query => d.handleQuery sha1 src query
  | .error _ => .done

end DhtNode

/-! ## Runs -/

/-- What has come to pass at the node. -/
inductive Event where
  /-- A packet was given to the handler, with the address of its sender. -/
  | received (data : List UInt8) (src : SocketAddr)
  | sent (dst : SocketAddr) (m : Message)
  /-- A task of the handler has stored a peer. -/
  | stored (infoHash : InfoHash) (addr : SocketAddr)
  deriving DecidableEq

/-- The node with its running tasks, the answers that wait for their query, and its history. -/
structure System where
  dht : DhtNode
  tasks : List Task
  answers : List (Octets 2 × Query × SocketAddr × List UInt8)
  log : List Event

/-- A step of the node. -/
inductive Move where
  /-- `recv_loop` takes a datagram from the socket. -/
  | packet (data : List UInt8) (src : SocketAddr)
  /-- A task of the handler takes its next action. -/
  | act (i : Nat)
  /-- `send_raw` sends a query. -/
  | ask (tid : Octets 2) (q : Query) (dst : SocketAddr)
  /-- `send_raw` gives up on a query. -/
  | giveUp (key : SocketAddr × Octets 2)
  /-- The sender of a query takes its answer. -/
  | collect (i : Nat)
  /-- `bootstrap` or `get_peers` adds a node that it was told of. -/
  | learn (entry : NodeEntry)
  /-- `get_peers` marks a node as bad. -/
  | forget (id : NodeId)
  /-- `announce_peer` stores the node's own address. -/
  | publish (infoHash : InfoHash) (addr : SocketAddr)

/-- `RECV_CONCURRENCY`. -/
def recvConcurrency : Nat := 256

/-- The size of the buffer of `recv_loop`. -/
def recvBuffer : Nat := 4096

/-- The id of the node that has answered, as the parser for the query's responses finds it.  The
answer to an announcement is not looked at. -/
def Query.responder (q : Query) (tid : Octets 2) (data : List UInt8) : Option NodeId :=
  match q with
  | ping => (parseResponse data tid).toOption.map NodeResponse.responderId
  | findNode _ => (parseResponse data tid).toOption.map NodeResponse.responderId
  | getPeers _ => (parseGetPeersResponse data tid).toOption.map GetPeersResponse.responderId
  | announcePeer .. => none

namespace System
variable (sha1 : List UInt8 → List UInt8)

def start (dht : DhtNode) : System := { dht, tasks := [], answers := [], log := [] }

/-- The first action of a task, with the state and the task after it. -/
def perform (s : System) : Task → System × Task
  | .addNode entry next => ({ s with dht.table := s.dht.table.add entry }, next)
  | .readPeers infoHash next =>
    (s, next ((lookup infoHash s.dht.knownPeers.map).getD []))
  | .readTable next => (s, next s.dht.table)
  | .addKnownPeer infoHash addr next =>
    ({ s with
      dht.knownPeers := s.dht.knownPeers.add infoHash addr
      log := s.log ++ [.stored infoHash addr] }, next)
  | .send dst m next => ({ s with log := s.log ++ [.sent (s.dht.wireDst dst) m] }, next)
  | .done => (s, .done)

/-- What `recv_loop` does with a datagram: a response goes to the query that waits for it, and
anything else to a task of its own, unless too many are running. -/
def receive (s : System) (data : List UInt8) (src : SocketAddr) : System :=
  match responseTid data with
  | some tid =>
    match lookup (src, tid) s.dht.pending with
    | some (q, dst) =>
      { s with
        dht.pending := s.dht.pending.filter fun e => e.1 ≠ (src, tid)
        answers := s.answers ++ [(tid, q, dst, data)] }
    | none => s
  | none =>
    if s.tasks.length < recvConcurrency then
      { s with
        tasks := s.tasks ++ [s.dht.handleIncoming sha1 data src]
        log := s.log ++ [.received data src] }
    else s

/-- One step; `none` where it is not possible. -/
def step (s : System) : Move → Option System
  | .packet data src => some (s.receive sha1 (data.take recvBuffer) (canonicalAddr src))
  | .act i =>
    match s.tasks[i]? with
    | none => none
    | some .done => some { s with tasks := s.tasks.eraseIdx i }
    | some task =>
      let (s', next) := s.perform task
      some { s' with tasks := s.tasks.set i next }
  | .ask tid q dst =>
    let key := (canonicalAddr dst, tid)
    some
      { s with
        dht.pending := (key, q, dst) :: s.dht.pending.filter fun e => e.1 ≠ key
        log := s.log ++ [.sent (s.dht.wireDst dst) (.query tid s.dht.ourId q)] }
  | .giveUp key => some { s with dht.pending := s.dht.pending.filter fun e => e.1 ≠ key }
  | .collect i =>
    match s.answers[i]? with
    | none => none
    | some (tid, q, dst, data) =>
      let table := match q.responder tid data with
        | some id => s.dht.table.add { id, addr := dst }
        | none => s.dht.table
      some { s with answers := s.answers.eraseIdx i, dht.table := table }
  | .learn entry => some { s with dht.table := s.dht.table.add entry }
  | .forget id => some { s with dht.table := s.dht.table.markBad id }
  | .publish infoHash addr =>
    some { s with dht.knownPeers := s.dht.knownPeers.add infoHash addr }

end System

end XferRust.Dht
