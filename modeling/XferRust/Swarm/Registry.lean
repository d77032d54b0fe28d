import Mathlib.Data.List.AList
import Mathlib.Logic.Function.Basic
import XferRust.Dht.Compact
import XferRust.Lib.StepRun

/-! # The registry of peers

An address that is heard of waits in `pending` until it is dialled; an address with a connection,
or one that is being dialled, has a cell in the table `peers`.  Addresses come from trackers, from
other peers (PEX), and from connections that the other side opens or that come out of a punched
hole; a step here is what one task does while it holds the lock of `pending`, or registers or
unregisters one cell, so that the runs are all the interleavings.

How many peers the scheduler wants, and which of the waiting addresses a hash map yields first,
are left to the run.
-/
namespace XferRust.Swarm

open Dht (SocketAddr)

/-! ## Addresses -/

/-- `IpAddr`. -/
inductive IpAddr where
  | v4 (ip : Octets 4)
  | v6 (ip : Octets 16)
  deriving DecidableEq

/-- `SocketAddr::ip`. -/
def ipOf : SocketAddr → IpAddr
  | .v4 ip _ => .v4 ip
  | .v6 ip .. => .v6 ip

/-- `canonical_peer_addr`: an IPv4 address that is written as an IPv6 one is taken for itself. -/
def canonicalPeerAddr : SocketAddr → SocketAddr
  | .v4 ip port => .v4 ip port
  | .v6 ip port flowinfo scopeId =>
    if ip.bytes.take 12 = List.replicate 10 0 ++ [0xff, 0xff] then
      .v4 (.ofSlice 4 (ip.bytes.drop 12)) port
    else .v6 ip port flowinfo scopeId

/-- `is_unroutable`. -/
def isUnroutable : SocketAddr → Bool
  | .v4 ip _ => ip.bytes.all (· = 0) || ip.bytes.all (· = 255)
  | .v6 ip .. => ip.bytes.all (· = 0)

/-- `is_loopback`. -/
def isLoopback : SocketAddr → Bool
  | .v4 ip _ => ip.bytes.headD 0 = 127
  | .v6 ip .. => ip.bytes = List.replicate 15 0 ++ [1]

/-- `PeerSource`. -/
inductive PeerSource where
  | tracker
  | dht
  | pex
  | lsd
  | incoming
  | holepunch
  deriving DecidableEq

/-- `MAX_DIAL_RETRIES`. -/
def maxDialRetries : Nat := 3

/-! ## The state -/

/-- What the task that has registered a cell is doing. -/
inductive PeerTask where
  /-- `dial_and_run`, which may connect to the address once more. -/
  | dialling
  /-- The session runs over its connection. -/
  | running
  /-- `adopt_holepunched` has registered the cell, and `run_peer` does not know of it. -/
  | holding
  /-- It waits for `run_peer`, which has a cell of its own. -/
  | awaiting
  | over
  deriving DecidableEq

/-- What a `PeerCell` keeps of itself here. -/
structure PeerCell where
  addr : SocketAddr
  source : PeerSource
  /-- The token `kill` is cancelled. -/
  killed : Bool
  task : PeerTask

/-- One attempt to connect, and whether the address was banned then. -/
structure Dialled where
  addr : SocketAddr
  banned : Bool
  deriving DecidableEq

/-- The part of the engine that keeps the peers; a cell is known by its number. -/
structure Registry where
  maxPeers : Nat
  /-- `actual_listen_port`. -/
  listenPort : UInt16
  /-- The entries of `banned` that have not expired. -/
  banned : List IpAddr
  pending : AList fun _ : SocketAddr => PeerSource
  peers : AList fun _ : SocketAddr => Nat
  cell : Nat → PeerCell
  /-- The number of the next cell. -/
  next : Nat
  dialFailures : SocketAddr → Nat
  /-- `holepunch_inflight`. -/
  inflight : List SocketAddr
  dials : List Dialled

/-- What holds of a cell that there is not. -/
def noCell : PeerCell where
  addr := .v4 (.ofSlice 4 []) 0
  source := .incoming
  killed := true
  task := .over

namespace Registry

/-- An engine that knows of no peer. -/
def start (maxPeers : Nat) (listenPort : UInt16) : Registry where
  maxPeers := maxPeers
  listenPort := listenPort
  banned := []
  pending := ∅
  peers := ∅
  cell := fun _ => noCell
  next := 0
  dialFailures := fun _ => 0
  inflight := []
  dials := []

/-! ## What the tasks do -/

/-- `is_banned`. -/
def isBanned (s : Registry) (a : SocketAddr) : Bool := decide (ipOf a ∈ s.banned)

/-- The entries of a map for which `keep` holds, as `retain` leaves them. -/
def retain (keep : SocketAddr → Bool) (m : AList fun _ : SocketAddr => PeerSource) :
    AList fun _ : SocketAddr => PeerSource where
  entries := m.entries.filter fun e => keep e.1
  nodupKeys := m.nodupKeys.sublist List.filter_sublist

/-- `add_peers` for one address, and the new budget of attempts that an entry gives it. -/
def addPeer (s : Registry) (source : PeerSource) (a : SocketAddr) : Registry :=
  let a := canonicalPeerAddr a
  if isUnroutable a ∨ a.port = 0 then s
  else if a.port = s.listenPort then s
  else if s.maxPeers * 2 ≤ s.pending.entries.length then s
  else if a ∈ s.pending ∨ a ∈ s.peers then s
  else
    { s with
      pending := s.pending.insert a source
      dialFailures := Function.update s.dialFailures a 0 }

/-- The loop over the addresses of a PEX message. -/
def addPex (s : Registry) : List SocketAddr → Registry
  | [] => s
  | a :: rest =>
    if s.maxPeers * 2 ≤ s.pending.entries.length then s
    else addPex { s with pending := s.pending.insert a .pex } rest

/-- `register_peer`, for a task that goes on as `task`. -/
def registerPeer (s : Registry) (a : SocketAddr) (source : PeerSource) (task : PeerTask) :
    Registry :=
  { s with
    peers := s.peers.insert a s.next
    cell := Function.update s.cell s.next { addr := a, source, killed := false, task }
    next := s.next + 1 }

/-- `unregister_peer`: the cell is killed, and the entry under its address goes if it is its
own. -/
def unregisterPeer (s : Registry) (c : Nat) : Registry :=
  { s with
    cell := Function.update s.cell c { s.cell c with killed := true }
    peers :=
      if s.peers.lookup (s.cell c).addr = some c then s.peers.erase (s.cell c).addr else s.peers }

/-- The task behind a cell goes on as `task`. -/
def setTask (s : Registry) (c : Nat) (task : PeerTask) : Registry :=
  { s with cell := Function.update s.cell c { s.cell c with task } }

/-- `retry_later`, up to the hole that is punched for an address given up. -/
def retryLater (s : Registry) (a : SocketAddr) (source : PeerSource) : Registry :=
  let attempts := s.dialFailures a + 1
  let s := { s with dialFailures := Function.update s.dialFailures a attempts }
  if maxDialRetries < attempts then s
  else if s.pending.entries.length < s.maxPeers * 2 ∧ a ∉ s.pending ∧ a ∉ s.peers then
    { s with pending := s.pending.insert a source }
  else s

/-- What `connect_pending_limited` and `connect_pending_seed` do with the addresses they take:
none of them waits any longer, and each has a cell. -/
def takeAll (s : Registry) (taken : List (SocketAddr × PeerSource)) : Registry :=
  let s := { s with pending := retain (fun a => decide (a ∉ taken.map Prod.fst)) s.pending }
  taken.foldl (fun s t => s.registerPeer t.1 t.2 .dialling) s

/-- The addresses that `connect_pending_limited` may take, when those that are banned are gone. -/
def candidates (s : Registry) : List (SocketAddr × PeerSource) :=
  (s.pending.entries.filter fun e => !isUnroutable e.1 && e.1.port ≠ 0).map fun e => (e.1, e.2)

/-- `taken` are `need` of the candidates in some order, or all when there are less. -/
def Takes (candidates taken : List (SocketAddr × PeerSource)) (need : Nat) : Prop :=
  taken.length = min need candidates.length ∧ (taken.map Prod.fst).Nodup ∧
    ∀ t ∈ taken, t ∈ candidates

instance (candidates taken : List (SocketAddr × PeerSource)) (need : Nat) :
    Decidable (Takes candidates taken need) :=
  inferInstanceAs (Decidable (_ ∧ _))

/-- One attempt to connect to an address. -/
def dial (s : Registry) (a : SocketAddr) : Registry :=
  { s with dials := s.dials ++ [{ addr := a, banned := s.isBanned a }] }

end Registry

/-! ## The steps -/

inductive RegistryEvent where
  /-- `add_peers` comes to an address that a tracker, the DHT or the local network told. -/
  | discover (a : SocketAddr) (source : PeerSource)
  /-- A PEX message. -/
  | pex (added : List SocketAddr)
  /-- `connect_pending_limited`, with the bound on the connections and that on this round. -/
  | connect (cap limit : Nat) (taken : List (SocketAddr × PeerSource))
  /-- `connect_pending_seed`. -/
  | connectSeed (taken : List (SocketAddr × PeerSource))
  /-- `dial_and_run` connects, by uTP or by TCP. -/
  | dial (c : Nat)
  /-- It has a connection and runs `run_peer` over it. -/
  | connected (c : Nat)
  /-- A dialled session is over, in an error or not. -/
  | finishDialled (c : Nat) (failed : Bool)
  /-- A connection comes in: `run_peer` registers it itself. -/
  | accept (a : SocketAddr)
  /-- Another session is over, or `run_peer` has refused it. -/
  | finish (c : Nat)
  /-- `spawn_holepunch`, when its count of attempts admits one more. -/
  | punch (a : SocketAddr)
  /-- `holepunch_attempt` connects. -/
  | punchDial (a : SocketAddr)
  | punchEnd (a : SocketAddr)
  /-- `adopt_holepunched` registers the address. -/
  | adopt (a : SocketAddr)
  /-- `run_peer` under `adopt_holepunched`: without the cell, it registers one of its own. -/
  | adoptRun (c : Nat)
  /-- The scheduler or the idle check unregisters the peer under an address. -/
  | evict (a : SocketAddr)
  /-- `ban_ip`: the entry. -/
  | ban (ip : IpAddr)
  /-- `ban_ip`: the sessions of the address are killed. -/
  | disconnect (ip : IpAddr)
  /-- `ban_ip`: the waiting addresses go. -/
  | purge (ip : IpAddr)
  /-- `unban_ip`, or the entry expires. -/
  | unban (ip : IpAddr)

namespace Registry

/-- What one event does; `none` when it cannot come. -/
def step (s : Registry) : RegistryEvent → Option Registry
  | .discover a source => some (s.addPeer source a)
  | .pex added => some (s.addPex (added.filter fun a => !isLoopback a))
  | .connect cap limit taken =>
    let need := min (cap - s.peers.entries.length) limit
    let s' := { s with pending := retain (fun a => !s.isBanned a) s.pending }
    if need ≠ 0 ∧ Takes s'.candidates taken need then some (s'.takeAll taken) else none
  | .connectSeed taken =>
    let need := s.maxPeers - s.peers.entries.length
    if need ≠ 0 ∧ Takes (s.pending.entries.map fun e => (e.1, e.2)) taken need then
      some (s.takeAll taken)
    else none
  | .dial c => if (s.cell c).task = .dialling then some (s.dial (s.cell c).addr) else none
  | .connected c =>
    if (s.cell c).task = .dialling ∧ s.isBanned (s.cell c).addr = false then
      some (s.setTask c .running)
    else none
  | .finishDialled c failed =>
    if (s.cell c).task = .dialling ∨ (s.cell c).task = .running then
      let s := (s.setTask c .over).unregisterPeer c
      if failed ∧ (s.cell c).killed = false then
        some (s.retryLater (s.cell c).addr (s.cell c).source)
      else some s
    else none
  | .accept a =>
    if s.isBanned a then none else some (s.registerPeer a .incoming .running)
  | .finish c =>
    if (s.cell c).task = .running ∨ (s.cell c).task = .awaiting ∨
        ((s.cell c).task = .holding ∧ s.isBanned (s.cell c).addr) then
      some ((s.setTask c .over).unregisterPeer c)
    else none
  | .punch a =>
    if a ∈ s.peers ∨ s.isBanned a ∨ a ∈ s.inflight then none
    else some { s with inflight := a :: s.inflight }
  | .punchDial a => if a ∈ s.inflight then some (s.dial a) else none
  | .punchEnd a => some { s with inflight := s.inflight.erase a }
  | .adopt a => if a ∈ s.inflight then some (s.registerPeer a .holepunch .holding) else none
  | .adoptRun c =>
    if (s.cell c).task = .holding ∧ s.isBanned (s.cell c).addr = false then
      some ((s.setTask c .awaiting).registerPeer (s.cell c).addr .incoming .running)
    else none
  | .evict a => (s.peers.lookup a).map s.unregisterPeer
  | .ban ip => some { s with banned := ip :: s.banned }
  | .disconnect ip =>
    some
      { s with
        cell := fun c =>
          let p := s.cell c
          if s.peers.lookup p.addr = some c ∧ ipOf p.addr = ip then { p with killed := true }
          else p }
  | .purge ip => some { s with pending := retain (fun a => ipOf a ≠ ip) s.pending }
  | .unban ip => some { s with banned := s.banned.filter (· ≠ ip) }

/-! ## What the registry is to keep -/

/-- A session that is not over and has not been told to end. -/
def Live (s : Registry) (c : Nat) : Prop :=
  ((s.cell c).task = .dialling ∨ (s.cell c).task = .running) ∧ (s.cell c).killed = false

instance (s : Registry) (c : Nat) : Decidable (s.Live c) := inferInstanceAs (Decidable (_ ∧ _))

/-- **The registry is consistent**: no address waits that has an entry, nothing was dialled that
was banned or had no port, and every live session is the one under its address. -/
structure Consistent (s : Registry) : Prop where
  apart : ∀ a, a ∈ s.pending → a ∉ s.peers
  dialled : ∀ d ∈ s.dials, d.banned = false ∧ d.addr.port ≠ 0
  shown : ∀ c, s.Live c → s.peers.lookup (s.cell c).addr = some c

/-- No live session has the address. -/
def Unused (s : Registry) (a : SocketAddr) : Prop :=
  ∀ c < s.next, s.Live c → (s.cell c).addr ≠ a

instance (s : Registry) (a : SocketAddr) : Decidable (s.Unused a) :=
  inferInstanceAs (Decidable (∀ c < s.next, s.Live c → (s.cell c).addr ≠ a))

/-- The address neither waits nor has a live session. -/
def Free (s : Registry) (a : SocketAddr) : Prop := a ∉ s.pending ∧ s.Unused a

instance (s : Registry) (a : SocketAddr) : Decidable (s.Free a) :=
  inferInstanceAs (Decidable (_ ∧ _))

/-- Nobody may still be connecting to the IP. -/
def Undialled (s : Registry) (ip : IpAddr) : Prop :=
  (∀ c < s.next, (s.cell c).task = .dialling → ipOf (s.cell c).addr ≠ ip) ∧
    ∀ a ∈ s.inflight, ipOf a ≠ ip

instance (s : Registry) (ip : IpAddr) : Decidable (s.Undialled ip) :=
  inferInstanceAs (Decidable (_ ∧ _))

/-- What the checks leave out: PEX tells only addresses without an entry; a connection that comes
in or out of a hole is from an address that neither waits nor has a live session; a seeding engine
takes only addresses that have a port and are not banned; no hole is punched to the port zero; and
an IP is not banned while it is dialled. -/
def Careful (s : Registry) : RegistryEvent → Prop
  | .pex added => ∀ a ∈ added, isLoopback a = false → a ∉ s.peers
  | .connectSeed taken => ∀ t ∈ taken, s.isBanned t.1 = false ∧ t.1.port ≠ 0
  | .accept a => s.Free a
  | .punch a => a.port ≠ 0
  | .adopt a => s.Free a
  | .adoptRun c => s.Free (s.cell c).addr
  | .ban ip => s.Undialled ip
  | _ => True

instance decidableCareful (s : Registry) (e : RegistryEvent) : Decidable (s.Careful e) := by
  cases e with
  | pex added => exact inferInstanceAs (Decidable (∀ a ∈ added, isLoopback a = false → a ∉ s.peers))
  | connectSeed taken =>
    exact inferInstanceAs (Decidable (∀ t ∈ taken, s.isBanned t.1 = false ∧ t.1.port ≠ 0))
  | accept a => exact inferInstanceAs (Decidable (s.Free a))
  | punch a => exact inferInstanceAs (Decidable (a.port ≠ 0))
  | adopt a => exact inferInstanceAs (Decidable (s.Free a))
  | adoptRun c => exact inferInstanceAs (Decidable (s.Free (s.cell c).addr))
  | ban ip => exact inferInstanceAs (Decidable (s.Undialled ip))
  | _ => exact instDecidableTrue

/-! ## The sessions under their addresses -/

/-- Every live session is the one under its address, and no cell is in use that there is not. -/
structure Visible (s : Registry) : Prop where
  shown : ∀ c, s.Live c → s.peers.lookup (s.cell c).addr = some c
  fresh : ∀ c, s.next ≤ c → (s.cell c).task = .over

/-- The addresses that an event registers. -/
def registered (s : Registry) : RegistryEvent → List SocketAddr
  | .connect _ _ taken => taken.map Prod.fst
  | .connectSeed taken => taken.map Prod.fst
  | .accept a => [a]
  | .adopt a => [a]
  | .adoptRun c => [(s.cell c).addr]
  | _ => []

/-- What only ends or kills sessions, and takes away only entries that are not theirs who go on. -/
structure Settles (s : Registry) (cell : Nat → PeerCell)
    (peers : AList fun _ : SocketAddr => Nat) : Prop where
  addr : ∀ c, (cell c).addr = (s.cell c).addr
  dial : ∀ c, (cell c).task = .dialling → (s.cell c).task = .dialling
  ended : ∀ c, (s.cell c).task = .over → (cell c).task = .over
  sub : ∀ a ∈ peers, a ∈ s.peers
  live : ∀ c, Live { s with cell } c → s.Live c ∧
    peers.lookup (s.cell c).addr = s.peers.lookup (s.cell c).addr

variable {s s' : Registry} {e : RegistryEvent} {a : SocketAddr}

/-- A task that goes on without dialling. -/
theorem settles_setTask {c : Nat} {task : PeerTask} (hdial : task ≠ .dialling)
    (hrun : (s.cell c).task ≠ .over) (hlive : task = .running → (s.cell c).task = .dialling) :
    s.Settles (s.setTask c task).cell s.peers := by
  have hself : (s.setTask c task).cell c = { s.cell c with task } := Function.update_self ..
  have hother {d : Nat} (hd : d ≠ c) : (s.setTask c task).cell d = s.cell d :=
    Function.update_of_ne hd ..
  refine ⟨?_, ?_, ?_, fun _ ha => ha, ?_⟩
  · intro d
    by_cases heq : d = c
    · rw [heq, hself]
    · rw [hother heq]
  · intro d hd
    by_cases heq : d = c
    · rw [heq, hself] at hd
      exact absurd hd hdial
    · rwa [hother heq] at hd
  · intro d hd
    by_cases heq : d = c
    · exact absurd (heq ▸ hd) hrun
    · rwa [hother heq]
  · intro d hd
    refine ⟨?_, rfl⟩
    change (_ ∨ _) ∧ _ at hd
    by_cases heq : d = c
    · subst heq
      rw [hself] at hd
      exact ⟨.inl (hlive (hd.1.resolve_left hdial)), hd.2⟩
    · rwa [hother heq] at hd

/-- The sessions of an IP are killed. -/
theorem settles_disconnect (s : Registry) (ip : IpAddr) :
    s.Settles (fun c =>
      let p := s.cell c
      if s.peers.lookup p.addr = some c ∧ ipOf p.addr = ip then { p with killed := true }
      else p) s.peers := by
  refine ⟨?_, ?_, ?_, fun _ ha => ha, ?_⟩
  · intro c
    dsimp only
    split <;> rfl
  · intro c hc
    dsimp only at hc
    split at hc <;> exact hc
  · intro c hc
    dsimp only
    split <;> exact hc
  · intro c hc
    refine ⟨?_, rfl⟩
    unfold Live at hc
    dsimp only at hc
    split at hc
    · cases hc.2
    · exact hc

namespace Visible

variable {s : Registry}

/-- A live session is one of those that were registered. -/
theorem lt_next (h : s.Visible) {c : Nat} (hc : s.Live c) : c < s.next := by
  refine Nat.lt_of_not_le fun hle => ?_
  have hover := h.fresh c hle
  rcases hc.1 with hd | hr
  · rw [hover] at hd
    cases hd
  · rw [hover] at hr
    cases hr

/-- **A registration** of an address that has no live session hides nothing. -/
theorem registerPeer (h : s.Visible) {a : SocketAddr} (hunused : s.Unused a) (source : PeerSource)
    (task : PeerTask) : (s.registerPeer a source task).Visible := by
  have hself : (s.registerPeer a source task).cell s.next =
      { addr := a, source, killed := false, task } := Function.update_self ..
  have hother {c : Nat} (hc : c ≠ s.next) : (s.registerPeer a source task).cell c = s.cell c :=
    Function.update_of_ne hc ..
  refine ⟨fun c hc => ?_, fun c hc => ?_⟩
  · unfold Live at hc
    by_cases heq : c = s.next
    · rw [heq, hself]
      exact AList.lookup_insert s.peers
    · rw [hother heq] at hc ⊢
      exact (AList.lookup_insert_ne (hunused c (h.lt_next hc) hc)).trans (h.shown c hc)
  · rw [hother (Nat.ne_of_gt (Nat.lt_of_succ_le hc))]
    exact h.fresh c (Nat.le_of_succ_le hc)

/-- Another address is as unused as it was. -/
theorem unused_registerPeer (h : s.Visible) {a b : SocketAddr} (hb : s.Unused b) (hne : a ≠ b)
    (source : PeerSource) (task : PeerTask) : (s.registerPeer a source task).Unused b := by
  intro c _ hc
  unfold Live at hc
  by_cases heq : c = s.next
  · rw [heq, show (s.registerPeer a source task).cell s.next =
      { addr := a, source, killed := false, task } from Function.update_self ..]
    exact hne
  · rw [show (s.registerPeer a source task).cell c = s.cell c from
      Function.update_of_ne heq ..] at hc ⊢
    exact hb c (h.lt_next hc) hc

theorem settle (h : s.Visible) {cell : Nat → PeerCell} {peers : AList fun _ : SocketAddr => Nat}
    (hs : s.Settles cell peers) : Visible { s with cell, peers } where
  shown := fun c hc => by
    obtain ⟨hold, hsame⟩ := hs.live c hc
    show peers.lookup (cell c).addr = some c
    rw [hs.addr, hsame]
    exact h.shown c hold
  fresh := fun c hc => hs.ended c (h.fresh c hc)

/-- **Unregistering** a peer takes no entry from another session. -/
theorem settles_unregisterPeer (h : s.Visible) (c : Nat) :
    s.Settles (s.unregisterPeer c).cell (s.unregisterPeer c).peers := by
  have hself : (s.unregisterPeer c).cell c = { s.cell c with killed := true } :=
    Function.update_self ..
  have hother {d : Nat} (hd : d ≠ c) : (s.unregisterPeer c).cell d = s.cell d :=
    Function.update_of_ne hd ..
  refine ⟨?_, ?_, ?_, ?_, ?_⟩
  · intro d
    by_cases heq : d = c
    · rw [heq, hself]
    · rw [hother heq]
  · intro d hd
    by_cases heq : d = c
    · rwa [heq, hself, ← heq] at hd
    · rwa [hother heq] at hd
  · intro d hd
    by_cases heq : d = c
    · rwa [heq, hself, ← heq]
    · rwa [hother heq]
  · intro a ha
    unfold Registry.unregisterPeer at ha
    dsimp only at ha
    split at ha
    · exact (AList.mem_erase.mp ha).2
    · exact ha
  · intro d hd
    change (_ ∨ _) ∧ _ at hd
    by_cases heq : d = c
    · rw [heq, hself] at hd
      cases hd.2
    · rw [hother heq] at hd
      refine ⟨hd, ?_⟩
      unfold Registry.unregisterPeer
      dsimp only
      split
      · rename_i hown
        refine AList.lookup_erase_ne fun hsame => heq ?_
        have hshown := h.shown d hd
        rw [hsame, hown] at hshown
        exact (Option.some.inj hshown).symm
      · rfl

end Visible

/-- What holds of the sessions after a step. -/
structure Carries (s s' : Registry) : Prop where
  visible : s'.Visible
  next_le : s.next ≤ s'.next
  live : ∀ c < s.next, s'.Live c → s.Live c

namespace Carries

variable {s s' s'' : Registry}

theorem trans (h₁ : s.Carries s') (h₂ : s'.Carries s'') : s.Carries s'' where
  visible := h₂.visible
  next_le := Nat.le_trans h₁.next_le h₂.next_le
  live := fun c hc hl => h₁.live c hc (h₂.live c (Nat.lt_of_lt_of_le hc h₁.next_le) hl)

/-- What does not touch the sessions. -/
theorem of_same (h : s.Visible) (hcell : s'.cell = s.cell) (hpeers : s'.peers = s.peers)
    (hnext : s'.next = s.next) : s.Carries s' where
  visible := ⟨fun c hc => by
      unfold Live at hc
      rw [hcell] at hc ⊢
      rw [hpeers]
      exact h.shown c hc,
    fun c hc => by
      rw [hcell]
      rw [hnext] at hc
      exact h.fresh c hc⟩
  next_le := Nat.le_of_eq hnext.symm
  live := fun c _ hc => by
    unfold Live at hc
    rwa [hcell] at hc

theorem of_settles (h : s.Visible) {cell : Nat → PeerCell}
    {peers : AList fun _ : SocketAddr => Nat} (hs : s.Settles cell peers) :
    s.Carries { s with cell, peers } where
  visible := h.settle hs
  next_le := Nat.le_refl _
  live := fun c _ hc => (hs.live c hc).1

theorem of_registerPeer (h : s.Visible) {a : SocketAddr} (hunused : s.Unused a)
    (source : PeerSource) (task : PeerTask) : s.Carries (s.registerPeer a source task) where
  visible := h.registerPeer hunused source task
  next_le := Nat.le_succ _
  live := fun c hc hl => by
    unfold Live at hl
    rwa [show (s.registerPeer a source task).cell c = s.cell c from
      Function.update_of_ne (Nat.ne_of_lt hc) ..] at hl

theorem of_setTask (h : s.Visible) {c : Nat} {task : PeerTask} (hdial : task ≠ .dialling)
    (hrun : (s.cell c).task ≠ .over) (hlive : task = .running → (s.cell c).task = .dialling) :
    s.Carries (s.setTask c task) :=
  of_settles h (settles_setTask hdial hrun hlive)

theorem of_unregisterPeer (h : s.Visible) (c : Nat) : s.Carries (s.unregisterPeer c) :=
  of_settles h (h.settles_unregisterPeer c)

/-- The end of a session. -/
theorem of_end (h : s.Visible) {c : Nat} (hrun : (s.cell c).task ≠ .over) :
    s.Carries ((s.setTask c .over).unregisterPeer c) :=
  have hset : s.Carries (s.setTask c .over) := of_setTask h nofun hrun nofun
  hset.trans (of_unregisterPeer hset.visible c)

theorem of_registerAll {taken : List (SocketAddr × PeerSource)} (h : s.Visible)
    (hnodup : (taken.map Prod.fst).Nodup) (hunused : ∀ a ∈ taken.map Prod.fst, s.Unused a) :
    s.Carries (taken.foldl (fun s t => s.registerPeer t.1 t.2 .dialling) s) := by
  induction taken generalizing s with
  | nil => exact of_same h rfl rfl rfl
  | cons t rest ih =>
    obtain ⟨hnot, hrest⟩ := List.nodup_cons.mp hnodup
    have hone := of_registerPeer h (hunused t.1 List.mem_cons_self) t.2 .dialling
    refine hone.trans (ih hone.visible hrest fun a ha => ?_)
    exact h.unused_registerPeer (hunused a (List.mem_cons_of_mem _ ha))
      (fun heq : t.1 = a => hnot (heq ▸ ha)) t.2 .dialling

theorem of_takeAll {taken : List (SocketAddr × PeerSource)} (h : s.Visible)
    (hnodup : (taken.map Prod.fst).Nodup) (hunused : ∀ a ∈ taken.map Prod.fst, s.Unused a) :
    s.Carries (s.takeAll taken) := by
  have hout : s.Carries { s with
      pending := retain (fun a => decide (a ∉ taken.map Prod.fst)) s.pending } :=
    of_same h rfl rfl rfl
  exact hout.trans (of_registerAll hout.visible hnodup hunused)

theorem of_addPex (h : s.Visible) (added : List SocketAddr) : s.Carries (s.addPex added) := by
  induction added generalizing s with
  | nil => exact of_same h rfl rfl rfl
  | cons a rest ih =>
    unfold addPex
    split
    · exact of_same h rfl rfl rfl
    · have hone : s.Carries { s with pending := s.pending.insert a .pex } :=
        of_same h rfl rfl rfl
      exact hone.trans (ih hone.visible)

end Carries

/-- **What a step does to the sessions**: it starts new ones and ends or kills old ones, and when it
registers no address of a live one, they all stay visible. -/
theorem step_carries (h : s.Visible) (hunused : ∀ a ∈ s.registered e, s.Unused a)
    (hstep : s.step e = some s') : s.Carries s' := by
  cases e with
  | discover a source =>
    obtain rfl := Option.some.inj hstep
    unfold addPeer
    dsimp only
    split
    · exact .of_same h rfl rfl rfl
    split
    · exact .of_same h rfl rfl rfl
    split
    · exact .of_same h rfl rfl rfl
    split
    · exact .of_same h rfl rfl rfl
    · exact .of_same h rfl rfl rfl
  | pex added =>
    obtain rfl := Option.some.inj hstep
    exact .of_addPex h _
  | connect cap limit taken =>
    obtain ⟨⟨-, -, hnodup, -⟩, hs'⟩ := Option.ite_none_right_eq_some.mp hstep
    obtain rfl := Option.some.inj hs'
    have hout : s.Carries { s with pending := retain (fun a => !s.isBanned a) s.pending } :=
      .of_same h rfl rfl rfl
    exact hout.trans (.of_takeAll hout.visible hnodup hunused)
  | connectSeed taken =>
    obtain ⟨⟨-, -, hnodup, -⟩, hs'⟩ := Option.ite_none_right_eq_some.mp hstep
    obtain rfl := Option.some.inj hs'
    exact .of_takeAll h hnodup hunused
  | connected c =>
    obtain ⟨⟨htask, -⟩, hs'⟩ := Option.ite_none_right_eq_some.mp hstep
    obtain rfl := Option.some.inj hs'
    refine .of_setTask h nofun (fun hover => ?_) fun _ => htask
    rw [htask] at hover
    cases hover
  | finishDialled c failed =>
    obtain ⟨htask, hs'⟩ := Option.ite_none_right_eq_some.mp hstep
    have hend := Carries.of_end h (c := c) fun hover => by
      rcases htask with ht | ht <;> (rw [ht] at hover; cases hover)
    split at hs'
    · obtain rfl := Option.some.inj hs'
      refine hend.trans ?_
      unfold retryLater
      dsimp only
      split
      · exact .of_same hend.visible rfl rfl rfl
      split
      · exact .of_same hend.visible rfl rfl rfl
      · exact .of_same hend.visible rfl rfl rfl
    · obtain rfl := Option.some.inj hs'
      exact hend
  | accept a =>
    obtain ⟨-, hs'⟩ := Option.ite_none_left_eq_some.mp hstep
    obtain rfl := Option.some.inj hs'
    exact .of_registerPeer h (hunused a List.mem_cons_self) .incoming .running
  | finish c =>
    obtain ⟨htask, hs'⟩ := Option.ite_none_right_eq_some.mp hstep
    obtain rfl := Option.some.inj hs'
    refine .of_end h fun hover => ?_
    rw [hover] at htask
    rcases htask with ht | ht | ⟨ht, -⟩ <;> cases ht
  | adopt a =>
    obtain ⟨-, hs'⟩ := Option.ite_none_right_eq_some.mp hstep
    obtain rfl := Option.some.inj hs'
    exact .of_registerPeer h (hunused a List.mem_cons_self) .holepunch .holding
  | adoptRun c =>
    obtain ⟨⟨htask, -⟩, hs'⟩ := Option.ite_none_right_eq_some.mp hstep
    obtain rfl := Option.some.inj hs'
    have hset : s.Carries (s.setTask c .awaiting) := .of_setTask h nofun
      (fun hover => by rw [htask] at hover; cases hover) nofun
    refine hset.trans (.of_registerPeer hset.visible (fun d hd hlive => ?_) .incoming .running)
    have hold := hset.live d hd hlive
    unfold Live at hold
    by_cases heq : d = c
    · rw [heq, htask] at hold
      rcases hold.1 with hno | hno <;> cases hno
    · rw [show (s.setTask c .awaiting).cell d = s.cell d from Function.update_of_ne heq ..]
      exact hunused _ List.mem_cons_self d hd hold
  | evict a =>
    obtain ⟨c, -, rfl⟩ := Option.map_eq_some_iff.mp hstep
    exact .of_unregisterPeer h c
  | disconnect ip =>
    obtain rfl := Option.some.inj hstep
    exact .of_settles h (settles_disconnect s ip)
  | dial c =>
    obtain ⟨-, hs'⟩ := Option.ite_none_right_eq_some.mp hstep
    obtain rfl := Option.some.inj hs'
    exact .of_same h rfl rfl rfl
  | punch a =>
    obtain ⟨-, hs'⟩ := Option.ite_none_left_eq_some.mp hstep
    obtain rfl := Option.some.inj hs'
    exact .of_same h rfl rfl rfl
  | punchDial a =>
    obtain ⟨-, hs'⟩ := Option.ite_none_right_eq_some.mp hstep
    obtain rfl := Option.some.inj hs'
    exact .of_same h rfl rfl rfl
  | _ =>
    obtain rfl := Option.some.inj hstep
    exact .of_same h rfl rfl rfl

/-! ## What one step keeps -/

theorem mem_of_entry {m : AList fun _ : SocketAddr => PeerSource}
    {e : Sigma fun _ : SocketAddr => PeerSource} (h : e ∈ m.entries) : e.1 ∈ m :=
  AList.mem_keys.mpr (show e.1 ∈ m.entries.map Sigma.fst from List.mem_map_of_mem h)

theorem mem_retain {keep : SocketAddr → Bool} {m : AList fun _ : SocketAddr => PeerSource} :
    a ∈ retain keep m ↔ a ∈ m ∧ keep a = true := by
  simp only [AList.mem_keys, AList.keys, List.keys, retain, List.mem_map, List.mem_filter]
  constructor
  · rintro ⟨e, ⟨he, hk⟩, rfl⟩
    exact ⟨⟨e, he, rfl⟩, hk⟩
  · rintro ⟨⟨e, he, rfl⟩, hk⟩
    exact ⟨e, ⟨he, hk⟩, rfl⟩

theorem isBanned_eq_false :
    s.isBanned a = false ↔ ipOf a ∉ s.banned := decide_eq_false_iff_not

/-- What holds of the addresses in every state of a careful run. -/
structure Tidy (s : Registry) : Prop where
  apart : ∀ a, a ∈ s.pending → a ∉ s.peers
  dialled : ∀ d ∈ s.dials, d.banned = false ∧ d.addr.port ≠ 0
  aimed : ∀ c, (s.cell c).task = .dialling →
    ipOf (s.cell c).addr ∉ s.banned ∧ (s.cell c).addr.port ≠ 0
  holes : ∀ a ∈ s.inflight, ipOf a ∉ s.banned ∧ a.port ≠ 0

theorem tidy_start (maxPeers : Nat) (listenPort : UInt16) : (start maxPeers listenPort).Tidy where
  apart := fun a h => absurd h (AList.notMem_empty a)
  dialled := fun d h => absurd h List.not_mem_nil
  aimed := fun c h => by cases h
  holes := fun a h => absurd h List.not_mem_nil

theorem visible_start (maxPeers : Nat) (listenPort : UInt16) :
    (start maxPeers listenPort).Visible where
  shown := fun c h => by
    obtain ⟨h | h, -⟩ := h
    · cases h
    · cases h
  fresh := fun c _ => rfl

namespace Tidy

variable {s : Registry}

/-- What comes to wait has no entry. -/
theorem withPending (h : s.Tidy) {p : AList fun _ : SocketAddr => PeerSource}
    (hp : ∀ a ∈ p, a ∈ s.pending ∨ a ∉ s.peers) (failures : SocketAddr → Nat) :
    Tidy { s with pending := p, dialFailures := failures } where
  apart := fun a ha => (hp a ha).elim (h.apart a) id
  dialled := h.dialled
  aimed := h.aimed
  holes := h.holes

theorem withPendingOnly (h : s.Tidy) {p : AList fun _ : SocketAddr => PeerSource}
    (hp : ∀ a ∈ p, a ∈ s.pending ∨ a ∉ s.peers) : Tidy { s with pending := p } :=
  h.withPending hp s.dialFailures

theorem addPeer (h : s.Tidy) (source : PeerSource) (a : SocketAddr) :
    (s.addPeer source a).Tidy := by
  unfold Registry.addPeer
  dsimp only
  split
  · exact h
  split
  · exact h
  split
  · exact h
  split
  · exact h
  · rename_i hnew
    refine h.withPending (fun b hb => ?_) _
    rcases (AList.mem_insert _).mp hb with rfl | hb
    · exact .inr fun hin => hnew (.inr hin)
    · exact .inl hb

theorem addPex (h : s.Tidy) {added : List SocketAddr} (hadd : ∀ a ∈ added, a ∉ s.peers) :
    (s.addPex added).Tidy := by
  induction added generalizing s with
  | nil => exact h
  | cons a rest ih =>
    unfold Registry.addPex
    split
    · exact h
    · refine ih (h.withPendingOnly fun b hb => ?_) fun b hb => hadd b (List.mem_cons_of_mem a hb)
      rcases (AList.mem_insert _).mp hb with rfl | hb
      · exact .inr (hadd b List.mem_cons_self)
      · exact .inl hb

theorem retryLater (h : s.Tidy) (a : SocketAddr) (source : PeerSource) :
    (s.retryLater a source).Tidy := by
  unfold Registry.retryLater
  dsimp only
  split
  · exact h.withPending (fun b hb => .inl hb) _
  split
  · rename_i hnew
    refine h.withPending (fun b hb => ?_) _
    rcases (AList.mem_insert _).mp hb with rfl | hb
    · exact .inr hnew.2.2
    · exact .inl hb
  · exact h.withPending (fun b hb => .inl hb) _

/-- A registration of an address that does not wait. -/
theorem registerPeer (h : s.Tidy) {a : SocketAddr} (hfree : a ∉ s.pending) (source : PeerSource)
    {task : PeerTask} (haim : task = .dialling → ipOf a ∉ s.banned ∧ a.port ≠ 0) :
    (s.registerPeer a source task).Tidy := by
  refine ⟨?_, h.dialled, ?_, h.holes⟩
  · intro b hb hin
    rcases (AList.mem_insert _).mp hin with rfl | hin
    · exact hfree hb
    · exact h.apart b hb hin
  · intro c hc
    by_cases heq : c = s.next
    · rw [heq, show (s.registerPeer a source task).cell s.next =
        { addr := a, source, killed := false, task } from Function.update_self ..] at hc ⊢
      exact haim hc
    · rw [show (s.registerPeer a source task).cell c = s.cell c from
        Function.update_of_ne heq ..] at hc ⊢
      exact h.aimed c hc

theorem settle (h : s.Tidy) {cell : Nat → PeerCell} {peers : AList fun _ : SocketAddr => Nat}
    (hs : s.Settles cell peers) : Tidy { s with cell, peers } where
  apart := fun a ha hin => h.apart a ha (hs.sub a hin)
  dialled := h.dialled
  aimed := fun c hc => by
    show ipOf (cell c).addr ∉ s.banned ∧ (cell c).addr.port ≠ 0
    rw [hs.addr]
    exact h.aimed c (hs.dial c hc)
  holes := h.holes

/-- The end of a session. -/
theorem endSession (h : s.Tidy) (hv : s.Visible) {c : Nat} (hrun : (s.cell c).task ≠ .over) :
    ((s.setTask c .over).unregisterPeer c).Tidy := by
  have hset : s.Settles (s.setTask c .over).cell s.peers :=
    settles_setTask nofun hrun nofun
  exact (h.settle hset).settle ((hv.settle hset).settles_unregisterPeer c)

/-- An attempt to connect to an address that has a port and is not banned. -/
theorem dial (h : s.Tidy) {a : SocketAddr} (ha : ipOf a ∉ s.banned ∧ a.port ≠ 0) :
    (s.dial a).Tidy where
  apart := h.apart
  dialled := fun d hd => by
    rcases List.mem_append.mp hd with hd | hd
    · exact h.dialled d hd
    · obtain rfl := List.mem_singleton.mp hd
      exact ⟨isBanned_eq_false.mpr ha.1, ha.2⟩
  aimed := h.aimed
  holes := h.holes

/-- **Waiting addresses are taken** and have a cell each. -/
theorem takeAll (h : s.Tidy) {taken : List (SocketAddr × PeerSource)}
    (haim : ∀ t ∈ taken, ipOf t.1 ∉ s.banned ∧ t.1.port ≠ 0) : (s.takeAll taken).Tidy := by
  have hout := h.withPendingOnly
    (p := retain (fun a => decide (a ∉ taken.map Prod.fst)) s.pending)
    fun a ha => .inl (mem_retain.mp ha).1
  have hgone (t) (ht : t ∈ taken) :
      t.1 ∉ retain (fun a => decide (a ∉ taken.map Prod.fst)) s.pending := fun hin =>
    of_decide_eq_true (mem_retain.mp hin).2 (List.mem_map_of_mem ht)
  -- the addresses that wait and the bans stay as they are while the taken are registered
  have hall : ∀ (us : List (SocketAddr × PeerSource)) (r : Registry), r.Tidy →
      (∀ u ∈ us, u.1 ∉ r.pending) → (∀ u ∈ us, ipOf u.1 ∉ r.banned ∧ u.1.port ≠ 0) →
      (us.foldl (fun r u => r.registerPeer u.1 u.2 .dialling) r).Tidy := by
    intro us
    induction us with
    | nil => exact fun r hr _ _ => hr
    | cons u us ih =>
      intro r hr hpend haim
      exact ih _ (hr.registerPeer (hpend u List.mem_cons_self) u.2
        fun _ => haim u List.mem_cons_self)
        (fun v hv => hpend v (List.mem_cons_of_mem u hv))
        fun v hv => haim v (List.mem_cons_of_mem u hv)
  exact hall taken _ hout hgone haim

/-- What goes with a ban, when nobody is connecting to the IP. -/
theorem ban (h : s.Tidy) (hv : s.Visible) {ip : IpAddr} (hip : s.Undialled ip) :
    Tidy { s with banned := ip :: s.banned } where
  apart := h.apart
  dialled := h.dialled
  aimed := fun c hc => by
    obtain ⟨hnot, hport⟩ := h.aimed c hc
    have hlt : c < s.next := Nat.lt_of_not_le fun hle => by
      rw [hv.fresh c hle] at hc
      cases hc
    exact ⟨fun hin => (List.mem_cons.mp hin).elim (hip.1 c hlt hc) hnot, hport⟩
  holes := fun a ha =>
    ⟨fun hin => (List.mem_cons.mp hin).elim (hip.2 a ha) (h.holes a ha).1, (h.holes a ha).2⟩

theorem unban (h : s.Tidy) {banned : List IpAddr} (hsub : ∀ ip ∈ banned, ip ∈ s.banned) :
    Tidy { s with banned } where
  apart := h.apart
  dialled := h.dialled
  aimed := fun c hc => ⟨fun hin => (h.aimed c hc).1 (hsub _ hin), (h.aimed c hc).2⟩
  holes := fun a ha => ⟨fun hin => (h.holes a ha).1 (hsub _ hin), (h.holes a ha).2⟩

theorem withInflight (h : s.Tidy) {inflight : List SocketAddr}
    (hnew : ∀ a ∈ inflight, a ∈ s.inflight ∨ (ipOf a ∉ s.banned ∧ a.port ≠ 0)) :
    Tidy { s with inflight } where
  apart := h.apart
  dialled := h.dialled
  aimed := h.aimed
  holes := fun a ha => (hnew a ha).elim (h.holes a) id

end Tidy

/-- What a step takes from `pending` has no live session. -/
theorem Tidy.unused (h : s.Tidy) (hv : s.Visible) (ha : a ∈ s.pending) : s.Unused a := by
  intro c _ hc heq
  refine h.apart a ha (AList.lookup_isSome.mp ?_)
  rw [← heq, hv.shown c hc]
  rfl

/-- **A careful step registers no address of a live session.** -/
theorem unused_of_careful (h : s.Tidy) (hv : s.Visible) (hcareful : s.Careful e)
    (hstep : s.step e = some s') : ∀ a ∈ s.registered e, s.Unused a := by
  cases e with
  | connect cap limit taken =>
    obtain ⟨⟨-, -, -, htaken⟩, -⟩ := Option.ite_none_right_eq_some.mp hstep
    intro a ha
    obtain ⟨t, ht, rfl⟩ := List.mem_map.mp ha
    obtain ⟨e, he, rfl⟩ := List.mem_map.mp (htaken t ht)
    exact h.unused hv (mem_retain.mp (mem_of_entry (List.mem_filter.mp he).1)).1
  | connectSeed taken =>
    obtain ⟨⟨-, -, -, htaken⟩, -⟩ := Option.ite_none_right_eq_some.mp hstep
    intro a ha
    obtain ⟨t, ht, rfl⟩ := List.mem_map.mp ha
    obtain ⟨e, he, rfl⟩ := List.mem_map.mp (htaken t ht)
    exact h.unused hv (mem_of_entry he)
  | accept a =>
    intro b hb
    exact List.mem_singleton.mp hb ▸ hcareful.2
  | adopt a =>
    intro b hb
    exact List.mem_singleton.mp hb ▸ hcareful.2
  | adoptRun c =>
    intro b hb
    exact List.mem_singleton.mp hb ▸ hcareful.2
  | _ => exact fun a ha => absurd ha List.not_mem_nil

theorem step_tidy (h : s.Tidy) (hv : s.Visible) (hcareful : s.Careful e)
    (hstep : s.step e = some s') : s'.Tidy := by
  cases e with
  | discover a source =>
    obtain rfl := Option.some.inj hstep
    exact h.addPeer source a
  | pex added =>
    obtain rfl := Option.some.inj hstep
    refine h.addPex fun a ha => ?_
    obtain ⟨hin, hnot⟩ := List.mem_filter.mp ha
    exact hcareful a hin (Bool.not_eq_true' _ ▸ hnot)
  | connect cap limit taken =>
    obtain ⟨⟨-, -, -, htaken⟩, hs'⟩ := Option.ite_none_right_eq_some.mp hstep
    obtain rfl := Option.some.inj hs'
    have hout := h.withPendingOnly (p := retain (fun a => !s.isBanned a) s.pending)
      fun a ha => .inl (mem_retain.mp ha).1
    refine hout.takeAll fun t ht => ?_
    obtain ⟨e, he, rfl⟩ := List.mem_map.mp (htaken t ht)
    obtain ⟨hin, hok⟩ := List.mem_filter.mp he
    rw [Bool.and_eq_true, decide_eq_true_iff] at hok
    have hnot := (mem_retain.mp (mem_of_entry hin)).2
    exact ⟨isBanned_eq_false.mp ((Bool.not_eq_true' _).mp hnot), hok.2⟩
  | connectSeed taken =>
    obtain ⟨-, hs'⟩ := Option.ite_none_right_eq_some.mp hstep
    obtain rfl := Option.some.inj hs'
    exact h.takeAll fun t ht => ⟨isBanned_eq_false.mp (hcareful t ht).1, (hcareful t ht).2⟩
  | dial c =>
    obtain ⟨htask, hs'⟩ := Option.ite_none_right_eq_some.mp hstep
    obtain rfl := Option.some.inj hs'
    exact h.dial (h.aimed c htask)
  | connected c =>
    obtain ⟨⟨htask, -⟩, hs'⟩ := Option.ite_none_right_eq_some.mp hstep
    obtain rfl := Option.some.inj hs'
    refine h.settle (settles_setTask nofun (fun hover => ?_) fun _ => htask)
    rw [htask] at hover
    cases hover
  | finishDialled c failed =>
    obtain ⟨htask, hs'⟩ := Option.ite_none_right_eq_some.mp hstep
    have hend := h.endSession hv (c := c) fun hover => by
      rcases htask with ht | ht <;> (rw [ht] at hover; cases hover)
    split at hs'
    · obtain rfl := Option.some.inj hs'
      exact hend.retryLater _ _
    · obtain rfl := Option.some.inj hs'
      exact hend
  | accept a =>
    obtain ⟨-, hs'⟩ := Option.ite_none_left_eq_some.mp hstep
    obtain rfl := Option.some.inj hs'
    exact h.registerPeer hcareful.1 .incoming nofun
  | finish c =>
    obtain ⟨htask, hs'⟩ := Option.ite_none_right_eq_some.mp hstep
    obtain rfl := Option.some.inj hs'
    refine h.endSession hv fun hover => ?_
    rw [hover] at htask
    rcases htask with ht | ht | ⟨ht, -⟩ <;> cases ht
  | punch a =>
    obtain ⟨hguard, hs'⟩ := Option.ite_none_left_eq_some.mp hstep
    obtain rfl := Option.some.inj hs'
    refine h.withInflight fun b hb => ?_
    rcases List.mem_cons.mp hb with rfl | hb
    · exact .inr ⟨isBanned_eq_false.mp (Bool.eq_false_iff.mpr fun hban => hguard (.inr (.inl hban))),
        hcareful⟩
    · exact .inl hb
  | punchDial a =>
    obtain ⟨hin, hs'⟩ := Option.ite_none_right_eq_some.mp hstep
    obtain rfl := Option.some.inj hs'
    exact h.dial (h.holes a hin)
  | punchEnd a =>
    obtain rfl := Option.some.inj hstep
    exact h.withInflight fun b hb => .inl (List.mem_of_mem_erase hb)
  | adopt a =>
    obtain ⟨-, hs'⟩ := Option.ite_none_right_eq_some.mp hstep
    obtain rfl := Option.some.inj hs'
    exact h.registerPeer hcareful.1 .holepunch nofun
  | adoptRun c =>
    obtain ⟨⟨htask, -⟩, hs'⟩ := Option.ite_none_right_eq_some.mp hstep
    obtain rfl := Option.some.inj hs'
    have hset : (s.setTask c .awaiting).Tidy := h.settle (settles_setTask nofun
      (fun hover => by rw [htask] at hover; cases hover) nofun)
    exact hset.registerPeer hcareful.1 .incoming nofun
  | evict a =>
    obtain ⟨c, -, rfl⟩ := Option.map_eq_some_iff.mp hstep
    exact h.settle (hv.settles_unregisterPeer c)
  | ban ip =>
    obtain rfl := Option.some.inj hstep
    exact h.ban hv hcareful
  | disconnect ip =>
    obtain rfl := Option.some.inj hstep
    exact h.settle (settles_disconnect s ip)
  | purge ip =>
    obtain rfl := Option.some.inj hstep
    exact h.withPendingOnly fun a ha => .inl (mem_retain.mp ha).1
  | unban ip =>
    obtain rfl := Option.some.inj hstep
    exact h.unban fun ip' hin => (List.mem_filter.mp hin).1

/-- A host of one network. -/
def host (k : UInt8) : SocketAddr := .v4 (.ofSlice 4 [10, 0, 0, k]) 51413

/-- Two peers are dialled, of which one is refused and one tells of a third; a fourth comes in, and
is banned when it has gone. -/
def carefulEvents : List RegistryEvent :=
  [.discover (host 1) .tracker, .discover (host 2) .dht,
    .connect 50 8 [(host 1, .tracker), (host 2, .dht)], .dial 0, .dial 1, .connected 1,
    .finishDialled 0 true, .pex [host 3, host 4], .connect 50 1 [(host 3, .pex)], .dial 2,
    .purge (ipOf (host 4)), .accept (host 4), .evict (host 4), .finish 3, .ban (ipOf (host 4))]

end Registry

end XferRust.Swarm
