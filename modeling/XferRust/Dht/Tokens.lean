import XferRust.Lib.Sha1
import XferRust.Dht.Node
import XferRust.Dht.RoundTrip

/-! # What a token stands for

In every run a peer that the handler stores comes from an announcement whose token is the one of
the id that the announcement claims, and that token is what every reply with a token carries to
whoever claims the id.  The address of the sender has no part in it.
-/
namespace XferRust.Dht
open SortedMap (lookup)

variable (sha1 : List UInt8 → List UInt8)

/-! ## The history of a node -/

/-- The fields of the node that never change are those of `d`. -/
structure SameNode (d d' : DhtNode) : Prop where
  ourId : d'.ourId = d.ourId
  tokenSalt : d'.tokenSalt = d.tokenSalt
  v6Socket : d'.v6Socket = d.v6Socket

theorem SameNode.trans {d e f : DhtNode} (h₁ : SameNode d e) (h₂ : SameNode e f) : SameNode d f :=
  ⟨h₂.ourId.trans h₁.ourId, h₂.tokenSalt.trans h₁.tokenSalt, h₂.v6Socket.trans h₁.v6Socket⟩

variable {d' : DhtNode} {s s' : System}

variable {sha1} in
theorem SameNode.makeToken {d : DhtNode} (h : SameNode d d') (id : NodeId) :
    d'.makeToken sha1 id = d.makeToken sha1 id := by
  rw [DhtNode.makeToken, DhtNode.makeToken, h.ourId, h.tokenSalt]

theorem SameNode.wireDst {d : DhtNode} (h : SameNode d d') (dst : SocketAddr) :
    d'.wireDst dst = d.wireDst dst := by
  unfold DhtNode.wireDst
  rw [h.v6Socket]

/-- An announcement with the token of the id that it claims is behind a stored peer. -/
def Accepted (d : DhtNode) (log : List Event) (infoHash : InfoHash) (addr : SocketAddr) : Prop :=
  ∃ data src tid id port impliedPort, .received data src ∈ log ∧
    parseQuery data =
      .ok (.announcePeer tid id infoHash port impliedPort (d.makeToken sha1 id)) ∧
    addr = DhtNode.announceAddr src port impliedPort

/-- The query asks for nodes or for peers, and its sender claims the id. -/
def AsksAs (id : NodeId) : IncomingQuery → Prop
  | .findNode _ id' _ => id' = id
  | .getPeers _ id' _ => id' = id
  | _ => False

/-- A query for nodes or peers is behind a token, which is the one of the id that the query
claims. -/
def Issued (d : DhtNode) (log : List Event) (dst : SocketAddr) (token : List UInt8) : Prop :=
  ∃ data src query id, .received data src ∈ log ∧ parseQuery data = .ok query ∧ AsksAs id query ∧
    dst = d.wireDst src ∧ token = d.makeToken sha1 id

/-- A message says who the node is, and every token in it was asked for. -/
structure Honest (d : DhtNode) (log : List Event) (dst : SocketAddr) (m : Message) : Prop where
  sender : ∀ id, m.senderId = some id → id = d.ourId
  token : ∀ token, m.token = some token → Issued sha1 d log dst token

/-- What a task stores was accepted, and what it sends is honest, whatever it reads. -/
def Justified (d : DhtNode) (log : List Event) : Task → Prop
  | .addNode _ next => Justified d log next
  | .readPeers _ next => ∀ peers, Justified d log (next peers)
  | .readTable next => ∀ table, Justified d log (next table)
  | .addKnownPeer infoHash addr next => Accepted sha1 d log infoHash addr ∧ Justified d log next
  | .send dst m next => Honest sha1 d log (d.wireDst dst) m ∧ Justified d log next
  | .done => True

/-- The node is still the same, its tasks are justified, and so is its history. -/
structure Sound (d : DhtNode) (s : System) : Prop where
  same : SameNode d s.dht
  tasks : ∀ t ∈ s.tasks, Justified sha1 d s.log t
  stored : ∀ infoHash addr, .stored infoHash addr ∈ s.log → Accepted sha1 d s.log infoHash addr
  sent : ∀ dst m, .sent dst m ∈ s.log → Honest sha1 d s.log dst m

/-! ## A longer history -/

variable {sha1} {d : DhtNode} {log : List Event}

theorem Accepted.more {infoHash : InfoHash} {addr : SocketAddr}
    (h : Accepted sha1 d log infoHash addr) (new : List Event) :
    Accepted sha1 d (log ++ new) infoHash addr := by
  obtain ⟨data, src, tid, id, port, impliedPort, hmem, h⟩ := h
  exact ⟨data, src, tid, id, port, impliedPort, List.mem_append_left new hmem, h⟩

theorem Issued.more {dst : SocketAddr} {token : List UInt8} (h : Issued sha1 d log dst token)
    (new : List Event) : Issued sha1 d (log ++ new) dst token := by
  obtain ⟨data, src, query, id, hmem, h⟩ := h
  exact ⟨data, src, query, id, List.mem_append_left new hmem, h⟩

theorem Honest.more {dst : SocketAddr} {m : Message} (h : Honest sha1 d log dst m)
    (new : List Event) : Honest sha1 d (log ++ new) dst m :=
  ⟨h.sender, fun token ht => (h.token token ht).more new⟩

theorem Justified.more {t : Task} (h : Justified sha1 d log t) (new : List Event) :
    Justified sha1 d (log ++ new) t := by
  induction t with
  | addNode entry next ih => exact ih h
  | readPeers infoHash next ih => exact fun peers => ih peers (h peers)
  | readTable next ih => exact fun table => ih table (h table)
  | addKnownPeer infoHash addr next ih => exact ⟨h.1.more new, ih h.2⟩
  | send dst m next ih => exact ⟨h.1.more new, ih h.2⟩
  | done => trivial

theorem Sound.keep (h : Sound sha1 d s) (hsame : SameNode s.dht s'.dht)
    (htasks : s'.tasks = s.tasks) (hlog : s'.log = s.log) : Sound sha1 d s' := by
  refine ⟨h.same.trans hsame, ?_, ?_, ?_⟩
  · rw [htasks, hlog]
    exact h.tasks
  · rw [hlog]
    exact h.stored
  · rw [hlog]
    exact h.sent

/-- A new event that is justified, and nothing else that is new but in the table and the like. -/
theorem Sound.extend (h : Sound sha1 d s) (hsame : SameNode d s'.dht) {e : Event}
    (hlog : s'.log = s.log ++ [e]) (htasks : ∀ t ∈ s'.tasks, Justified sha1 d s'.log t)
    (hstored : ∀ infoHash addr, e = .stored infoHash addr →
      Accepted sha1 d s.log infoHash addr)
    (hsent : ∀ dst m, e = .sent dst m → Honest sha1 d s.log dst m) : Sound sha1 d s' := by
  refine ⟨hsame, htasks, fun infoHash addr hmem => ?_, fun dst m hmem => ?_⟩
  · rw [hlog] at hmem ⊢
    rcases List.mem_append.mp hmem with hmem | hmem
    · exact (h.stored infoHash addr hmem).more [e]
    · exact (hstored infoHash addr (List.mem_singleton.mp hmem).symm).more [e]
  · rw [hlog] at hmem ⊢
    rcases List.mem_append.mp hmem with hmem | hmem
    · exact (h.sent dst m hmem).more [e]
    · exact (hsent dst m (List.mem_singleton.mp hmem).symm).more [e]

/-! ## The handler -/

theorem justified_replyNodes (hd : SameNode d d') {tid : List UInt8} {target : NodeId}
    {src : SocketAddr} {token : List UInt8} (htoken : Issued sha1 d log (d.wireDst src) token) :
    Justified sha1 d log (d'.replyNodes tid target src token) := by
  refine fun table => ⟨⟨fun id hid => ?_, fun t ht => ?_⟩, trivial⟩
  · rw [DhtNode.nodesResponse] at hid
    split at hid <;> exact (Option.some.inj hid).symm.trans hd.ourId
  · rw [DhtNode.nodesResponse] at ht
    split at ht <;> exact Option.some.inj ht ▸ htoken

/-- **The handler of a packet is justified** by the packet. -/
theorem justified_handleIncoming (hd : SameNode d d') {data : List UInt8} {src : SocketAddr}
    (hmem : .received data src ∈ log) : Justified sha1 d log (d'.handleIncoming sha1 data src) := by
  rw [DhtNode.handleIncoming]
  split
  · rename_i query hquery
    have hplain (tid : List UInt8) :
        Honest sha1 d log (d.wireDst src) (.nodes tid d'.ourId [] [] none) :=
      ⟨fun id hid => (Option.some.inj hid).symm.trans hd.ourId, fun token ht => by cases ht⟩
    cases query with
    | ping tid id => exact ⟨hplain tid, trivial⟩
    | findNode tid id target =>
      exact justified_replyNodes hd ⟨data, src, _, id, hmem, hquery, rfl, rfl, hd.makeToken id⟩
    | getPeers tid id infoHash =>
      have hissued : Issued sha1 d log (d.wireDst src) (d'.makeToken sha1 id) :=
        ⟨data, src, _, id, hmem, hquery, rfl, rfl, hd.makeToken id⟩
      intro peers
      dsimp only
      split
      · exact justified_replyNodes hd hissued
      · refine ⟨⟨fun id' hid => (Option.some.inj hid).symm.trans hd.ourId, fun token ht => ?_⟩,
          trivial⟩
        exact Option.some.inj ht ▸ hissued
    | announcePeer tid id infoHash port impliedPort token =>
      show Justified sha1 d log (if _ then _ else _)
      split
      · exact ⟨⟨fun _ hid => (nomatch hid), fun _ ht => (nomatch ht)⟩, trivial⟩
      · rename_i htoken
        rw [not_not.mp htoken, hd.makeToken id] at hquery
        exact ⟨⟨data, src, tid, id, port, impliedPort, hmem, hquery, rfl⟩, hplain tid, trivial⟩
  · trivial

/-! ## Steps -/

theorem Sound.receive (h : Sound sha1 d s) (data : List UInt8) (src : SocketAddr) :
    Sound sha1 d (s.receive sha1 data src) := by
  rw [System.receive]
  split
  · split
    · exact h.keep ⟨rfl, rfl, rfl⟩ rfl rfl
    · exact h
  · split
    · refine h.extend h.same rfl (fun t ht => ?_) (fun _ _ he => by cases he)
        (fun _ _ he => by cases he)
      rcases List.mem_append.mp ht with ht | ht
      · exact (h.tasks t ht).more _
      · rw [List.mem_singleton.mp ht]
        exact justified_handleIncoming h.same (List.mem_append_right _ (List.mem_singleton.mpr rfl))
    · exact h

theorem Sound.act (h : Sound sha1 d s) {i : Nat} {t : Task} (ht : s.tasks[i]? = some t) :
    Sound sha1 d { (s.perform t).1 with tasks := s.tasks.set i (s.perform t).2 } := by
  have hjust := h.tasks t (List.mem_of_getElem? ht)
  have htasks {next : Task} (hnext : Justified sha1 d s.log next) :
      ∀ u ∈ s.tasks.set i next, Justified sha1 d s.log u := by
    intro u hu
    rcases List.mem_or_eq_of_mem_set hu with hu | rfl
    · exact h.tasks u hu
    · exact hnext
  have hmore {next : Task} {e : Event} (hnext : Justified sha1 d s.log next) :
      ∀ u ∈ s.tasks.set i next, Justified sha1 d (s.log ++ [e]) u :=
    fun u hu => (htasks hnext u hu).more [e]
  cases t with
  | addNode entry next =>
    exact ⟨⟨h.same.ourId, h.same.tokenSalt, h.same.v6Socket⟩, htasks hjust, h.stored, h.sent⟩
  | readPeers infoHash next => exact ⟨h.same, htasks (hjust _), h.stored, h.sent⟩
  | readTable next => exact ⟨h.same, htasks (hjust _), h.stored, h.sent⟩
  | addKnownPeer infoHash addr next =>
    refine h.extend ⟨h.same.ourId, h.same.tokenSalt, h.same.v6Socket⟩ rfl (hmore hjust.2)
      (fun _ _ he => ?_) (fun _ _ he => by cases he)
    cases he
    exact hjust.1
  | send dst m next =>
    refine h.extend h.same rfl (hmore hjust.2) (fun _ _ he => by cases he) (fun _ _ he => ?_)
    cases he
    rw [h.same.wireDst]
    exact hjust.1
  | done => exact ⟨h.same, htasks trivial, h.stored, h.sent⟩

/-- **One step keeps the history sound.** -/
theorem Sound.step (h : Sound sha1 d s) {m : Move} (hstep : s.step sha1 m = some s') :
    Sound sha1 d s' := by
  cases m with
  | packet data src => exact Option.some.inj hstep ▸ h.receive _ _
  | act i =>
    rw [System.step] at hstep
    split at hstep
    · cases hstep
    · obtain rfl := Option.some.inj hstep
      exact ⟨h.same, fun t ht => h.tasks t (List.mem_of_mem_eraseIdx ht), h.stored, h.sent⟩
    · rename_i task _ htask
      exact Option.some.inj hstep ▸ h.act htask
  | ask tid q dst =>
    obtain rfl := Option.some.inj hstep
    refine h.extend ⟨h.same.ourId, h.same.tokenSalt, h.same.v6Socket⟩ rfl
      (fun t ht => (h.tasks t ht).more _) (fun _ _ he => by cases he) (fun _ _ he => ?_)
    cases he
    exact ⟨fun id hid => (Option.some.inj hid).symm.trans h.same.ourId, fun token ht => by cases ht⟩
  | giveUp key =>
    obtain rfl := Option.some.inj hstep
    exact h.keep ⟨rfl, rfl, rfl⟩ rfl rfl
  | collect i =>
    rw [System.step] at hstep
    split at hstep
    · cases hstep
    · obtain rfl := Option.some.inj hstep
      exact h.keep ⟨rfl, rfl, rfl⟩ rfl rfl
  | learn entry =>
    obtain rfl := Option.some.inj hstep
    exact h.keep ⟨rfl, rfl, rfl⟩ rfl rfl
  | forget id =>
    obtain rfl := Option.some.inj hstep
    exact h.keep ⟨rfl, rfl, rfl⟩ rfl rfl
  | publish infoHash addr =>
    obtain rfl := Option.some.inj hstep
    exact h.keep ⟨rfl, rfl, rfl⟩ rfl rfl

theorem sound_start (d : DhtNode) : Sound sha1 d (System.start d) := by
  refine ⟨⟨rfl, rfl, rfl⟩, fun t ht => ?_, fun infoHash addr he => ?_, fun dst m he => ?_⟩
  · cases ht
  · cases he
  · cases he

/-- **Every run keeps it sound.** -/
theorem sound_run {moves : List Move}
    (hrun : StepRun.run (System.step sha1) (System.start d) moves = some s) : Sound sha1 d s :=
  StepRun.run_invariant (P := fun _ _ => True) (fun _ _ _ hs _ hstep => hs.step hstep)
    (sound_start d) (StepRun.along_of_forall fun _ _ => trivial) hrun

/-- A node of its own, without peers and nodes. -/
def freshNode : DhtNode where
  ourId := ⟨List.replicate 20 1, rfl⟩
  table := .new ⟨List.replicate 20 1, rfl⟩
  tokenSalt := ⟨List.replicate 8 0, rfl⟩
  knownPeers := { map := [], order := [] }
  pending := []
  enableIpv6 := false
  v6Socket := false

/-- `10.0.0.1:6881`. -/
def asker : SocketAddr := .v4 ⟨[10, 0, 0, 1], rfl⟩ 6881

/-- `10.0.0.2:6881`. -/
def stranger : SocketAddr := .v4 ⟨[10, 0, 0, 2], rfl⟩ 6881

/-- One address asks for peers, and another announces itself with the token of the reply. -/
def foreignToken : List Move :=
  let tid : Octets 2 := ⟨[97, 97], rfl⟩
  let token := freshNode.makeToken Sha1.digest zeroId
  [.packet (encodeGetPeers tid zeroId zeroId) asker, .act 0, .act 0, .act 0, .act 0, .act 0,
    .packet (encodeAnnouncePeer tid zeroId zeroId 6881 token false) stranger, .act 0, .act 0]

/-- A token has been sent to the IP of an address. -/
def Event.issuesTo (addr : SocketAddr) : Event → Bool
  | .sent dst m => m.token.isSome && decide (withPort dst 0 = withPort addr 0)
  | _ => false

theorem foreignToken_run :
    ∃ s, StepRun.run (System.step Sha1.digest) (System.start freshNode) foreignToken = some s ∧
      .stored zeroId stranger ∈ s.log ∧ s.log.any (Event.issuesTo stranger) = false := by
  have hlog : ((StepRun.run (System.step Sha1.digest) (System.start freshNode) foreignToken).map
      fun s => decide (.stored zeroId stranger ∈ s.log) && !s.log.any (Event.issuesTo stranger)) =
        some true := by
    decide +kernel
  obtain ⟨s, hrun, h⟩ := Option.map_eq_some_iff.mp hlog
  obtain ⟨hstored, hissued⟩ := Bool.and_eq_true_iff.mp h
  exact ⟨s, hrun, of_decide_eq_true hstored, Bool.not_eq_true' _ ▸ hissued⟩

end XferRust.Dht
