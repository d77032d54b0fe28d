import XferRust.Utp.Connection

/-! # What a call cannot do to the byte stream

Most of a connection is machinery for retransmission and congestion control.  None of it
touches the fields the byte stream depends on, and all it sends are packets of the send queue
and control packets.  `Quiet s t` says so about a call that leads from `s` to `t`; it is
transitive, and every function of the connection is quiet but those that take bytes from the
application (`write`), cut them into packets (`flushPending`), take a number for FIN
(`flushFin`), or receive (`onData`, `onFin` and the two handshake assignments of
`handleParsed`).
-/
namespace XferRust.Utp
open UtpConnection

/-- The fields the outgoing byte stream depends on. -/
structure SendView where
  seq : UInt16
  pendingSend : List UInt8
  finSent : Bool
  finPending : Bool
  finSeq : UInt16

/-- The fields the incoming byte stream depends on. -/
structure RecvView where
  ack : UInt16
  recvOut : List UInt8
  recvReorder : SortedMap UInt16 InPacket
  eof : Bool

namespace UtpConnection

def sendView (s : UtpConnection) : SendView :=
  ⟨s.seq, s.pendingSend, s.finSent, s.finPending, s.finSeq⟩

def recvView (s : UtpConnection) : RecvView :=
  ⟨s.ack, s.recvOut, s.recvReorder, s.eof⟩

end UtpConnection

/-- Datagram `q` parses to a packet of type `t` with sequence number `seq` and payload
`payload`. -/
def Carries (q : List UInt8) (t : UInt8) (seq : UInt16) (payload : List UInt8) : Prop :=
  ∃ hdr exts off, parsePacket q = some (hdr, exts, off) ∧ hdr.type_ = t ∧ hdr.seqNr = seq ∧
    q.drop off = payload

variable {t : UInt8} {s : UtpConnection}

/-- A datagram carries what the parser reads off it. -/
theorem Carries.parsed {q : List UInt8} {seq : UInt16} {payload : List UInt8}
    (h : Carries q t seq payload) {hdr : PacketHeader} {exts : List Extension} {off : Nat}
    (hp : parsePacket q = some (hdr, exts, off)) :
    hdr.type_ = t ∧ hdr.seqNr = seq ∧ q.drop off = payload := by
  obtain ⟨hdr', exts', off', hp', htype, hseq, hpay⟩ := h
  obtain ⟨rfl, hrest⟩ := Prod.mk.inj (Option.some.inj (hp.symm.trans hp'))
  obtain ⟨-, rfl⟩ := Prod.mk.inj hrest
  exact ⟨htype, hseq, hpay⟩

theorem carries_dataPacket (s : UtpConnection) (env : Env) (seq : UInt16)
    (payload : List UInt8) : Carries (s.dataPacket env seq payload) stData seq payload :=
  by
  have ht : stData &&& 0x0F = stData := by decide
  exact ⟨_, _, _, parsePacket_plain ⟨ht, rfl⟩ rfl payload, rfl, rfl, rfl⟩

/-- A control packet parses back to its header, whatever SACK bitmap it carries. -/
theorem parsePacket_controlPacket (s : UtpConnection) (ht : t &&& 0x0F = t) (env : Env)
    (n : UInt16) :
    ∃ exts off, parsePacket (s.controlPacket t env n) = some (s.controlHeader t env n, exts, off) ∧
      (s.controlPacket t env n).drop off = [] := by
  have hw : (s.controlHeader t env n).WellFormed := ⟨ht, rfl⟩
  unfold controlPacket
  by_cases he : s.recvReorder.isEmpty = true
  · have hx : (s.controlHeader t env n).extension = extNone := if_pos he
    rw [if_pos he]
    exact ⟨_, _, parsePacket_plain hw hx [], rfl⟩
  · have hx : (s.controlHeader t env n).extension = extSack := if_neg he
    rw [if_neg he]
    exact ⟨_, _, parsePacket_sack hw hx s.sackBits, rfl⟩

/-- A packet that a connection in state `s` sends without using up a sequence number. -/
inductive Emitted (s : UtpConnection) (q : List UInt8) : Prop
  | data (op : OutPacket) (hop : op ∈ s.sendQueue) (hq : Carries q stData op.seq op.payload)
  | state (hq : Carries q stState s.seq [])
  | fin (hfin : s.finSent = true) (hq : Carries q stFin s.finSeq [])
  | syn (hq : Carries q stSyn s.synSeq [])

/-- A call that sends nothing new: the outgoing stream is as before, and what is sent or kept
for retransmission was already in the send queue. -/
structure SendQuiet (s t : UtpConnection) : Prop where
  send : t.sendView = s.sendView
  synSeq : t.synSeq = s.synSeq
  queue : ∀ op ∈ t.sendQueue, ∃ op' ∈ s.sendQueue, op'.seq = op.seq ∧ op'.payload = op.payload
  length : t.sendQueue.length ≤ s.sendQueue.length
  outbox : ∀ q ∈ t.outbox, q ∈ s.outbox ∨ Emitted s q

/-- **A quiet call**: nothing new is sent, nothing is received, and the state is as before or
closed. -/
structure Quiet (s t : UtpConnection) : Prop extends SendQuiet s t where
  recv : t.recvView = s.recvView
  state : t.state = s.state ∨ t.state = .closed

namespace SendQuiet

variable {s t u : UtpConnection}

theorem of_eq (hs : t.sendView = s.sendView) (hy : t.synSeq = s.synSeq)
    (hq : t.sendQueue = s.sendQueue) (ho : t.outbox = s.outbox) : SendQuiet s t where
  send := hs
  synSeq := hy
  queue op hop := ⟨op, hq ▸ hop, rfl, rfl⟩
  length := Nat.le_of_eq (congrArg List.length hq)
  outbox _ hq := .inl (ho ▸ hq)

theorem seq (h : SendQuiet s t) : t.seq = s.seq := congrArg SendView.seq h.send
theorem pendingSend (h : SendQuiet s t) : t.pendingSend = s.pendingSend :=
  congrArg SendView.pendingSend h.send
theorem finSent (h : SendQuiet s t) : t.finSent = s.finSent := congrArg SendView.finSent h.send
theorem finPending (h : SendQuiet s t) : t.finPending = s.finPending :=
  congrArg SendView.finPending h.send
theorem finSeq (h : SendQuiet s t) : t.finSeq = s.finSeq := congrArg SendView.finSeq h.send

/-- What a later state emits quietly, the earlier one could have. -/
theorem emitted (h : SendQuiet s t) {q : List UInt8} (hq : Emitted t q) : Emitted s q := by
  cases hq with
  | data op hop hc =>
    obtain ⟨op', hop', hseq, hpay⟩ := h.queue op hop
    exact .data op' hop' (by rw [hseq, hpay]; exact hc)
  | state hc => exact .state (h.seq ▸ hc)
  | fin hfin hc => exact .fin (h.finSent ▸ hfin) (h.finSeq ▸ hc)
  | syn hc => exact .syn (h.synSeq ▸ hc)

theorem trans (h : SendQuiet s t) (h' : SendQuiet t u) : SendQuiet s u where
  send := h'.send.trans h.send
  synSeq := h'.synSeq.trans h.synSeq
  queue op hop := by
    obtain ⟨op', hop', hseq, hpay⟩ := h'.queue op hop
    obtain ⟨op'', hop'', hseq', hpay'⟩ := h.queue op' hop'
    exact ⟨op'', hop'', hseq'.trans hseq, hpay'.trans hpay⟩
  length := Nat.le_trans h'.length h.length
  outbox q hq := by
    rcases h'.outbox q hq with hq | hq
    · exact h.outbox q hq
    · exact .inr (h.emitted hq)

end SendQuiet

namespace Quiet

variable {s t u : UtpConnection}

/-- A call that changes none of the fields `Quiet` speaks of. -/
theorem of_eq (hs : t.sendView = s.sendView) (hr : t.recvView = s.recvView)
    (hy : t.synSeq = s.synSeq) (hst : t.state = s.state) (hq : t.sendQueue = s.sendQueue)
    (ho : t.outbox = s.outbox) : Quiet s t where
  toSendQuiet := .of_eq hs hy hq ho
  recv := hr
  state := .inl hst

theorem refl (s : UtpConnection) : Quiet s s := of_eq rfl rfl rfl rfl rfl rfl

theorem ack (h : Quiet s t) : t.ack = s.ack := congrArg RecvView.ack h.recv
theorem recvOut (h : Quiet s t) : t.recvOut = s.recvOut := congrArg RecvView.recvOut h.recv
theorem recvReorder (h : Quiet s t) : t.recvReorder = s.recvReorder :=
  congrArg RecvView.recvReorder h.recv
theorem eof (h : Quiet s t) : t.eof = s.eof := congrArg RecvView.eof h.recv

theorem trans (h : Quiet s t) (h' : Quiet t u) : Quiet s u where
  toSendQuiet := h.toSendQuiet.trans h'.toSendQuiet
  recv := h'.recv.trans h.recv
  state := by
    rcases h'.state with he | he
    · exact he ▸ h.state
    · exact .inr he

/-- A call that only appends one packet to the outbox. -/
theorem of_emit (hs : t.sendView = s.sendView) (hr : t.recvView = s.recvView)
    (hy : t.synSeq = s.synSeq) (hst : t.state = s.state) (hq : t.sendQueue = s.sendQueue)
    {q : List UInt8} (ho : t.outbox = s.outbox ++ [q]) (he : Emitted s q) : Quiet s t where
  send := hs
  recv := hr
  synSeq := hy
  state := .inl hst
  queue op hop := ⟨op, hq ▸ hop, rfl, rfl⟩
  length := Nat.le_of_eq (congrArg List.length hq)
  outbox q' hq' := by
    rw [ho] at hq'
    rcases List.mem_append.mp hq' with hq' | hq'
    · exact .inl hq'
    · exact .inr (List.mem_singleton.mp hq' ▸ he)

/-- A quiet call that closes the connection at the end. -/
theorem closed (h : Quiet s t) (hs : u.sendView = t.sendView) (hr : u.recvView = t.recvView)
    (hy : u.synSeq = t.synSeq) (hst : u.state = .closed) (hq : u.sendQueue = t.sendQueue)
    (ho : u.outbox = t.outbox) : Quiet s u :=
  h.trans { toSendQuiet := .of_eq hs hy hq ho, recv := hr, state := .inr hst }

end Quiet

/-! ## Timers and congestion control -/

theorem quiet_updateRtt (s : UtpConnection) (d : Nat) : Quiet s (s.updateRtt d) := by
  unfold updateRtt
  split
  · exact .refl s
  · by_cases h : s.rtt = 0
    · apply Quiet.of_eq <;> simp only [if_pos h, sendView, recvView]
    · apply Quiet.of_eq <;> simp only [if_neg h, sendView, recvView]

theorem quiet_updateDelay (s : UtpConnection) (d : UInt32) (env : Env) :
    Quiet s (s.updateDelay d env) := by
  unfold updateDelay
  dsimp only
  split <;> exact .of_eq rfl rfl rfl rfl rfl rfl

theorem quiet_updateWindow (s : UtpConnection) (n : UInt32) (env : Env) :
    Quiet s (s.updateWindow n env) := by
  apply Quiet.of_eq <;> simp only [updateWindow, sendView, recvView]

theorem quiet_creditFreed (s : UtpConnection) (n : UInt32) (sample : Option Nat) (env : Env) :
    Quiet s (s.creditFreed n sample env) := by
  have hrel : Quiet s (s.releaseWindow n) := .of_eq rfl rfl rfl rfl rfl rfl
  have hrtt : Quiet s (sample.elim (s.releaseWindow n) (s.releaseWindow n).updateRtt) := by
    cases sample with
    | none => exact hrel
    | some rtt => exact hrel.trans (quiet_updateRtt _ rtt)
  exact (hrtt.trans (quiet_updateWindow _ n env)).trans (.of_eq rfl rfl rfl rfl rfl rfl)

theorem quiet_noteDupAck (s : UtpConnection) (n : UInt16) : Quiet s (s.noteDupAck n) := by
  unfold noteDupAck
  split <;> exact .of_eq rfl rfl rfl rfl rfl rfl

theorem quiet_onArrival (s : UtpConnection) (hdr : PacketHeader) (env : Env) :
    Quiet s (s.onArrival hdr env) := by
  unfold onArrival
  dsimp only
  split
  · exact .of_eq rfl rfl rfl rfl rfl rfl
  · refine Quiet.trans ?_ (quiet_updateDelay _ _ _)
    exact .of_eq rfl rfl rfl rfl rfl rfl

theorem quiet_finishCloseIfIdle (s : UtpConnection) : Quiet s s.finishCloseIfIdle := by
  unfold finishCloseIfIdle
  split
  · exact (Quiet.refl s).closed rfl rfl rfl rfl rfl rfl
  · exact .refl s

theorem quiet_giveUp (s : UtpConnection) : Quiet s s.giveUp :=
  (Quiet.refl s).closed rfl rfl rfl rfl rfl rfl

/-! ## Sending what is already numbered -/

theorem carries_controlPacket (s : UtpConnection) (ht : t &&& 0x0F = t) (env : Env) (n : UInt16) :
    Carries (s.controlPacket t env n) t
      (if t = stSyn then s.synSeq else if t = stFin then s.finSeq else s.seq) [] := by
  obtain ⟨exts, off, hp, hd⟩ := parsePacket_controlPacket s ht env n
  exact ⟨_, exts, off, hp, rfl, rfl, hd⟩

theorem quiet_queueControl_state (s : UtpConnection) (env : Env) (n : UInt16) :
    Quiet s (s.queueControl stState env n) :=
  .of_emit rfl rfl rfl rfl rfl rfl (.state (carries_controlPacket s rfl env n))

theorem quiet_queueControl_syn (s : UtpConnection) (env : Env) (n : UInt16) :
    Quiet s (s.queueControl stSyn env n) :=
  .of_emit rfl rfl rfl rfl rfl rfl (.syn (carries_controlPacket s rfl env n))

theorem quiet_queueControl_fin (h : s.finSent = true) (env : Env) (n : UInt16) :
    Quiet s (s.queueControl stFin env n) :=
  .of_emit rfl rfl rfl rfl rfl rfl (.fin h (carries_controlPacket s rfl env n))

theorem quiet_sendAck (s : UtpConnection) (env : Env) : Quiet s (s.sendAck env) :=
  (quiet_queueControl_state s env 0).trans (.of_eq rfl rfl rfl rfl rfl rfl)

theorem quiet_retransmitPacketClone {p : OutPacket} (hp : p ∈ s.sendQueue) (env : Env) :
    Quiet s (s.retransmitPacketClone p env) :=
  .of_emit rfl rfl rfl rfl rfl rfl (.data p hp (carries_dataPacket s env p.seq p.payload))

theorem quiet_retransmitUnacked (s : UtpConnection) (env : Env) :
    Quiet s (s.retransmitUnacked env) where
  send := rfl
  recv := rfl
  synSeq := rfl
  state := .inl rfl
  queue op hop := by
    obtain ⟨op', hop', he⟩ := List.mem_map.mp hop
    exact ⟨op', hop', he ▸ ⟨rfl, rfl⟩⟩
  length := Nat.le_of_eq (List.length_map _)
  outbox q hq := by
    rcases List.mem_append.mp hq with hq | hq
    · exact .inl hq
    · obtain ⟨op, hop, rfl⟩ := List.mem_map.mp hq
      exact .inr (.data op hop (carries_dataPacket s env op.seq op.payload))

/-! ## Acknowledgements -/

/-- The loop over the send queue leaves a suffix of it. -/
theorem dropAcked_suffix (finSent : Bool) (finSeq ackNr : UInt16) (now : Nat) (acc : Acked) :
    (dropAcked finSent finSeq ackNr now acc).queue <:+ acc.queue := by
  have key : ∀ (ps : List OutPacket) (freed : UInt32) (sample : Option Nat) (fin : Bool),
      (dropAcked.go finSent finSeq ackNr now ps freed sample fin).queue <:+ ps := by
    intro ps
    induction ps with
    | nil => intro freed sample fin; exact List.suffix_refl []
    | cons p ps ih =>
      intro freed sample fin
      rw [dropAcked.go]
      split
      · exact (ih _ _ _).trans (List.suffix_cons p ps)
      · exact List.suffix_refl _
  exact key _ _ _ _

theorem quiet_onAckQueue (s : UtpConnection) (ackNr : UInt16) (env : Env) :
    Quiet s (s.onAckQueue ackNr env) := by
  have hsuf :=
    dropAcked_suffix s.finSent s.finSeq ackNr env.now ⟨s.sendQueue, 0, none, s.finAcked⟩
  unfold onAckQueue
  generalize dropAcked s.finSent s.finSeq ackNr env.now ⟨s.sendQueue, 0, none, s.finAcked⟩ = r
    at hsuf
  have hdrop : Quiet s { s with sendQueue := r.queue, finAcked := r.finAcked } := {
    send := rfl
    recv := rfl
    synSeq := rfl
    state := .inl rfl
    queue := fun op hop => ⟨op, hsuf.subset hop, rfl, rfl⟩
    length := hsuf.length_le
    outbox := fun _ hq => .inl hq }
  dsimp only
  split
  · exact hdrop.trans (quiet_creditFreed _ _ _ _)
  · exact hdrop

theorem quiet_onAckFin (s : UtpConnection) (ackNr : UInt16) : Quiet s (s.onAckFin ackNr) := by
  unfold onAckFin
  split
  · exact .of_eq rfl rfl rfl rfl rfl rfl
  · exact .refl s

theorem quiet_onAckSack (s : UtpConnection) (ackNr : UInt16) (bits : UInt32) (env : Env) :
    Quiet s (s.onAckSack ackNr bits env) := by
  unfold onAckSack
  split
  · exact .refl s
  · rename_i front rest hq
    have hmem : front ∈ s.sendQueue := hq ▸ List.mem_cons_self
    split
    · exact (quiet_retransmitPacketClone hmem env).trans (.of_eq rfl rfl rfl rfl rfl rfl)
    · exact .refl s

theorem mem_markRetransmit {target : UInt16} {now : Nat} {ps : List OutPacket} {op : OutPacket}
    (h : op ∈ markRetransmit target now ps) :
    ∃ op' ∈ ps, op'.seq = op.seq ∧ op'.payload = op.payload := by
  induction ps with
  | nil => cases h
  | cons p ps ih =>
    rw [markRetransmit] at h
    split at h
    · rcases List.mem_cons.mp h with rfl | h
      · exact ⟨p, List.mem_cons_self, rfl, rfl⟩
      · exact ⟨op, List.mem_cons_of_mem p h, rfl, rfl⟩
    · rcases List.mem_cons.mp h with rfl | h
      · exact ⟨op, List.mem_cons_self, rfl, rfl⟩
      · obtain ⟨op', hop', he⟩ := ih h
        exact ⟨op', List.mem_cons_of_mem p hop', he⟩

@[simp] theorem length_markRetransmit (target : UInt16) (now : Nat) (ps : List OutPacket) :
    (markRetransmit target now ps).length = ps.length := by
  induction ps with
  | nil => rfl
  | cons p ps ih =>
    rw [markRetransmit]
    split
    · rfl
    · rw [List.length_cons, List.length_cons, ih]

theorem quiet_fastRetransmit {p : OutPacket} (hp : p ∈ s.sendQueue) (target : UInt16) (env : Env) :
    Quiet s (s.fastRetransmit p target env) :=
  (quiet_retransmitPacketClone hp env).trans {
    send := rfl
    recv := rfl
    synSeq := rfl
    state := .inl rfl
    queue := fun _ hop => mem_markRetransmit hop
    length := Nat.le_of_eq (length_markRetransmit _ _ _)
    outbox := fun _ hq => .inl hq }

theorem quiet_recoverTarget (s : UtpConnection) (target : UInt16) (env : Env) :
    Quiet s (s.recoverTarget target env) := by
  unfold recoverTarget
  split
  · exact .refl s
  · rename_i p hfind
    split
    · exact .refl s
    · exact quiet_fastRetransmit (List.mem_of_find?_eq_some hfind) _ env

theorem quiet_onAckDup (s : UtpConnection) (ackNr : UInt16) (env : Env) :
    Quiet s (s.onAckDup ackNr env) := by
  unfold onAckDup
  split
  · exact (quiet_recoverTarget s _ env).trans (.of_eq rfl rfl rfl rfl rfl rfl)
  · exact .refl s

/-- **Acknowledgements are quiet**, whatever they acknowledge. -/
theorem quiet_onAck (s : UtpConnection) (ackNr : UInt16) (bits : UInt32) (env : Env) :
    Quiet s (s.onAck ackNr bits env) := by
  unfold onAck
  split
  · exact .refl s
  · have h := (quiet_noteDupAck s ackNr).trans (quiet_onAckQueue _ ackNr env)
    have h := (h.trans (quiet_onAckFin _ ackNr)).trans (quiet_onAckSack _ ackNr bits env)
    have h := h.trans (quiet_onAckDup _ ackNr env)
    dsimp only
    split
    · exact h.trans (quiet_finishCloseIfIdle _)
    · exact h

theorem quiet_synTimeout (s : UtpConnection) (env : Env) : Quiet s (s.synTimeout env) := by
  have h : Quiet s { s with synAttempts := s.synAttempts + 1, timeout := backoff s.timeout } :=
    .of_eq rfl rfl rfl rfl rfl rfl
  unfold synTimeout
  dsimp only
  split
  · exact h.trans (quiet_giveUp _)
  · exact (h.trans (quiet_queueControl_syn _ env 0)).trans (.of_eq rfl rfl rfl rfl rfl rfl)

/-- **Timeouts are quiet.** -/
theorem quiet_handleTimeout (s : UtpConnection) (env : Env) : Quiet s (s.handleTimeout env) := by
  unfold handleTimeout
  split
  · exact quiet_synTimeout s env
  · have h : Quiet s { s with
        consecutiveTimeouts := s.consecutiveTimeouts + 1, timeout := backoff s.timeout } :=
      .of_eq rfl rfl rfl rfl rfl rfl
    dsimp only
    split
    · exact h.trans (quiet_giveUp _)
    · have h' : Quiet s (retransmitUnacked (collapseWindow { s with
          consecutiveTimeouts := s.consecutiveTimeouts + 1
          timeout := backoff s.timeout } env) env) := by
        refine Quiet.trans ?_ (quiet_retransmitUnacked _ env)
        exact h.trans (.of_eq rfl rfl rfl rfl rfl rfl)
      split
      · rename_i hfin
        exact h'.trans (quiet_queueControl_fin hfin.1 env 0)
      · exact h'

end XferRust.Utp
