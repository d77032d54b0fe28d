import XferRust.Utp.WindowAccounts

/-! # A window that outgrows its 32 bits

Nothing bounds the congestion window from above.  A peer that acknowledges at once whatever it is
sent, without any delay, lets it grow with every acknowledgement, by the share of the window that
was in flight.  An application that keeps writing brings the window to its last value below
`2 ^ 32`, and the next acknowledgement to zero (`window_wraps`).

The run is built round by round: `n` packets of full size are written and sent, and one
acknowledgement takes them all (`Ready.fill`, `Ready.ackAll`).
-/
namespace XferRust.Utp
open UtpConnection Tiling StepRun SerialNumber

/-! ## Connections at rest -/

/-- What a packet of full size in each direction needs of a connection, beside its window. -/
structure AtRest (s : UtpConnection) : Prop where
  state : s.state = .connected
  error : s.error = false
  finPending : s.finPending = false
  finSent : s.finSent = false
  pending : s.pendingSend = []
  peer : s.peerWnd = 0xFFFFFFFF
  arrived : s.lastRecv = some 0

/-- A send book with `n` packets of full size in flight, and a window of `w`. -/
structure SendAccount.Full (a : SendAccount) (w n : Nat) : Prop where
  window : a.maxWindow.toNat = w
  size : a.packetSize = defaultPacketSize
  inFlight : a.curWindow.toNat = 1400 * n
  length : a.queue.length = n
  full : ∀ p ∈ a.queue, p.size = defaultPacketSize
  numbered : EndsBefore a.seq (a.queue.map OutPacket.seq)

/-- A connection at rest with such a book. -/
structure Ready (s : UtpConnection) (w n : Nat) : Prop where
  rest : AtRest s
  book : s.sendAccount.Full w n

variable {s : UtpConnection} {n w : Nat}

/-- A call that touches neither book, nor what makes a connection rest. -/
theorem Ready.neutral {t : UtpConnection} (h : Ready s w n) (hn : Neutral s t) (hi : AtRest t) :
    Ready t w n :=
  ⟨hi, by rw [hn.send]; exact h.book⟩

/-! ## Sending -/

theorem Ready.write (h : Ready s w n) :
    (s.write fullPayload).1 = { s with pendingSend := fullPayload, wantWrite := false } := by
  have hopen : ¬ (s.state = .closed ∨ s.error = true) := by
    rw [h.rest.state, h.rest.error]
    rintro (h | h) <;> cases h
  have hroom : min (maxPendingSend - s.pendingSend.length) fullPayload.length = 1400 := by
    rw [h.rest.pending, length_fullPayload]
    decide
  have hlt : decide (1400 < fullPayload.length) = false := by
    rw [length_fullPayload]
    decide
  unfold UtpConnection.write
  dsimp only
  rw [if_neg hopen, hroom, hlt, h.rest.pending, List.nil_append,
    List.take_of_length_le (Nat.le_of_eq length_fullPayload)]

/-- The packet that a full payload is cut into. -/
theorem Ready.cutPacket (h : Ready s w n) (env : Env) (hroom : 1400 * (n + 1) < 4294967296) :
    Ready ({ s with pendingSend := fullPayload, wantWrite := false }.cutPacket env) w (n + 1) := by
  have hsize : s.packetSize = defaultPacketSize := h.book.size
  have hin : s.curWindow.toNat = 1400 * n := h.book.inFlight
  have htake : fullPayload.take s.packetSize.toNat = fullPayload := by
    rw [hsize]
    exact List.take_of_length_le (Nat.le_of_eq length_fullPayload)
  have hdrop : fullPayload.drop s.packetSize.toNat = [] := by
    rw [hsize]
    exact List.drop_eq_nil_of_le (Nat.le_of_eq length_fullPayload)
  have hpacket : UInt32.ofNat (fullPayload.take s.packetSize.toNat).length = defaultPacketSize := by
    rw [htake, length_fullPayload]
    rfl
  refine ⟨⟨h.rest.state, h.rest.error, h.rest.finPending, h.rest.finSent, hdrop, h.rest.peer,
    h.rest.arrived⟩, h.book.window, hsize, ?_, ?_, fun p hp => ?_, ?_⟩
  · show (s.curWindow + UInt32.ofNat (fullPayload.take s.packetSize.toNat).length).toNat = _
    have hone : defaultPacketSize.toNat = 1400 := by decide
    rw [hpacket, UInt32.toNat_add, hin, hone]
    omega
  · show (s.sendQueue ++ [_]).length = n + 1
    rw [List.length_append, List.length_singleton]
    exact congrArg (· + 1) h.book.length
  · rcases List.mem_append.mp hp with hp | hp
    · exact h.book.full p hp
    · rw [List.mem_singleton.mp hp]
      exact hpacket
  · show EndsBefore (s.seq + 1) ((s.sendQueue ++ [_]).map OutPacket.seq)
    rw [List.map_append]
    exact EndsBefore.push h.book.numbered

/-- **One packet more in flight.**  A full payload is written, and the tick sends it. -/
theorem Ready.send (h : Ready s w n) (hroom : 1400 * (n + 1) ≤ w) :
    Ready ((s.write fullPayload).1.processTick (envAt 0)) w (n + 1) := by
  rw [h.write]
  have hw : s.maxWindow.toNat = w := h.book.window
  have hlt := s.maxWindow.toNat_lt
  have hcut := h.cutPacket (envAt 0) (by omega)
  generalize hu : { s with pendingSend := fullPayload, wantWrite := false } = u at hcut
  have hstate : u.state = .connected := by rw [← hu]; exact h.rest.state
  have hpend : u.pendingSend = fullPayload := by rw [← hu]
  have hflush : u.flushFin (envAt 0) = (u, false) := by
    have hfin : u.finPending = false := by rw [← hu]; exact h.rest.finPending
    unfold UtpConnection.flushFin
    rw [hfin]
    rfl
  have htimer : u.timerExpired (envAt 0) = false := by
    have harr : u.lastRecv = some 0 := by rw [← hu]; exact h.rest.arrived
    unfold UtpConnection.timerExpired
    rw [hstate, harr]
    simp [envAt]
  have hcan : u.canSendData = true := by
    have hin : u.curWindow.toNat = 1400 * n := by rw [← hu]; exact h.book.inFlight
    have hsize : u.packetSize = defaultPacketSize := by rw [← hu]; exact h.book.size
    have hpeer : u.peerWnd = 0xFFFFFFFF := by rw [← hu]; exact h.rest.peer
    have hmax : u.maxWindow.toNat = w := by rw [← hu]; exact hw
    have hmin : (min u.maxWindow u.peerWnd).toNat = w := by
      have hle : u.maxWindow ≤ u.peerWnd := by
        rw [hpeer, UInt32.le_iff_toNat_le, show (0xFFFFFFFF : UInt32).toNat = 4294967295 from rfl]
        omega
      show (if u.maxWindow ≤ u.peerWnd then u.maxWindow else u.peerWnd).toNat = w
      rw [if_pos hle]
      exact hmax
    have hone : defaultPacketSize.toNat = 1400 := by decide
    unfold UtpConnection.canSendData
    refine decide_eq_true ?_
    rw [UInt32.le_iff_toNat_le, hmin, UInt32.toNat_add, hin, hsize, hone]
    omega
  have hloop : flushPending (envAt 0) u.pendingSend.length u = u.cutPacket (envAt 0) := by
    rw [hpend, length_fullPayload, flushPending_succ, hpend, hcan, if_neg (by decide),
      if_neg (by decide), flushPending_succ]
    have hempty : (u.cutPacket (envAt 0)).pendingSend = [] := hcut.rest.pending
    rw [hempty]
    rfl
  have hprocess : u.processTick (envAt 0) = (u.cutPacket (envAt 0)).tickEnd (envAt 0) := by
    unfold UtpConnection.processTick
    rw [if_neg (by rw [hstate]; decide), hflush]
    dsimp only
    rw [if_neg (by decide), htimer, if_neg (by decide)]
    unfold UtpConnection.tickFlush
    rw [if_pos (.inl hstate), hloop]
  rw [hprocess]
  refine hcut.neutral (neutral_tickEnd _ _) ?_
  unfold UtpConnection.tickEnd
  dsimp only
  split
  · exact ⟨hcut.rest.state, hcut.rest.error, hcut.rest.finPending, hcut.rest.finSent,
      hcut.rest.pending, hcut.rest.peer, hcut.rest.arrived⟩
  · exact ⟨hcut.rest.state, hcut.rest.error, hcut.rest.finPending, hcut.rest.finSent,
      hcut.rest.pending, hcut.rest.peer, hcut.rest.arrived⟩

/-! ## One acknowledgement of everything -/

theorem seqLeq_before {n next : UInt16} {ns : List UInt16} (h : EndsBefore next (n :: ns))
    (hlen : ns.length < 32768) : seqLeq n (next - 1) = true := by
  have hlast : next - 1 = nth n ns.length := by
    have hnext := h.add_length
    rw [UInt16.ofNat_add _ 1] at hnext
    rw [nth, ← hnext]
    grind
  have hdist := toInt_sub n (i := 0) (j := ns.length) (by omega) (by omega)
  rw [nth_zero] at hdist
  unfold seqLeq
  rw [hlast]
  refine decide_eq_true ?_
  rw [Int16.le_iff_toInt_le, hdist, show (0 : Int16).toInt = 0 from rfl]
  omega

/-- An acknowledgement of the last number takes everything off the queue. -/
theorem queue_go_all (finSent : Bool) (finSeq next : UInt16) (now : Nat) {ps : List OutPacket}
    (h : EndsBefore next (ps.map OutPacket.seq)) (hlen : ps.length ≤ 32768) (freed : UInt32)
    (sample : Option Nat) (fin : Bool) :
    (dropAcked.go finSent finSeq (next - 1) now ps freed sample fin).queue = [] := by
  induction ps generalizing freed sample fin with
  | nil => rfl
  | cons p ps ih =>
    have hleq : seqLeq p.seq (next - 1) = true := by
      refine seqLeq_before h ?_
      rw [List.length_map]
      exact Nat.lt_of_succ_le hlen
    rw [dropAcked.go, if_pos hleq]
    exact ih h.2 (Nat.le_of_succ_le hlen) _ _ _

/-- The window of a connection without a queueing delay. -/
theorem newWindow_undelayed {b : Nat} (hbase : s.baseDelay = some b)
    (hsample : s.lastDelaySample = 0) (n : UInt32) (now : Nat) :
    s.newWindow n (envAt now) =
      s.maxWindow.toNat + ledbatGain ccTargetUs s.packetSize n (max s.maxWindow s.packetSize) := by
  have hdelay : (if 0 > b then 0 - b else 0) = 0 := if_neg (Nat.not_lt_zero b)
  unfold newWindow
  rw [hbase, hsample]
  dsimp only
  rw [hdelay]
  rfl

/-- A datagram that acknowledges `ackNr`, from a peer that takes as much as can be said. -/
def ackDatagram (ackNr : UInt16) : Datagram :=
  ⟨encodeHeader (peerHeader stState 0 ackNr 0xFFFFFFFF), by
    rw [length_encodeHeader]
    decide⟩

/-- What the arrival of such a datagram leaves: no delay was measured. -/
theorem AtRest.onArrival (h : AtRest s) (ackNr : UInt16) :
    AtRest (s.onArrival (peerHeader stState 0 ackNr 0xFFFFFFFF) (envAt 0)) ∧
      (s.onArrival (peerHeader stState 0 ackNr 0xFFFFFFFF) (envAt 0)).lastDelaySample = 0 ∧
      ∃ b, (s.onArrival (peerHeader stState 0 ackNr 0xFFFFFFFF) (envAt 0)).baseDelay = some b := by
  have htype : ¬ (peerHeader stState 0 ackNr 0xFFFFFFFF).type_ = stSyn := by
    show ¬ stState = stSyn
    decide
  have hzero : ((envAt 0).micros - (peerHeader stState 0 ackNr 0xFFFFFFFF).timestamp).toNat * 1000 =
      0 := by
    show ((0 : UInt32) - 0).toNat * 1000 = 0
    decide
  unfold UtpConnection.onArrival
  dsimp only
  rw [if_neg htype]
  unfold UtpConnection.updateDelay
  dsimp only
  split
  · exact ⟨⟨h.state, h.error, h.finPending, h.finSent, h.pending, rfl, rfl⟩, hzero, _, rfl⟩
  · rename_i hreset
    refine ⟨⟨h.state, h.error, h.finPending, h.finSent, h.pending, rfl, rfl⟩, hzero, ?_⟩
    cases hb : s.baseDelay with
    | none =>
      rw [hb] at hreset
      exact absurd (Bool.true_or _) hreset
    | some b => exact ⟨b, rfl⟩

/-- The parts of `on_ack` keep a connection at rest. -/
theorem AtRest.onAckQueue (h : AtRest s) (ackNr : UInt16) (env : Env) :
    AtRest (s.onAckQueue ackNr env) := by
  have hrtt : ∀ {t : UtpConnection}, AtRest t → ∀ d, AtRest (t.updateRtt d) := by
    intro t ht d
    unfold UtpConnection.updateRtt
    split
    · exact ht
    · dsimp only
      split <;> exact ⟨ht.state, ht.error, ht.finPending, ht.finSent, ht.pending, ht.peer,
        ht.arrived⟩
  unfold UtpConnection.onAckQueue
  dsimp only
  split
  · unfold UtpConnection.creditFreed
    dsimp only
    generalize dropAcked s.finSent s.finSeq ackNr env.now
      ⟨s.sendQueue, 0, none, s.finAcked⟩ = r
    have hrel : AtRest (UtpConnection.releaseWindow { s with
        sendQueue := r.queue, finAcked := r.finAcked } r.freed) :=
      ⟨h.state, h.error, h.finPending, h.finSent, h.pending, h.peer, h.arrived⟩
    have hcred : AtRest (r.rttSample.elim
        (UtpConnection.releaseWindow { s with
          sendQueue := r.queue, finAcked := r.finAcked } r.freed)
        (UtpConnection.releaseWindow { s with
          sendQueue := r.queue, finAcked := r.finAcked } r.freed).updateRtt) := by
      cases r.rttSample with
      | none => exact hrel
      | some d => exact hrtt hrel d
    exact ⟨hcred.state, hcred.error, hcred.finPending, hcred.finSent, hcred.pending, hcred.peer,
      hcred.arrived⟩
  · exact ⟨h.state, h.error, h.finPending, h.finSent, h.pending, h.peer, h.arrived⟩

/-- **The rest of `on_ack`** has nothing to do once the queue is empty. -/
theorem onAck_of_empty (hi : AtRest s) {ackNr : UInt16} (bits : UInt32) {env : Env}
    (hempty : ((s.noteDupAck ackNr).onAckQueue ackNr env).sendQueue = []) :
    AtRest (s.onAck ackNr bits env) ∧
      (s.onAck ackNr bits env).sendAccount =
        ((s.noteDupAck ackNr).onAckQueue ackNr env).sendAccount := by
  have hnote : AtRest (s.noteDupAck ackNr) := by
    unfold noteDupAck
    split <;> exact ⟨hi.state, hi.error, hi.finPending, hi.finSent, hi.pending, hi.peer, hi.arrived⟩
  have hrest := hnote.onAckQueue ackNr env
  generalize hu : (s.noteDupAck ackNr).onAckQueue ackNr env = u at hempty hrest
  have hfin : u.onAckFin ackNr = u := by
    unfold onAckFin
    rw [hrest.finSent]
    exact if_neg fun h => (by cases h.1)
  have hsack : u.onAckSack ackNr bits env = u := by
    unfold onAckSack
    rw [hempty]
  have hdup : (u.onAckDup ackNr env) = u ∨ u.onAckDup ackNr env = { u with dupAckCount := 0 } := by
    have hrecover : u.recoverTarget (ackNr + 1) env = u := by
      unfold recoverTarget
      rw [hempty]
      rfl
    unfold onAckDup
    rw [hrecover]
    split
    · exact .inr rfl
    · exact .inl rfl
  unfold onAck
  rw [if_neg (by rw [hi.state]; exact fun h => (by cases h.1)), hu]
  dsimp only
  rw [hfin, hsack]
  rcases hdup with hd | hd
  · rw [hd, if_neg (by rw [hrest.finSent]; exact fun h => (by cases h.1))]
    exact ⟨hrest, rfl⟩
  · have hfalse : ({ u with dupAckCount := 0 } : UtpConnection).finSent = false := hrest.finSent
    rw [hd, if_neg (by rw [hfalse]; exact fun h => (by cases h.1))]
    exact ⟨⟨hrest.state, hrest.error, hrest.finPending, hrest.finSent, hrest.pending, hrest.peer,
      hrest.arrived⟩, rfl⟩

theorem beforeAck_state {hdr : PacketHeader} (ht : hdr.type_ = stState) (hst : s.state ≠ .synSent)
    (payload : List UInt8) (env : Env) : s.beforeAck hdr payload env = s.onArrival hdr env := by
  have harr : (s.onArrival hdr env).state ≠ .synSent := by
    rw [state_onArrival]
    exact hst
  unfold beforeAck received onSynAck
  rw [if_pos ht, if_neg harr]

theorem AtRest.sendAck (h : AtRest s) (env : Env) : AtRest (s.sendAck env) :=
  ⟨h.state, h.error, h.finPending, h.finSent, h.pending, h.peer, h.arrived⟩

/-- **The queue part of an acknowledgement of everything.**  The window grows by the share of it
that was in flight, before it is cut to 32 bits. -/
theorem SendAccount.Full.ackAll {b : Nat} (h : s.sendAccount.Full w n)
    (hbase : s.baseDelay = some b) (hsample : s.lastDelaySample = 0) (hpos : 0 < n)
    (hn : n ≤ 32768) (hw : 1400 ≤ w) :
    (s.onAckQueue (s.seq - 1) (envAt 0)).sendAccount =
      ⟨[], 0, s.seq, defaultPacketSize,
        UInt32.ofInt (max ((w : Int) + (1960000 * n / w : Nat)) (1400 : Nat))⟩ := by
  have hone : defaultPacketSize.toNat = 1400 := by decide
  have hsize : s.packetSize = defaultPacketSize := h.size
  have hmax : s.maxWindow.toNat = w := h.window
  have hin : s.curWindow.toNat = 1400 * n := h.inFlight
  have hlt := s.curWindow.toNat_lt
  have hbytes : sizes s.sendQueue = 1400 * n := by
    have hlen : s.sendQueue.length = n := h.length
    have hall : ∀ ps : List OutPacket, (∀ p ∈ ps, p.size = defaultPacketSize) →
        sizes ps = 1400 * ps.length := by
      intro ps hps
      induction ps with
      | nil => rfl
      | cons p ps ih =>
        obtain ⟨hp, hrest⟩ := List.forall_mem_cons.mp hps
        have hcons : sizes (p :: ps) = p.size.toNat + sizes ps := rfl
        rw [hcons, hp, hone, ih hrest, List.length_cons]
        omega
    rw [hall s.sendQueue h.full, hlen]
  have hqueue : (s.acked (s.seq - 1) (envAt 0).now).queue = [] :=
    queue_go_all _ _ _ _ h.numbered (h.length ▸ hn) _ _ _
  have hfreed : (s.acked (s.seq - 1) (envAt 0).now).freed = s.curWindow := by
    obtain ⟨dropped, hq, hfreed⟩ := dropAcked_go_spec s.finSent s.finSeq (s.seq - 1) (envAt 0).now
      s.sendQueue 0 none s.finAcked
    change s.sendQueue = dropped ++ (s.acked (s.seq - 1) (envAt 0).now).queue at hq
    rw [hqueue, List.append_nil] at hq
    rw [← hq, hbytes, UInt32.toNat_zero, Nat.zero_add] at hfreed
    exact UInt32.toNat_inj.mp ((hfreed (hin ▸ hlt)).trans hin.symm)
  have hgain : ledbatGain ccTargetUs defaultPacketSize s.curWindow
      (max s.maxWindow defaultPacketSize) = (1960000 * n / w : Nat) := by
    have hmaxw : (max s.maxWindow defaultPacketSize).toNat = w := by
      show (if s.maxWindow ≤ defaultPacketSize then defaultPacketSize else s.maxWindow).toNat = w
      split
      · rename_i hle
        rw [UInt32.le_iff_toNat_le] at hle
        omega
      · exact hmax
    have htarget : ccTargetUs.toNat = 100000 := by decide
    unfold ledbatGain
    rw [hmaxw, hin, hone, htarget, Nat.mul_assoc, Nat.mul_div_mul_left _ _ (by omega)]
    congr 2
    omega
  -- the queue and the FIN of the acknowledged connection have no part in its window
  have hwindow : ∀ queue fin, (UtpConnection.releaseWindow { s with
      sendQueue := queue, finAcked := fin } s.curWindow).newWindow s.curWindow (envAt 0) =
        (w : Int) + (1960000 * n / w : Nat) := by
    intro queue fin
    have hrel : (UtpConnection.releaseWindow { s with
        sendQueue := queue, finAcked := fin } s.curWindow).packetSize = defaultPacketSize := by
      show (if s.packetSize < defaultPacketSize then defaultPacketSize else s.packetSize) = _
      rw [hsize]
      exact if_neg (UInt32.lt_irrefl _)
    have hbase' : (UtpConnection.releaseWindow { s with
        sendQueue := queue, finAcked := fin } s.curWindow).baseDelay = some b := hbase
    rw [newWindow_undelayed hbase' hsample, hrel]
    show (s.maxWindow.toNat : Int) + ledbatGain ccTargetUs defaultPacketSize s.curWindow
      (max s.maxWindow defaultPacketSize) = _
    rw [hgain, hmax]
  unfold UtpConnection.onAckQueue
  change (if (s.acked (s.seq - 1) (envAt 0).now).freed > 0 then
    UtpConnection.creditFreed { s with
      sendQueue := (s.acked (s.seq - 1) (envAt 0).now).queue
      finAcked := (s.acked (s.seq - 1) (envAt 0).now).finAcked }
        (s.acked (s.seq - 1) (envAt 0).now).freed (s.acked (s.seq - 1) (envAt 0).now).rttSample
          (envAt 0)
    else { s with
      sendQueue := (s.acked (s.seq - 1) (envAt 0).now).queue
      finAcked := (s.acked (s.seq - 1) (envAt 0).now).finAcked }).sendAccount = _
  generalize s.acked (s.seq - 1) (envAt 0).now = r at hqueue hfreed
  rw [hfreed, if_pos (UInt32.lt_iff_toNat_lt.mpr (by rw [hin, UInt32.toNat_zero]; omega)),
    sendAccount_creditFreed, hwindow, hqueue]
  show SendAccount.mk [] (if s.curWindow ≤ s.curWindow then s.curWindow - s.curWindow else 0) s.seq
    (if s.packetSize < defaultPacketSize then defaultPacketSize else s.packetSize)
    (UInt32.ofInt (max _ (if s.packetSize < defaultPacketSize then defaultPacketSize
      else s.packetSize).toNat)) = _
  rw [if_pos (UInt32.le_refl _), UInt32.sub_self, hsize, if_neg (UInt32.lt_irrefl _), hone]

/-- **One acknowledgement of everything**, as a datagram. -/
theorem Ready.ackAll (h : Ready s w n) (hpos : 0 < n) (hn : n ≤ 32768) (hw : 1400 ≤ w) :
    AtRest (s.apply (.packet (ackDatagram (s.seq - 1)) (envAt 0))) ∧
      (s.apply (.packet (ackDatagram (s.seq - 1)) (envAt 0))).sendAccount =
        ⟨[], 0, s.seq, defaultPacketSize,
          UInt32.ofInt (max ((w : Int) + (1960000 * n / w : Nat)) (1400 : Nat))⟩ := by
  have hwf : (peerHeader stState 0 (s.seq - 1) 0xFFFFFFFF).WellFormed :=
    ⟨(rfl : stState &&& 0x0F = stState), rfl⟩
  have hparse : parsePacket (ackDatagram (s.seq - 1)).bytes =
      some (peerHeader stState 0 (s.seq - 1) 0xFFFFFFFF, [], headerLen) := by
    have := parsePacket_plain hwf rfl []
    rwa [List.append_nil] at this
  have hack : Acknowledges (peerHeader stState 0 (s.seq - 1) 0xFFFFFFFF) := .inl rfl
  have hopen : s.state ≠ .synSent := by
    rw [h.rest.state]
    decide
  obtain ⟨hrest, hsample, b, hbase⟩ := h.rest.onArrival (s.seq - 1)
  have hbook := (neutral_onArrival s (peerHeader stState 0 (s.seq - 1) 0xFFFFFFFF) (envAt 0)).send
  rcases handlePacket_cases s (ackDatagram (s.seq - 1)).bytes (envAt 0) with
    ⟨hnone, -⟩ | ⟨hdr, exts, off, hp, hcases⟩
  · rw [hparse] at hnone
    cases hnone
  · obtain ⟨rfl, hpair⟩ := Prod.mk.inj (Option.some.inj (hparse.symm.trans hp))
    obtain ⟨rfl, rfl⟩ := Prod.mk.inj hpair
    rcases hcases with ⟨-, hno⟩ | ⟨t, heq, ⟨hno, -⟩ | ⟨-, ht⟩⟩
    · exact absurd hack hno
    · exact absurd hack hno
    · rw [beforeAck_state rfl hopen] at ht
      generalize s.onArrival (peerHeader stState 0 (s.seq - 1) 0xFFFFFFFF) (envAt 0) = u at *
      have hseq : u.seq = s.seq := congrArg SendAccount.seq hbook
      have hnote := neutral_noteDupAck u (s.seq - 1)
      have hfull : (u.noteDupAck (s.seq - 1)).sendAccount.Full w n := by
        rw [hnote.send, hbook]
        exact h.book
      have hseq' : (u.noteDupAck (s.seq - 1)).seq = s.seq :=
        (congrArg SendAccount.seq hnote.send).trans hseq
      have hdelay : (u.noteDupAck (s.seq - 1)).baseDelay = some b ∧
          (u.noteDupAck (s.seq - 1)).lastDelaySample = 0 := by
        unfold noteDupAck
        split <;> exact ⟨hbase, hsample⟩
      have hqueue := hfull.ackAll hdelay.1 hdelay.2 hpos hn hw
      rw [hseq'] at hqueue
      obtain ⟨hti, hta⟩ := onAck_of_empty hrest (sackOf []) (congrArg SendAccount.queue hqueue)
      change t = u.onAck (s.seq - 1) (sackOf []) (envAt 0) at ht
      rw [← ht] at hti hta
      rcases heq with heq | heq
      · refine ⟨?_, ?_⟩
        · show AtRest (s.handlePacket _ _)
          rw [heq]
          exact hti
        · exact (congrArg sendAccount heq).trans (hta.trans hqueue)
      · refine ⟨?_, ?_⟩
        · show AtRest (s.handlePacket _ _)
          rw [heq]
          exact hti.sendAck (envAt 0)
        · exact (congrArg sendAccount heq).trans (hta.trans hqueue)

/-! ## The run -/

/-- A full payload written and sent, `k` times. -/
def sendFull (k : Nat) : List Operation :=
  (List.replicate k [.write fullPayload, .tick (envAt 0)]).flatten

theorem Ready.fill (h : Ready s w n) (k : Nat) (hroom : 1400 * (n + k) ≤ w) :
    ∃ t, run step s (sendFull k) = some t ∧ Ready t w (n + k) := by
  induction k generalizing s n with
  | zero => exact ⟨s, rfl, h⟩
  | succ k ih =>
    have hone := h.send (by omega)
    obtain ⟨t, hrun, ht⟩ := ih hone (by omega)
    refine ⟨t, ?_, by rwa [Nat.add_right_comm] at ht⟩
    rw [sendFull, List.replicate_succ, List.flatten_cons, List.cons_append, List.cons_append,
      run_cons_eq_some]
    refine ⟨_, rfl, run_cons_eq_some.mpr ⟨_, rfl, ?_⟩⟩
    exact hrun

/-- A call at the first instant, outside of which nothing is measured but `ledbatGain`. -/
def AtOnce : Operation → Prop
  | .packet _ env => env = envAt 0
  | .tick env => env = envAt 0
  | _ => True

theorem atOnce_sendFull (k : Nat) : ∀ op ∈ sendFull k, AtOnce op := by
  intro op hop
  obtain ⟨pair, hpair, hop⟩ := List.mem_flatten.mp hop
  rw [List.eq_of_mem_replicate hpair] at hop
  rcases List.mem_cons.mp hop with rfl | hop
  · trivial
  · rw [List.mem_singleton.mp hop]
    rfl

/-- A run from here reaches a state that is not balanced. -/
def Outgrows (s : UtpConnection) : Prop :=
  ∃ ops t, run step s ops = some t ∧ (∀ op ∈ ops, AtOnce op) ∧ ¬ Balanced t

theorem Outgrows.of_run {t : UtpConnection} {ops : List Operation} (hrun : run step s ops = some t)
    (hops : ∀ op ∈ ops, AtOnce op) (h : Outgrows t) : Outgrows s := by
  obtain ⟨ops', u, hrun', hops', hu⟩ := h
  refine ⟨ops ++ ops', u, run_append.mpr ⟨t, hrun, hrun'⟩, fun op hop => ?_, hu⟩
  exact (List.mem_append.mp hop).elim (hops op) (hops' op)

/-- What one round adds to the window: at least one byte, and exactly one near the end. -/
theorem growth_bounds (hlow : 14000 ≤ w) :
    1 ≤ 1960000 * (w / 1960000 + 1) / w ∧
      (4294967296 ≤ w + 1960000 * (w / 1960000 + 1) / w → w < 4294967296 →
        w + 1960000 * (w / 1960000 + 1) / w = 4294967296) := by
  have hpos : 0 < w := by omega
  refine ⟨(Nat.one_le_div_iff hpos).mpr (by omega), fun hover hlt => ?_⟩
  by_cases hsmall : w ≤ 1960000
  · have := Nat.div_le_self (1960000 * (w / 1960000 + 1)) w
    omega
  · have hgain : 1960000 * (w / 1960000 + 1) / w < 2 := (Nat.div_lt_iff_lt_mul hpos).mpr (by omega)
    omega

/-- **Growing until it wraps.**  Each round takes as many packets as let the window grow by one
byte or more; near the end it grows by exactly one. -/
theorem Ready.outgrows (h : Ready s w 0) (hlow : 14000 ≤ w) : Outgrows s := by
  -- the distance that is left to the last value of the window
  obtain ⟨d, hd⟩ : ∃ d, 4294967296 ≤ w + d := ⟨4294967296, Nat.le_add_left _ _⟩
  induction d generalizing s w with
  | zero =>
    have hlt := s.maxWindow.toNat_lt
    have hw : s.maxWindow.toNat = w := h.book.window
    omega
  | succ d ih =>
    have hlt : w < 4294967296 := by
      have hw : s.maxWindow.toNat = w := h.book.window
      exact hw ▸ s.maxWindow.toNat_lt
    obtain ⟨t, hrun, ht⟩ := h.fill (w / 1960000 + 1) (by omega)
    rw [Nat.zero_add] at ht
    obtain ⟨hrest, hbook⟩ := ht.ackAll (Nat.succ_pos _) (by omega) (by omega)
    obtain ⟨hgrow, hwrap⟩ := growth_bounds hlow
    have hstep : run step t [.packet (ackDatagram (t.seq - 1)) (envAt 0)] =
        some (t.apply (.packet (ackDatagram (t.seq - 1)) (envAt 0))) := rfl
    generalize t.apply (.packet (ackDatagram (t.seq - 1)) (envAt 0)) = u at *
    have hack : ∀ op ∈ [Operation.packet (ackDatagram (t.seq - 1)) (envAt 0)], AtOnce op :=
      fun op hop => List.mem_singleton.mp hop ▸ rfl
    refine .of_run hrun (atOnce_sendFull _) (.of_run hstep hack ?_)
    generalize 1960000 * (w / 1960000 + 1) / w = gain at *
    have hnat : u.maxWindow.toNat = (w + gain) % 4294967296 := by
      rw [show u.maxWindow = _ from congrArg SendAccount.maxWindow hbook]
      show (UInt32.ofNat (max ((w : Int) + (gain : Nat)) (1400 : Nat) % 4294967296).toNat).toNat = _
      rw [UInt32.toNat_ofNat']
      omega
    by_cases hfits : w + gain < 4294967296
    · have hready : Ready u (w + gain) 0 := by
        refine ⟨hrest, ?_⟩
        rw [hbook]
        refine ⟨?_, rfl, rfl, rfl, fun p hp => (by cases hp), trivial⟩
        rw [← congrArg SendAccount.maxWindow hbook]
        exact hnat.trans (Nat.mod_eq_of_lt hfits)
      exact ih hready (by omega) (by omega)
    · have hzero := hwrap (Nat.le_of_not_lt hfits) hlt
      refine ⟨[], u, rfl, fun op hop => (by cases hop), fun hb => ?_⟩
      have hle := UInt32.le_iff_toNat_le.mp hb.window
      have hsize : u.packetSize = defaultPacketSize := congrArg SendAccount.packetSize hbook
      rw [hsize, hnat, hzero] at hle
      revert hle
      decide

/-- The first datagram of a peer: no bytes, and a window of all that can be said. -/
def firstDatagram : Datagram :=
  ⟨encodeHeader (peerHeader stData 1 4 0xFFFFFFFF), by decide⟩

/-- An inbound connection whose peer has sent it. -/
def established : UtpConnection :=
  (newInbound 7 0 5 (envAt 0)).apply (.packet firstDatagram (envAt 0))

theorem ready_established : Ready established 14000 0 := by
  have hqueue : established.sendAccount.queue = [] := List.isEmpty_iff.mp (by decide +kernel)
  refine ⟨⟨by decide +kernel, by decide +kernel, by decide +kernel, by decide +kernel,
    by decide +kernel, by decide +kernel, by decide +kernel⟩, by decide +kernel, by decide +kernel,
    by decide +kernel, by decide +kernel, fun p hp => ?_, ?_⟩
  · rw [hqueue] at hp
    cases hp
  · rw [hqueue]
    trivial

/-- **The window wraps.**  A run of an ordinary connection with an obliging peer, in which no delay
is measured and no time passes, reaches a state in which the congestion window is zero. -/
theorem window_wraps : ∃ ops t, run step (newInbound 7 0 5 (envAt 0)) ops = some t ∧
    (∀ op ∈ ops, AtOnce op) ∧ ¬ Balanced t :=
  Outgrows.of_run (run_cons_eq_some.mpr ⟨_, rfl, run_nil _ established⟩)
    (fun _ hop => List.mem_singleton.mp hop ▸ rfl) (ready_established.outgrows (Nat.le_refl _))

end XferRust.Utp
