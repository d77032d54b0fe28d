import XferRust.Utp.Accounts

/-! # The books are kept

Every call keeps both books of a connection, whatever the datagrams contain and whatever the
clocks say, as long as the congestion window fits in its 32 bits (`GrowthFits`).  `update_window`
computes the new window in 64 bits, bounds it from below by the packet size, and cuts it to 32 bits
without a bound from above.
-/
namespace XferRust.Utp
open UtpConnection Tiling StepRun

/-! ## The congestion window -/

namespace UtpConnection

/-- The window of `update_window` before it is bounded and cut to 32 bits. -/
def newWindow (s : UtpConnection) (newlyAcked : UInt32) (env : Env) : Int :=
  let ourDelay :=
    match s.baseDelay with
    | some b => if s.lastDelaySample > b then s.lastDelaySample - b else 0
    | none => 0
  let ourDelayUs := UInt32.ofNat (ourDelay / 1000)
  let offTarget := if ourDelayUs ≤ ccTargetUs then ccTargetUs - ourDelayUs else 0
  let delta := env.ledbat offTarget s.packetSize newlyAcked (max s.maxWindow s.packetSize)
  let delta := if s.baseDelay.isNone then delta + s.packetSize.toNat else delta
  (s.maxWindow.toNat : Int) + delta

/-- What the window depends on. -/
theorem newWindow_congr {s t : UtpConnection} (hbase : t.baseDelay = s.baseDelay)
    (hsample : t.lastDelaySample = s.lastDelaySample) (hsize : t.packetSize = s.packetSize)
    (hmax : t.maxWindow = s.maxWindow) (n : UInt32) (env : Env) :
    t.newWindow n env = s.newWindow n env := by
  unfold newWindow
  rw [hbase, hsample, hsize, hmax]

/-- What an acknowledgement takes out of the send queue. -/
def acked (s : UtpConnection) (ackNr : UInt16) (now : Nat) : Acked :=
  dropAcked s.finSent s.finSeq ackNr now ⟨s.sendQueue, 0, none, s.finAcked⟩

/-- The window that the acknowledgement of a datagram leads to fits in 32 bits and leaves room for
one more packet. -/
def GrowthFits (s : UtpConnection) (data : List UInt8) (env : Env) : Prop :=
  match parsePacket data with
  | none => True
  | some (hdr, _, _) =>
    Acknowledges hdr → 0 < (s.acked hdr.ackNr env.now).freed →
      ((s.onArrival hdr env).releaseWindow (s.acked hdr.ackNr env.now).freed).newWindow
        (s.acked hdr.ackNr env.now).freed env + 1400 < 4294967296

instance (s : UtpConnection) (data : List UInt8) (env : Env) : Decidable (s.GrowthFits data env) :=
  match h : parsePacket data with
  | none => isTrue (by rw [GrowthFits, h]; trivial)
  | some (hdr, _, _) =>
    decidable_of_iff
      (Acknowledges hdr → 0 < (s.acked hdr.ackNr env.now).freed →
        ((s.onArrival hdr env).releaseWindow (s.acked hdr.ackNr env.now).freed).newWindow
          (s.acked hdr.ackNr env.now).freed env + 1400 < 4294967296)
      (by rw [GrowthFits, h])

/-- The condition on a call: an acknowledgement does not push the congestion window beyond its
32 bits. -/
def Fits (s : UtpConnection) : Operation → Prop
  | .packet datagram env => s.GrowthFits datagram.bytes env
  | _ => True

instance (s : UtpConnection) : ∀ op, Decidable (s.Fits op)
  | .packet datagram env => inferInstanceAs (Decidable (s.GrowthFits datagram.bytes env))
  | .write _ | .read _ | .close | .tick _ | .drain => isTrue trivial

end UtpConnection

/-! ## The send book -/

variable {s : UtpConnection}

theorem Neutral.sendOk {t : UtpConnection} (h : Neutral s t) (hs : s.sendAccount.Ok) :
    t.sendAccount.Ok := by
  rw [h.send]
  exact hs

/-- **The loop over the send queue** takes packets off its front and counts their bytes. -/
theorem dropAcked_go_spec (finSent : Bool) (finSeq ackNr : UInt16) (now : Nat)
    (ps : List OutPacket) (freed : UInt32) (sample : Option Nat) (fin : Bool) :
    ∃ dropped, ps = dropped ++ (dropAcked.go finSent finSeq ackNr now ps freed sample fin).queue ∧
      (freed.toNat + sizes dropped < 4294967296 →
        (dropAcked.go finSent finSeq ackNr now ps freed sample fin).freed.toNat =
          freed.toNat + sizes dropped) := by
  induction ps generalizing freed sample fin with
  | nil => exact ⟨[], rfl, fun _ => rfl⟩
  | cons p ps ih =>
    rw [dropAcked.go]
    split
    · obtain ⟨dropped, hps, hfreed⟩ := ih (freed + p.size)
        (if sample.isNone ∧ p.retransmits = 0 then some (now - p.sendTime) else sample)
        (fin || (p.seq = finSeq && finSent))
      refine ⟨p :: dropped, congrArg (p :: ·) hps, fun hlt => ?_⟩
      have hcons : sizes (p :: dropped) = p.size.toNat + sizes dropped := rfl
      have hadd : (freed + p.size).toNat = freed.toNat + p.size.toNat := by
        rw [UInt32.toNat_add]
        omega
      rw [hfreed (by omega), hadd]
      omega
    · exact ⟨[], rfl, fun _ => rfl⟩

/-- The bytes that an acknowledgement frees do not depend on the sample or the FIN. -/
theorem dropAcked_go_freed (finSent : Bool) (finSeq ackNr : UInt16) (now : Nat)
    (ps : List OutPacket) (freed : UInt32) (sample sample' : Option Nat) (fin fin' : Bool) :
    (dropAcked.go finSent finSeq ackNr now ps freed sample fin).freed =
      (dropAcked.go finSent finSeq ackNr now ps freed sample' fin').freed := by
  induction ps generalizing freed sample sample' fin fin' with
  | nil => rfl
  | cons p ps ih =>
    rw [dropAcked.go, dropAcked.go]
    split
    · exact ih _ _ _ _ _
    · rfl

theorem sizes_append (ps qs : List OutPacket) : sizes (ps ++ qs) = sizes ps + sizes qs :=
  total_append _ ps qs

/-- **What an acknowledgement takes off**: never more than what is in flight. -/
theorem acked_spec (h : s.sendAccount.Ok) (ackNr : UInt16) (now : Nat) :
    ∃ dropped, s.sendQueue = dropped ++ (s.acked ackNr now).queue ∧
      (s.acked ackNr now).freed.toNat = sizes dropped ∧
      (s.acked ackNr now).freed.toNat ≤ s.curWindow.toNat := by
  obtain ⟨dropped, hq, hfreed⟩ :=
    dropAcked_go_spec s.finSent s.finSeq ackNr now s.sendQueue 0 none s.finAcked
  have hin : s.curWindow.toNat = sizes s.sendQueue := h.inFlight
  have hlt := s.curWindow.toNat_lt
  have hsum : sizes s.sendQueue = sizes dropped + sizes (s.acked ackNr now).queue :=
    (congrArg sizes hq).trans (sizes_append _ _)
  have hle : sizes dropped ≤ s.curWindow.toNat := by omega
  have hfreed' : (s.acked ackNr now).freed.toNat = sizes dropped := by
    have := hfreed (by rw [UInt32.toNat_zero]; omega)
    rwa [UInt32.toNat_zero, Nat.zero_add] at this
  exact ⟨dropped, hq, hfreed', hfreed' ▸ hle⟩

/-- The window that `update_window` stores, when it fits. -/
theorem toNat_window {w : Int} {size : UInt32} (hsize : size.toNat ≤ 1400)
    (hw : w + 1400 < 4294967296) :
    size.toNat ≤ (UInt32.ofInt (max w size.toNat)).toNat ∧
      (UInt32.ofInt (max w size.toNat)).toNat + 1400 < 4294967296 := by
  have hnat : (UInt32.ofInt (max w size.toNat)).toNat = (max w size.toNat).toNat := by
    show (UInt32.ofNat (max w size.toNat % 4294967296).toNat).toNat = _
    rw [UInt32.toNat_ofNat']
    omega
  omega

/-- The send book after packets have left the front of the queue. -/
theorem SendAccount.Ok.release {a : SendAccount} (h : a.Ok) {dropped queue : List OutPacket}
    (hq : a.queue = dropped ++ queue) {freed size window : UInt32}
    (hfreed : freed.toNat = sizes dropped) (hsize : size.toNat ≤ 1400)
    (hwindow : size.toNat ≤ window.toNat) (hroom : window.toNat + 1400 < 4294967296) :
    (SendAccount.mk queue (if freed ≤ a.curWindow then a.curWindow - freed else 0) a.seq size
      window).Ok := by
  have hin := h.inFlight
  have hsum : sizes a.queue = sizes dropped + sizes queue :=
    (congrArg sizes hq).trans (sizes_append _ _)
  have hle : freed ≤ a.curWindow := by
    rw [UInt32.le_iff_toNat_le]
    omega
  have hcur : (if freed ≤ a.curWindow then a.curWindow - freed else 0).toNat = sizes queue := by
    rw [if_pos hle, UInt32.toNat_sub_of_le _ _ hle]
    omega
  have hnum : EndsBefore a.seq (dropped.map OutPacket.seq ++ queue.map OutPacket.seq) := by
    rw [← List.map_append, ← hq]
    exact h.numbered
  have hflight := h.inFlightRoom
  exact ⟨hcur, hnum.suffix, hwindow, hsize, hroom, by dsimp only; omega⟩

namespace UtpConnection

/-- The delays and windows that `update_window` reads. -/
structure SameWindow (s t : UtpConnection) : Prop where
  base : t.baseDelay = s.baseDelay
  sample : t.lastDelaySample = s.lastDelaySample
  size : t.packetSize = s.packetSize
  max : t.maxWindow = s.maxWindow

theorem SameWindow.newWindow {s t : UtpConnection} (h : SameWindow s t) (n : UInt32) (env : Env) :
    t.newWindow n env = s.newWindow n env :=
  newWindow_congr h.base h.sample h.size h.max n env

theorem sameWindow_updateRtt (s : UtpConnection) (d : Nat) : SameWindow s (s.updateRtt d) := by
  unfold updateRtt
  split
  · exact ⟨rfl, rfl, rfl, rfl⟩
  · dsimp only
    split <;> exact ⟨rfl, rfl, rfl, rfl⟩

end UtpConnection

/-- The send book after freed bytes are credited; the round-trip time has no part in it. -/
theorem sendAccount_creditFreed (s : UtpConnection) (freed : UInt32) (sample : Option Nat)
    (env : Env) :
    (s.creditFreed freed sample env).sendAccount =
      ⟨s.sendQueue, if freed ≤ s.curWindow then s.curWindow - freed else 0, s.seq,
        (s.releaseWindow freed).packetSize,
        UInt32.ofInt (max ((s.releaseWindow freed).newWindow freed env)
          (s.releaseWindow freed).packetSize.toNat)⟩ := by
  cases sample with
  | none => rfl
  | some d =>
    have hsame := sameWindow_updateRtt (s.releaseWindow freed) d
    have hbook := (neutral_updateRtt (s.releaseWindow freed) d).send
    show SendAccount.mk ((s.releaseWindow freed).updateRtt d).sendQueue
      ((s.releaseWindow freed).updateRtt d).curWindow ((s.releaseWindow freed).updateRtt d).seq
      ((s.releaseWindow freed).updateRtt d).packetSize
      (UInt32.ofInt (max (((s.releaseWindow freed).updateRtt d).newWindow freed env)
        ((s.releaseWindow freed).updateRtt d).packetSize.toNat)) = _
    rw [hsame.newWindow, hsame.size]
    rw [show ((s.releaseWindow freed).updateRtt d).sendQueue = s.sendQueue from
        congrArg SendAccount.queue hbook,
      show ((s.releaseWindow freed).updateRtt d).seq = s.seq from congrArg SendAccount.seq hbook,
      show ((s.releaseWindow freed).updateRtt d).curWindow = (s.releaseWindow freed).curWindow from
        congrArg SendAccount.curWindow hbook]
    rfl

/-- **The queue part of an acknowledgement** keeps the send book when the new window fits. -/
theorem SendAccount.Ok.onAckQueue (h : s.sendAccount.Ok) (ackNr : UInt16) (env : Env)
    (hfit : 0 < (s.acked ackNr env.now).freed →
      (s.releaseWindow (s.acked ackNr env.now).freed).newWindow (s.acked ackNr env.now).freed env +
        1400 < 4294967296) : (s.onAckQueue ackNr env).sendAccount.Ok := by
  obtain ⟨dropped, hq, hfreed, -⟩ := acked_spec h ackNr env.now
  have hsize : (s.releaseWindow (s.acked ackNr env.now).freed).packetSize.toNat ≤ 1400 := by
    show (if s.packetSize < defaultPacketSize then defaultPacketSize else s.packetSize).toNat ≤ 1400
    split
    · exact Nat.le_refl _
    · exact h.small
  unfold UtpConnection.onAckQueue
  change (if (s.acked ackNr env.now).freed > 0 then
    UtpConnection.creditFreed { s with
      sendQueue := (s.acked ackNr env.now).queue, finAcked := (s.acked ackNr env.now).finAcked }
        (s.acked ackNr env.now).freed (s.acked ackNr env.now).rttSample env
    else { s with
      sendQueue := (s.acked ackNr env.now).queue
      finAcked := (s.acked ackNr env.now).finAcked }).sendAccount.Ok
  generalize s.acked ackNr env.now = r at *
  split
  · rename_i hpos
    obtain ⟨hlow, hhigh⟩ := toNat_window hsize (hfit hpos)
    rw [sendAccount_creditFreed]
    exact h.release hq hfreed hsize hlow hhigh
  · rename_i hzero
    have hfreed0 : r.freed = 0 := by
      have hn : ¬ 0 < r.freed.toNat := fun hp => hzero (UInt32.lt_iff_toNat_lt.mpr hp)
      exact UInt32.toNat_inj.mp (by rw [UInt32.toNat_zero]; omega)
    have hok := h.release hq hfreed h.small h.window h.room
    rw [hfreed0, if_pos (UInt32.le_iff_toNat_le.mpr (Nat.zero_le _)), UInt32.sub_zero] at hok
    exact hok

/-- Halving the window. -/
theorem SendAccount.Ok.halve {a : SendAccount} (h : a.Ok) :
    (SendAccount.mk a.queue a.curWindow a.seq a.packetSize
      (max (a.maxWindow / 2) a.packetSize)).Ok := by
  have hroom := h.room
  have hsmall := h.small
  have hmax : (max (a.maxWindow / 2) a.packetSize).toNat =
      max (a.maxWindow.toNat / 2) a.packetSize.toNat := by
    show (if a.maxWindow / 2 ≤ a.packetSize then a.packetSize else a.maxWindow / 2).toNat = _
    have hdiv : (a.maxWindow / 2).toNat = a.maxWindow.toNat / 2 := UInt32.toNat_div _ _
    split
    · rename_i hle
      rw [UInt32.le_iff_toNat_le, hdiv] at hle
      exact (Nat.max_eq_right hle).symm
    · rename_i hle
      rw [UInt32.le_iff_toNat_le, hdiv] at hle
      rw [hdiv]
      exact (Nat.max_eq_left (Nat.le_of_not_le hle)).symm
  refine ⟨h.inFlight, h.numbered, ?_, h.small, ?_, h.inFlightRoom⟩
  · dsimp only
    omega
  · dsimp only
    omega

theorem SendAccount.Ok.onAckSack (h : s.sendAccount.Ok) (ackNr : UInt16) (bits : UInt32)
    (env : Env) : (s.onAckSack ackNr bits env).sendAccount.Ok := by
  unfold UtpConnection.onAckSack
  split
  · exact h
  · split
    · exact h.halve
    · exact h

theorem sizes_markRetransmit (target : UInt16) (now : Nat) (ps : List OutPacket) :
    sizes (markRetransmit target now ps) = sizes ps := by
  induction ps with
  | nil => rfl
  | cons p ps ih =>
    rw [markRetransmit]
    split
    · rfl
    · exact congrArg (p.size.toNat + ·) ih

theorem seqs_markRetransmit (target : UInt16) (now : Nat) (ps : List OutPacket) :
    (markRetransmit target now ps).map OutPacket.seq = ps.map OutPacket.seq := by
  induction ps with
  | nil => rfl
  | cons p ps ih =>
    rw [markRetransmit]
    split
    · rfl
    · exact congrArg (p.seq :: ·) ih

/-- A queue with the same sizes and numbers. -/
theorem SendAccount.Ok.requeue {a : SendAccount} (h : a.Ok) {queue : List OutPacket}
    (hsizes : sizes queue = sizes a.queue)
    (hseqs : queue.map OutPacket.seq = a.queue.map OutPacket.seq) :
    (SendAccount.mk queue a.curWindow a.seq a.packetSize a.maxWindow).Ok where
  inFlight := h.inFlight.trans hsizes.symm
  numbered := by
    rw [hseqs]
    exact h.numbered
  window := h.window
  small := h.small
  room := h.room
  inFlightRoom := h.inFlightRoom

theorem SendAccount.Ok.onAckDup (h : s.sendAccount.Ok) (ackNr : UInt16) (env : Env) :
    (s.onAckDup ackNr env).sendAccount.Ok := by
  unfold UtpConnection.onAckDup
  split
  · show (s.recoverTarget (ackNr + 1) env).sendAccount.Ok
    unfold UtpConnection.recoverTarget
    split
    · exact h
    · split
      · exact h
      · exact (h.requeue (sizes_markRetransmit _ _ _) (seqs_markRetransmit _ _ _)).halve
  · exact h

/-- **An acknowledgement** keeps the send book when the new window fits. -/
theorem SendAccount.Ok.onAck (h : s.sendAccount.Ok) (ackNr : UInt16) (bits : UInt32) (env : Env)
    (hfit : 0 < (s.acked ackNr env.now).freed →
      (s.releaseWindow (s.acked ackNr env.now).freed).newWindow (s.acked ackNr env.now).freed env +
        1400 < 4294967296) : (s.onAck ackNr bits env).sendAccount.Ok := by
  have hnote : (s.noteDupAck ackNr).sendAccount.Ok := (neutral_noteDupAck s ackNr).sendOk h
  have hacked : (s.noteDupAck ackNr).acked ackNr env.now = s.acked ackNr env.now := by
    unfold noteDupAck
    split <;> rfl
  have hwin : ∀ n, ((s.noteDupAck ackNr).releaseWindow n).newWindow n env =
      (s.releaseWindow n).newWindow n env := fun n => by
    unfold noteDupAck
    split <;> rfl
  have hqueue := hnote.onAckQueue ackNr env (by rw [hacked, hwin]; exact hfit)
  have hfin : (((s.noteDupAck ackNr).onAckQueue ackNr env).onAckFin ackNr).sendAccount.Ok :=
    (neutral_onAckFin _ ackNr).sendOk hqueue
  have hparts := (hfin.onAckSack ackNr bits env).onAckDup ackNr env
  unfold UtpConnection.onAck
  split
  · exact h
  · dsimp only
    split
    · exact (neutral_finishCloseIfIdle _).sendOk hparts
    · exact hparts

/-! ### Timers and sending -/

theorem SendAccount.Ok.handleTimeout (h : s.sendAccount.Ok) (env : Env) :
    (s.handleTimeout env).sendAccount.Ok := by
  have hsizes : sizes (s.sendQueue.map fun p =>
      { p with sendTime := env.now, retransmits := p.retransmits + 1 }) = sizes s.sendQueue :=
    total_map _ _ _
  have hseqs : (s.sendQueue.map fun p =>
      { p with sendTime := env.now, retransmits := p.retransmits + 1 }).map OutPacket.seq =
        s.sendQueue.map OutPacket.seq := by
    rw [List.map_map]
    rfl
  have hre := h.requeue hsizes hseqs
  have hsmall : minPacketSize.toNat ≤ 1400 := by decide
  have hroom : minPacketSize.toNat + 1400 < 4294967296 := by decide
  have hcollapsed : (SendAccount.mk (s.sendQueue.map fun p =>
      { p with sendTime := env.now, retransmits := p.retransmits + 1 }) s.curWindow s.seq
        minPacketSize minPacketSize).Ok :=
    ⟨hre.inFlight, hre.numbered, Nat.le_refl _, hsmall, hroom, hre.inFlightRoom⟩
  unfold UtpConnection.handleTimeout
  split
  · exact (neutral_synTimeout s env).sendOk h
  · dsimp only
    split
    · exact h
    · split
      · exact hcollapsed
      · exact hcollapsed

/-- One packet cut off the pending bytes, when the windows have room for it. -/
theorem SendAccount.Ok.cutPacket (h : s.sendAccount.Ok) (env : Env) (hcan : s.canSendData = true) :
    (s.cutPacket env).sendAccount.Ok := by
  have hin : s.curWindow.toNat = sizes s.sendQueue := h.inFlight
  have hsmall : s.packetSize.toNat ≤ 1400 := h.small
  have hroom : s.maxWindow.toNat + 1400 < 4294967296 := h.room
  have hflight : s.curWindow.toNat + 1400 < 4294967296 := h.inFlightRoom
  have hsize : (s.nextPacket env).size.toNat ≤ s.packetSize.toNat := by
    have hlen : (s.pendingSend.take s.packetSize.toNat).length ≤ s.packetSize.toNat :=
      List.length_take_le _ _
    show (UInt32.ofNat _).toNat ≤ _
    rw [UInt32.toNat_ofNat']
    omega
  have hfits : s.curWindow.toNat + s.packetSize.toNat ≤ s.maxWindow.toNat := by
    have hle := of_decide_eq_true hcan
    have hmin : min s.maxWindow s.peerWnd ≤ s.maxWindow := by
      show (if s.maxWindow ≤ s.peerWnd then s.maxWindow else s.peerWnd) ≤ s.maxWindow
      split
      · exact UInt32.le_refl _
      · exact UInt32.le_of_lt (UInt32.not_le.mp ‹_›)
    have hle := UInt32.le_iff_toNat_le.mp (UInt32.le_trans hle hmin)
    rw [UInt32.toNat_add] at hle
    omega
  have hcur : (s.curWindow + (s.nextPacket env).size).toNat =
      s.curWindow.toNat + (s.nextPacket env).size.toNat := by
    rw [UInt32.toNat_add]
    omega
  refine ⟨?_, ?_, h.window, h.small, h.room, ?_⟩
  · show (s.curWindow + (s.nextPacket env).size).toNat = sizes (s.sendQueue ++ [s.nextPacket env])
    rw [hcur, sizes_append, hin]
    rfl
  · show EndsBefore (s.seq + 1) ((s.sendQueue ++ [s.nextPacket env]).map OutPacket.seq)
    rw [List.map_append]
    exact h.numbered.push
  · show (s.curWindow + (s.nextPacket env).size).toNat + 1400 < 4294967296
    omega

theorem SendAccount.Ok.flushPending (env : Env) (fuel : Nat) (h : s.sendAccount.Ok) :
    (UtpConnection.flushPending env fuel s).sendAccount.Ok := by
  induction fuel generalizing s with
  | zero => exact h
  | succ fuel ih =>
    rw [flushPending_succ]
    split
    · exact h
    · split
      · exact h
      · rename_i hcan
        exact ih (h.cutPacket env (by simpa using hcan))

theorem SendAccount.Ok.processTick (h : s.sendAccount.Ok) (env : Env) :
    (s.processTick env).sendAccount.Ok := by
  unfold UtpConnection.processTick
  split
  · exact h
  · have hfin : (s.flushFin env).1.sendAccount.Ok := (neutral_flushFin s env).sendOk h
    dsimp only
    split
    · exact hfin
    · split
      · exact hfin.handleTimeout env
      · refine (neutral_tickEnd _ env).sendOk ?_
        unfold UtpConnection.tickFlush
        split
        · exact hfin.flushPending env _
        · exact hfin

/-! ## Both books, call by call -/

/-- Both books are in order. -/
structure BooksOk (s : UtpConnection) : Prop where
  send : s.sendAccount.Ok
  recv : s.recvAccount.Ok

theorem SendAccount.Ok.of_eq {t : UtpConnection} (h : s.sendAccount.Ok)
    (heq : t.sendAccount = s.sendAccount) : t.sendAccount.Ok := by
  rw [heq]
  exact h

namespace UtpConnection

theorem SameWindow.release {s t : UtpConnection} (h : SameWindow s t) (n : UInt32) :
    SameWindow (s.releaseWindow n) (t.releaseWindow n) where
  base := h.base
  sample := h.sample
  size := by
    show (if t.packetSize < defaultPacketSize then defaultPacketSize else t.packetSize) = _
    rw [h.size]
    rfl
  max := h.max

variable (s : UtpConnection)

theorem sameWindow_onData (hdr : PacketHeader) (payload : List UInt8) :
    SameWindow s (s.onData hdr payload) := by
  unfold onData
  dsimp only
  split
  · exact ⟨rfl, rfl, rfl, rfl⟩
  · split
    · exact ⟨rfl, rfl, rfl, rfl⟩
    · split
      · exact ⟨rfl, rfl, rfl, rfl⟩
      · split <;> exact ⟨rfl, rfl, rfl, rfl⟩

theorem sameWindow_onFirstData (hdr : PacketHeader) : SameWindow s (s.onFirstData hdr) := by
  unfold onFirstData
  split
  · exact ⟨rfl, rfl, rfl, rfl⟩
  · split <;> exact ⟨rfl, rfl, rfl, rfl⟩

theorem SameWindow.trans {s t u : UtpConnection} (h : SameWindow s t) (h' : SameWindow t u) :
    SameWindow s u :=
  ⟨h'.base.trans h.base, h'.sample.trans h.sample, h'.size.trans h.size, h'.max.trans h.max⟩

theorem sameWindow_received (hdr : PacketHeader) (payload : List UInt8) :
    SameWindow s (s.received hdr payload) := by
  unfold received
  split
  · unfold onSynAck
    split <;> exact ⟨rfl, rfl, rfl, rfl⟩
  · split
    · exact (sameWindow_onFirstData s hdr).trans (sameWindow_onData _ hdr payload)
    · split
      · refine (sameWindow_onFirstData s hdr).trans ?_
        unfold onFin
        dsimp only
        split <;> exact ⟨rfl, rfl, rfl, rfl⟩
      · exact ⟨rfl, rfl, rfl, rfl⟩

/-- The bytes that an acknowledgement frees are settled before the datagram is handled. -/
theorem freed_beforeAck (hdr : PacketHeader) (payload : List UInt8) (env : Env) (ackNr : UInt16)
    (now : Nat) :
    ((s.beforeAck hdr payload env).acked ackNr now).freed = (s.acked ackNr now).freed := by
  have hquiet := (quiet_onArrival s hdr env).toSendQuiet.trans
    (sendQuiet_received (s.onArrival hdr env) hdr payload)
  have hbook : (s.beforeAck hdr payload env).sendAccount = s.sendAccount :=
    (sendAccount_received _ hdr payload).trans (neutral_onArrival s hdr env).send
  have hqueue : (s.beforeAck hdr payload env).sendQueue = s.sendQueue :=
    congrArg SendAccount.queue hbook
  show (dropAcked.go (s.beforeAck hdr payload env).finSent (s.beforeAck hdr payload env).finSeq
    ackNr now (s.beforeAck hdr payload env).sendQueue 0 none _).freed = _
  rw [show (s.beforeAck hdr payload env).finSent = s.finSent from hquiet.finSent,
    show (s.beforeAck hdr payload env).finSeq = s.finSeq from hquiet.finSeq, hqueue]
  exact dropAcked_go_freed _ _ _ _ _ _ _ _ _ _

end UtpConnection

/-- **A datagram** keeps the send book when the window it leads to fits. -/
theorem SendAccount.Ok.handlePacket (h : s.sendAccount.Ok) {data : List UInt8} {env : Env}
    (hfits : s.GrowthFits data env) : (s.handlePacket data env).sendAccount.Ok := by
  rcases handlePacket_cases s data env with ⟨-, heq⟩ | ⟨hdr, exts, off, hp, hcases⟩
  · exact h.of_eq (congrArg UtpConnection.sendAccount heq)
  · have harr := (neutral_onArrival s hdr env).sendOk h
    rcases hcases with ⟨heq, -⟩ | ⟨t, heq, ht⟩
    · rw [heq]
      exact harr
    · have hok : t.sendAccount.Ok := by
        rcases ht with ⟨-, rfl | rfl⟩ | ⟨ha, rfl⟩
        · exact harr
        · exact harr
        · have hbefore : (s.beforeAck hdr (data.drop off) env).sendAccount.Ok :=
            harr.of_eq (sendAccount_received _ hdr _)
          refine hbefore.onAck _ _ env fun hpos => ?_
          rw [freed_beforeAck] at hpos ⊢
          have hsame := (sameWindow_received (s.onArrival hdr env) hdr (data.drop off)).release
            (s.acked hdr.ackNr env.now).freed
          rw [show s.beforeAck hdr (data.drop off) env =
            (s.onArrival hdr env).received hdr (data.drop off) from rfl, hsame.newWindow]
          rw [GrowthFits, hp] at hfits
          exact hfits ha hpos
      rcases heq with heq | heq
      · exact hok.of_eq (congrArg UtpConnection.sendAccount heq)
      · rw [heq]
        exact (neutral_sendAck t env).sendOk hok

/-- **Every call** keeps the books when the window it leads to fits. -/
theorem BooksOk.apply (h : BooksOk s) {op : Operation} (hfits : s.Fits op) :
    BooksOk (s.apply op) := by
  refine ⟨?_, h.recv.apply op⟩
  cases op with
  | write data => exact (neutral_write s data).sendOk h.send
  | read len => exact h.send
  | close => exact (neutral_close s).sendOk h.send
  | packet datagram env => exact h.send.handlePacket hfits
  | tick env => exact h.send.processTick env
  | drain => exact h.send

theorem booksOk_fresh (hs : Fresh s) : BooksOk s := by
  have hwindow : defaultPacketSize.toNat ≤ (defaultPacketSize * initialCwndPackets).toNat := by
    decide
  have hsmall : defaultPacketSize.toNat ≤ 1400 := by decide
  have hroom : (defaultPacketSize * initialCwndPackets).toNat + 1400 < 4294967296 := by decide
  have hzero : (0 : UInt32).toNat + 1400 < 4294967296 := by decide
  refine ⟨?_, recvOk_fresh hs⟩
  cases hs with
  | outbound idBytes env => exact ⟨rfl, trivial, hwindow, hsmall, hroom, hzero⟩
  | inbound peerRecvId ackNr seqBytes env => exact ⟨rfl, trivial, hwindow, hsmall, hroom, hzero⟩

/-! ## The counters agree with what they count -/

/-- The counters of a connection agree with what they count, and none of the subtractions that
keep them goes below zero, whatever datagram comes next. -/
structure Balanced (s : UtpConnection) : Prop where
  inFlight : s.curWindow.toNat = sizes s.sendQueue
  buffered : s.recvBuffered.toNat = payloads s.recvReorder.entries
  numbered : EndsBefore s.seq (s.sendQueue.map OutPacket.seq)
  window : s.packetSize ≤ s.maxWindow
  /-- `cur_window - freed` -/
  acked : ∀ ackNr now, (s.acked ackNr now).freed ≤ s.curWindow
  /-- `recv_buffered - p.payload.len()`, while the reorder buffer drains -/
  drained : ∀ seq, DrainSafe seq s.recvBuffered s.recvReorder.entries
  /-- `recv_buffered - dup.payload.len()` -/
  replaced : ∀ seq dup, s.recvReorder.find? seq = some dup →
    dup.payload.length ≤ s.recvBuffered.toNat

theorem BooksOk.balanced (h : BooksOk s) : Balanced s where
  inFlight := h.send.inFlight
  buffered := h.recv.buffered
  numbered := h.send.numbered
  window := UInt32.le_iff_toNat_le.mpr h.send.window
  acked ackNr now := by
    obtain ⟨-, -, -, hle⟩ := acked_spec h.send ackNr now
    exact UInt32.le_iff_toNat_le.mpr hle
  drained _ := drainSafe h.recv.buffered
  replaced seq dup hdup := by
    have hsum := SortedMap.total_erase (fun e : UInt16 × InPacket => e.2.payload.length)
      s.recvReorder seq
    rw [hdup, Option.elim_some] at hsum
    replace hsum : _ + dup.payload.length = _ := hsum
    have hbuf : s.recvBuffered.toNat = total (fun e : UInt16 × InPacket => e.2.payload.length)
      s.recvReorder.entries := h.recv.buffered
    omega

/-- **Window accounting.**  In every run of a connection, with any peer, any application and any
clock, in which the congestion window fits in its 32 bits, every state is balanced. -/
theorem balanced_of_fits {s : UtpConnection} (hs : Fresh s) {ops : List Operation}
    (hfits : Along step Fits s ops) : Everywhere step Balanced s ops :=
  everywhere_of_along (fun _ => BooksOk.balanced)
    (fun _ _ _ hok hfit hstep => Option.some.inj hstep ▸ hok.apply hfit) (booksOk_fresh hs) hfits

/-! ## A run -/

/-- The LEDBAT increment: of the packet size the share of the delay target that is left, once for
each window acknowledged.  Without a queueing delay this is what the `f64` product comes to. -/
def ledbatGain (offTarget size newlyAcked window : UInt32) : Int :=
  (offTarget.toNat * size.toNat * newlyAcked.toNat / (ccTargetUs.toNat * window.toNat) : Nat)

/-- The outside at an instant, with both wall clocks in step. -/
def envAt (now : Nat) : Env := ⟨now, 0, ledbatGain⟩

/-- A header of the other side of a connection that came in with receive id 7. -/
def peerHeader (t : UInt8) (seqNr ackNr : UInt16) (wndSize : UInt32) : PacketHeader :=
  { type_ := t, version := protocolVersion, extension := extNone, connectionId := 8
    timestamp := 0, timestampDiff := 0, wndSize, seqNr, ackNr }

/-- A datagram of the other side with one byte or none. -/
def peerDatagram (t : UInt8) (seqNr ackNr : UInt16) (byte : Option UInt8) : Datagram :=
  ⟨encodeHeader (peerHeader t seqNr ackNr 1048576) ++ byte.toList, by
    have hlen : headerLen + byte.toList.length ≤ 21 := by
      cases byte with
      | none => decide
      | some b => exact Nat.le_refl 21
    rw [List.length_append, length_encodeHeader]
    omega⟩

/-- The bytes of one packet of full size. -/
def fullPayload : List UInt8 := List.replicate 1400 0

theorem length_fullPayload : fullPayload.length = 1400 := List.length_replicate

/-- DATA in order, DATA ahead of its turn twice, bytes sent, acknowledged and sent again. -/
def busyRun : List Operation :=
  [.packet (peerDatagram stData 1 4 (some 9)) (envAt 0), .packet (peerDatagram stData 3 4 (some 8))
    (envAt 1), .packet (peerDatagram stData 3 4 (some 7)) (envAt 2), .write [1, 2, 3],
    .tick (envAt 3), .write [4, 5], .tick (envAt 4), .packet (peerDatagram stState 3 5 none)
    (envAt 100), .tick (envAt 2000000000), .packet (peerDatagram stData 2 6 (some 6))
    (envAt 2000000100)]

theorem balanced_busyRun : Everywhere step Balanced (newInbound 7 0 5 (envAt 0)) busyRun :=
  balanced_of_fits (.inbound 7 0 5 (envAt 0)) (by decide +kernel)

end XferRust.Utp
