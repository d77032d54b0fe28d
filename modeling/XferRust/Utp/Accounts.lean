import XferRust.Utp.Operations

/-! # The books of a connection

A connection keeps its counters by deltas: the bytes in flight beside the send queue, the bytes
buffered beside the reorder buffer, the congestion window beside the packet size.  `SendAccount`
and `RecvAccount` are the fields of each book, and `Ok` says that its counters agree with what
they count.

The counters are 32 bits wide.  What is in flight never exceeds a window that was checked before
sending, and the reorder buffer has its own limit, so that the only sum that can leave the 32 bits
is the congestion window, which grows without a bound (`GrowthFits`).
-/
namespace XferRust.Utp
open UtpConnection Tiling

/-! ## The accounts -/

/-- The fields that count what is sent. -/
structure SendAccount where
  queue : List OutPacket
  curWindow : UInt32
  seq : UInt16
  packetSize : UInt32
  maxWindow : UInt32

/-- The fields that count what is received. -/
structure RecvAccount where
  reorder : SortedMap UInt16 InPacket
  buffered : UInt32
  out : List UInt8

namespace UtpConnection

def sendAccount (s : UtpConnection) : SendAccount :=
  ⟨s.sendQueue, s.curWindow, s.seq, s.packetSize, s.maxWindow⟩

def recvAccount (s : UtpConnection) : RecvAccount := ⟨s.recvReorder, s.recvBuffered, s.recvOut⟩

end UtpConnection

/-- The numbers follow each other, and `next` follows the last. -/
def EndsBefore (next : UInt16) : List UInt16 → Prop
  | [] => True
  | n :: ns => n + 1 = ns.headD next ∧ EndsBefore next ns

/-- The bytes of a list of packets in flight. -/
abbrev sizes (ps : List OutPacket) : Nat := total (fun p => p.size.toNat) ps

/-- The bytes of a list of buffered packets. -/
abbrev payloads (es : List (UInt16 × InPacket)) : Nat := total (fun e => e.2.payload.length) es

/-- What is in flight is what the send queue holds, and the windows have room for one more
packet in their 32 bits. -/
structure SendAccount.Ok (a : SendAccount) : Prop where
  inFlight : a.curWindow.toNat = sizes a.queue
  numbered : EndsBefore a.seq (a.queue.map OutPacket.seq)
  window : a.packetSize.toNat ≤ a.maxWindow.toNat
  small : a.packetSize.toNat ≤ 1400
  room : a.maxWindow.toNat + 1400 < 4294967296
  inFlightRoom : a.curWindow.toNat + 1400 < 4294967296

/-- What is buffered is what the reorder buffer holds. -/
structure RecvAccount.Ok (a : RecvAccount) : Prop where
  buffered : a.buffered.toNat = payloads a.reorder.entries
  bounded : a.buffered.toNat ≤ 1048576

/-- A call that touches neither book. -/
structure Neutral (s t : UtpConnection) : Prop where
  send : t.sendAccount = s.sendAccount
  recv : t.recvAccount = s.recvAccount

namespace Neutral

variable {s t u : UtpConnection}

theorem trans (h : Neutral s t) (h' : Neutral t u) : Neutral s u :=
  ⟨h'.send.trans h.send, h'.recv.trans h.recv⟩

end Neutral

/-! ## Consecutive numbers -/

variable {next : UInt16} {ns : List UInt16} {buffered : UInt32} {payload : List UInt8}
  {s : UtpConnection}

theorem EndsBefore.suffix {ms : List UInt16} (h : EndsBefore next (ns ++ ms)) :
    EndsBefore next ms := by
  induction ns with
  | nil => exact h
  | cons n ns ih => exact ih h.2

/-- The next number takes its place at the end. -/
theorem EndsBefore.push (h : EndsBefore next ns) : EndsBefore (next + 1) (ns ++ [next]) := by
  induction ns with
  | nil => exact ⟨rfl, trivial⟩
  | cons n ns ih =>
    refine ⟨h.1.trans ?_, ih h.2⟩
    cases ns with
    | nil => rfl
    | cons m ms => rfl

/-- A number in the list lies as far before `next` as there are numbers from it on. -/
theorem EndsBefore.add_length {n : UInt16} (h : EndsBefore next (n :: ns)) :
    n + UInt16.ofNat (ns.length + 1) = next := by
  induction ns generalizing n with
  | nil => exact h.1
  | cons m ms ih =>
    have hn : n + 1 = m := h.1
    rw [← ih h.2, ← hn, List.length_cons, UInt16.ofNat_add _ 1]
    grind

/-! ## Calls that touch neither book -/

theorem neutral_sendAck (s : UtpConnection) (env : Env) : Neutral s (s.sendAck env) := ⟨rfl, rfl⟩

theorem neutral_updateDelay (s : UtpConnection) (d : UInt32) (env : Env) :
    Neutral s (s.updateDelay d env) := by
  unfold updateDelay
  dsimp only
  split <;> exact ⟨rfl, rfl⟩

theorem neutral_onArrival (s : UtpConnection) (hdr : PacketHeader) (env : Env) :
    Neutral s (s.onArrival hdr env) := by
  unfold onArrival
  dsimp only
  split
  · exact ⟨rfl, rfl⟩
  · refine Neutral.trans ?_ (neutral_updateDelay _ _ _)
    exact ⟨rfl, rfl⟩

theorem neutral_onSynAck (s : UtpConnection) (hdr : PacketHeader) : Neutral s (s.onSynAck hdr) := by
  unfold onSynAck
  split <;> exact ⟨rfl, rfl⟩

theorem neutral_onFirstData (s : UtpConnection) (hdr : PacketHeader) :
    Neutral s (s.onFirstData hdr) := by
  unfold onFirstData
  split
  · exact ⟨rfl, rfl⟩
  · split <;> exact ⟨rfl, rfl⟩

theorem neutral_onFin (s : UtpConnection) (hdr : PacketHeader) : Neutral s (s.onFin hdr) := by
  unfold onFin
  dsimp only
  split <;> exact ⟨rfl, rfl⟩

theorem neutral_updateRtt (s : UtpConnection) (d : Nat) : Neutral s (s.updateRtt d) := by
  unfold updateRtt
  split
  · exact ⟨rfl, rfl⟩
  · dsimp only
    split <;> exact ⟨rfl, rfl⟩

theorem neutral_noteDupAck (s : UtpConnection) (n : UInt16) : Neutral s (s.noteDupAck n) := by
  unfold noteDupAck
  split <;> exact ⟨rfl, rfl⟩

theorem neutral_onAckFin (s : UtpConnection) (n : UInt16) : Neutral s (s.onAckFin n) := by
  unfold onAckFin
  split <;> exact ⟨rfl, rfl⟩

theorem neutral_finishCloseIfIdle (s : UtpConnection) : Neutral s s.finishCloseIfIdle := by
  unfold finishCloseIfIdle
  split <;> exact ⟨rfl, rfl⟩

theorem neutral_synTimeout (s : UtpConnection) (env : Env) : Neutral s (s.synTimeout env) := by
  unfold synTimeout
  dsimp only
  split <;> exact ⟨rfl, rfl⟩

theorem neutral_flushFin (s : UtpConnection) (env : Env) : Neutral s (s.flushFin env).1 := by
  unfold flushFin
  split
  · dsimp only
    split <;> exact ⟨rfl, rfl⟩
  · exact ⟨rfl, rfl⟩

theorem neutral_tickEnd (s : UtpConnection) (env : Env) : Neutral s (s.tickEnd env) := by
  unfold tickEnd
  dsimp only
  split <;> exact ⟨rfl, rfl⟩

theorem neutral_write (s : UtpConnection) (data : List UInt8) : Neutral s (s.write data).1 := by
  unfold write
  dsimp only
  split <;> exact ⟨rfl, rfl⟩

theorem neutral_close (s : UtpConnection) : Neutral s s.close := by
  unfold close
  split
  · exact ⟨rfl, rfl⟩
  · split <;> exact ⟨rfl, rfl⟩

/-! ## What touches the one book leaves the other alone -/

theorem sendAccount_onData (s : UtpConnection) (hdr : PacketHeader) (payload : List UInt8) :
    (s.onData hdr payload).sendAccount = s.sendAccount := by
  unfold onData
  dsimp only
  split
  · rfl
  · split
    · rfl
    · split
      · rfl
      · split <;> rfl

theorem sendAccount_received (s : UtpConnection) (hdr : PacketHeader) (payload : List UInt8) :
    (s.received hdr payload).sendAccount = s.sendAccount := by
  unfold received
  split
  · exact (neutral_onSynAck s hdr).send
  · split
    · exact (sendAccount_onData _ hdr payload).trans (neutral_onFirstData s hdr).send
    · split
      · exact (neutral_onFin _ hdr).send.trans (neutral_onFirstData s hdr).send
      · rfl

theorem recvAccount_onAckQueue (s : UtpConnection) (ackNr : UInt16) (env : Env) :
    (s.onAckQueue ackNr env).recvAccount = s.recvAccount := by
  unfold onAckQueue
  dsimp only
  split
  · unfold creditFreed
    dsimp only
    generalize (dropAcked s.finSent s.finSeq ackNr env.now
      ⟨s.sendQueue, 0, none, s.finAcked⟩).rttSample = sample
    cases sample with
    | none => rfl
    | some d => exact (neutral_updateRtt _ d).recv
  · rfl

theorem recvAccount_onAckSack (s : UtpConnection) (ackNr : UInt16) (bits : UInt32) (env : Env) :
    (s.onAckSack ackNr bits env).recvAccount = s.recvAccount := by
  unfold onAckSack
  split
  · rfl
  · split <;> rfl

theorem recvAccount_onAckDup (s : UtpConnection) (ackNr : UInt16) (env : Env) :
    (s.onAckDup ackNr env).recvAccount = s.recvAccount := by
  unfold onAckDup
  split
  · show (s.recoverTarget (ackNr + 1) env).recvAccount = _
    unfold recoverTarget
    split
    · rfl
    · split <;> rfl
  · rfl

theorem recvAccount_onAck (s : UtpConnection) (ackNr : UInt16) (bits : UInt32) (env : Env) :
    (s.onAck ackNr bits env).recvAccount = s.recvAccount := by
  have hparts : ((((s.noteDupAck ackNr).onAckQueue ackNr env).onAckFin ackNr).onAckSack ackNr bits
      env |>.onAckDup ackNr env).recvAccount = s.recvAccount := by
    rw [recvAccount_onAckDup, recvAccount_onAckSack, (neutral_onAckFin _ ackNr).recv,
      recvAccount_onAckQueue, (neutral_noteDupAck s ackNr).recv]
  unfold onAck
  split
  · rfl
  · dsimp only
    split
    · exact (neutral_finishCloseIfIdle _).recv.trans hparts
    · exact hparts

theorem recvAccount_handleTimeout (s : UtpConnection) (env : Env) :
    (s.handleTimeout env).recvAccount = s.recvAccount := by
  unfold handleTimeout
  split
  · exact (neutral_synTimeout s env).recv
  · dsimp only
    split
    · rfl
    · split <;> rfl

theorem recvAccount_flushPending (env : Env) (fuel : Nat) (s : UtpConnection) :
    (flushPending env fuel s).recvAccount = s.recvAccount := by
  induction fuel generalizing s with
  | zero => rfl
  | succ fuel ih =>
    rw [flushPending_succ]
    split
    · rfl
    · split
      · rfl
      · exact ih (s.cutPacket env)

theorem recvAccount_processTick (s : UtpConnection) (env : Env) :
    (s.processTick env).recvAccount = s.recvAccount := by
  unfold processTick
  split
  · rfl
  · have hfin := (neutral_flushFin s env).recv
    dsimp only
    split
    · exact hfin
    · split
      · exact (recvAccount_handleTimeout _ env).trans hfin
      · refine (neutral_tickEnd _ env).recv.trans (Eq.trans ?_ hfin)
        unfold tickFlush
        split
        · exact recvAccount_flushPending env _ _
        · rfl

/-! ## The receive book -/

/-- The subtractions of the drain loop stay above zero. -/
def DrainSafe (ack : UInt16) (buffered : UInt32) : List (UInt16 × InPacket) → Prop
  | [] => True
  | (n, p) :: es =>
    n = ack + 1 → p.payload.length ≤ buffered.toNat ∧
      DrainSafe n (buffered - UInt32.ofNat p.payload.length) es

/-- What one round of the drain loop leaves of the counter. -/
theorem toNat_drained {p : InPacket} {rest : Nat} (h : buffered.toNat = p.payload.length + rest) :
    (buffered - UInt32.ofNat p.payload.length).toNat = rest := by
  have hlt := buffered.toNat_lt
  have hlen : (UInt32.ofNat p.payload.length).toNat = p.payload.length := by
    rw [UInt32.toNat_ofNat']
    omega
  have hle : UInt32.ofNat p.payload.length ≤ buffered := by
    rw [UInt32.le_iff_toNat_le, hlen]
    omega
  rw [UInt32.toNat_sub_of_le _ _ hle, hlen]
  omega

theorem drainSafe {ack : UInt16} {es : List (UInt16 × InPacket)}
    (h : buffered.toNat = payloads es) : DrainSafe ack buffered es := by
  induction es generalizing ack buffered with
  | nil => trivial
  | cons e es ih =>
    intro _
    exact ⟨h ▸ Nat.le_add_right _ _, ih (toNat_drained h)⟩

/-- **The drain loop** keeps the counter, and moves bytes from the buffer to the stream. -/
theorem drainReorder_account {es : List (UInt16 × InPacket)} (h : buffered.toNat = payloads es)
    (ack : UInt16) (out : List UInt8) :
    (drainReorder ack out buffered es).2.2.1.toNat =
        payloads (es.drop (drainReorder ack out buffered es).2.2.2) ∧
      (drainReorder ack out buffered es).2.1.length +
          payloads (es.drop (drainReorder ack out buffered es).2.2.2) =
        out.length + payloads es := by
  induction es generalizing ack out buffered with
  | nil => exact ⟨h, rfl⟩
  | cons e es ih =>
    obtain ⟨n, p⟩ := e
    unfold drainReorder
    split
    · obtain ⟨hcount, hbytes⟩ := ih (toNat_drained h) n (out ++ p.payload)
      refine ⟨hcount, ?_⟩
      rw [List.drop_succ_cons]
      refine hbytes.trans ?_
      rw [List.length_append, Nat.add_assoc]
      rfl
    · exact ⟨h, rfl⟩

theorem payloads_drop_le (es : List (UInt16 × InPacket)) (n : Nat) :
    payloads (es.drop n) ≤ payloads es := by
  have h := total_append (fun e : UInt16 × InPacket => e.2.payload.length) (es.take n) (es.drop n)
  rw [List.take_append_drop] at h
  exact Nat.le_trans (Nat.le_add_left _ _) (Nat.le_of_eq h.symm)

/-- A DATA packet that is out of order: the buffer takes it if it fits. -/
theorem RecvAccount.Ok.buffer {a : RecvAccount} (h : a.Ok) (seq : UInt16)
    (hlen : payload.length < 65536)
    (hfits : a.buffered + UInt32.ofNat payload.length ≤ reorderWindow) :
    (RecvAccount.mk ((a.reorder.erase seq).insert seq ⟨payload⟩)
      ((match a.reorder.find? seq with
        | some dup => a.buffered - UInt32.ofNat dup.payload.length
        | none => a.buffered) + UInt32.ofNat payload.length) a.out).Ok := by
  have hbuf := h.buffered
  have hbound := h.bounded
  have hofNat : (UInt32.ofNat payload.length).toNat = payload.length := by
    rw [UInt32.toNat_ofNat']
    omega
  have hlimit : a.buffered.toNat + payload.length ≤ 1048576 := by
    rw [UInt32.le_iff_toNat_le, UInt32.toNat_add, hofNat] at hfits
    have hw : reorderWindow.toNat = 1048576 := by decide
    omega
  have herase : payloads (a.reorder.erase seq).entries +
      (a.reorder.find? seq).elim 0 (fun p => p.payload.length) = payloads a.reorder.entries :=
    SortedMap.total_erase (fun e : UInt16 × InPacket => e.2.payload.length) a.reorder seq
  have hinsert : payloads ((a.reorder.erase seq).insert seq ⟨payload⟩).entries =
      payload.length + payloads (a.reorder.erase seq).entries :=
    SortedMap.total_insert_erase (fun e : UInt16 × InPacket => e.2.payload.length) a.reorder seq _
  -- the old packet of the same number leaves the counter before the new one enters it
  have hold : (match a.reorder.find? seq with
      | some dup => a.buffered - UInt32.ofNat dup.payload.length
      | none => a.buffered).toNat = payloads (a.reorder.erase seq).entries := by
    cases hfind : a.reorder.find? seq with
    | none =>
      rw [hfind, Option.elim_none] at herase
      exact hbuf.trans herase.symm
    | some dup =>
      rw [hfind, Option.elim_some] at herase
      exact toNat_drained (by omega)
  have hsum : ((match a.reorder.find? seq with
      | some dup => a.buffered - UInt32.ofNat dup.payload.length
      | none => a.buffered) + UInt32.ofNat payload.length).toNat =
      payload.length + payloads (a.reorder.erase seq).entries := by
    rw [UInt32.toNat_add, hofNat, hold]
    omega
  refine ⟨hsum.trans hinsert.symm, ?_⟩
  dsimp only
  omega

/-- **DATA** keeps the receive book. -/
theorem RecvAccount.Ok.onData (h : s.recvAccount.Ok) (hdr : PacketHeader)
    (hlen : payload.length < 65536) : (s.onData hdr payload).recvAccount.Ok := by
  unfold UtpConnection.onData
  dsimp only
  split
  · exact h
  · split
    · exact h
    · split
      · obtain ⟨hcount, -⟩ := drainReorder_account h.buffered hdr.seqNr
          (s.recvOut ++ payload)
        refine ⟨hcount, ?_⟩
        have hle := payloads_drop_le s.recvReorder.entries (drainReorder hdr.seqNr
          (s.recvOut ++ payload) s.recvBuffered s.recvReorder.entries).2.2.2
        exact Nat.le_trans (Nat.le_of_eq hcount) (Nat.le_trans hle (h.buffered ▸ h.bounded))
      · split
        · exact h.buffer hdr.seqNr hlen ‹_›
        · exact h

/-! ### Call by call -/

theorem RecvAccount.Ok.of_eq {t : UtpConnection} (h : s.recvAccount.Ok)
    (heq : t.recvAccount = s.recvAccount) : t.recvAccount.Ok := by
  rw [heq]
  exact h

theorem RecvAccount.Ok.received (h : s.recvAccount.Ok) (hdr : PacketHeader)
    (hlen : payload.length < 65536) : (s.received hdr payload).recvAccount.Ok := by
  have hfirst := h.of_eq (neutral_onFirstData s hdr).recv
  unfold UtpConnection.received
  split
  · exact h.of_eq (neutral_onSynAck s hdr).recv
  · split
    · exact hfirst.onData hdr hlen
    · split
      · exact hfirst.of_eq (neutral_onFin _ hdr).recv
      · exact h

/-- A datagram moves the receive book only where it is received. -/
theorem recvAccount_handlePacket (s : UtpConnection) (data : List UInt8) (env : Env) :
    (s.handlePacket data env).recvAccount = s.recvAccount ∨
      ∃ hdr exts off, parsePacket data = some (hdr, exts, off) ∧
        (s.handlePacket data env).recvAccount =
          (s.beforeAck hdr (data.drop off) env).recvAccount := by
  rcases handlePacket_cases s data env with ⟨-, heq⟩ | ⟨hdr, exts, off, hp, hcases⟩
  · exact .inl (congrArg UtpConnection.recvAccount heq)
  · have harr := (neutral_onArrival s hdr env).recv
    rcases hcases with ⟨heq, -⟩ | ⟨t, heq, ht⟩
    · exact .inl ((congrArg UtpConnection.recvAccount heq).trans harr)
    · have hall : (s.handlePacket data env).recvAccount = t.recvAccount := by
        rcases heq with heq | heq
        · exact congrArg UtpConnection.recvAccount heq
        · exact (congrArg UtpConnection.recvAccount heq).trans (neutral_sendAck t env).recv
      rcases ht with ⟨-, rfl | rfl⟩ | ⟨-, rfl⟩
      · exact .inl (hall.trans harr)
      · exact .inl (hall.trans harr)
      · exact .inr ⟨hdr, exts, off, hp, hall.trans (recvAccount_onAck _ _ _ env)⟩

/-- **Every call** keeps the receive book. -/
theorem RecvAccount.Ok.apply (h : s.recvAccount.Ok) (op : Operation) :
    (s.apply op).recvAccount.Ok := by
  cases op with
  | write data => exact h.of_eq (neutral_write s data).recv
  | read len => exact ⟨h.buffered, h.bounded⟩
  | close => exact h.of_eq (neutral_close s).recv
  | packet datagram env =>
    rcases recvAccount_handlePacket s datagram.bytes env with heq | ⟨hdr, exts, off, -, heq⟩
    · exact h.of_eq heq
    · have hlen : (datagram.bytes.drop off).length < 65536 := by
        have := datagram.short
        rw [List.length_drop]
        omega
      have harr := h.of_eq (neutral_onArrival s hdr env).recv
      exact (harr.received hdr hlen).of_eq heq
  | tick env => exact h.of_eq (recvAccount_processTick s env)
  | drain => exact h

theorem recvOk_fresh (hs : Fresh s) : s.recvAccount.Ok := by
  have hempty : (0 : UInt32).toNat ≤ 1048576 := by decide
  cases hs with
  | outbound idBytes env => exact ⟨rfl, hempty⟩
  | inbound peerRecvId ackNr seqBytes env => exact ⟨rfl, hempty⟩

end XferRust.Utp
