import XferRust.Lib.SerialNumber
import XferRust.Utp.Quiet

/-! # What each call does to the byte stream

One lemma for each call of a connection, in the terms of `Quiet`.  `handlePacket` is a quiet
call after the arm of the packet's type (`quiet_handlePacket`) and sends nothing new
(`sendQuiet_handlePacket`).  `processTick` takes a number for FIN, cuts pending bytes into
DATA packets, and is quiet after that (`processTick_spec`).
-/
namespace XferRust.Utp
open UtpConnection SerialNumber

/-! ## Reception -/

/-- The arm of `handle_packet` for the type of the packet, as far as the incoming stream is
concerned. -/
def UtpConnection.received (s : UtpConnection) (hdr : PacketHeader) (payload : List UInt8) :
    UtpConnection :=
  if hdr.type_ = stState then s.onSynAck hdr
  else if hdr.type_ = stData then (s.onFirstData hdr).onData hdr payload
  else if hdr.type_ = stFin then (s.onFirstData hdr).onFin hdr
  else s

variable (s : UtpConnection)

theorem quiet_handleParsed (hdr : PacketHeader) (exts : List Extension) (payload : List UInt8)
    (env : Env) :
    Quiet ((s.onArrival hdr env).received hdr payload) (s.handleParsed hdr exts payload env) := by
  unfold handleParsed received
  dsimp only
  by_cases hsyn : hdr.type_ = stSyn
  · rw [if_pos hsyn, if_neg (by rw [hsyn]; decide), if_neg (by rw [hsyn]; decide),
      if_neg (by rw [hsyn]; decide)]
    split
    · exact quiet_queueControl_state _ env 0
    · exact .refl _
  · rw [if_neg hsyn]
    split
    · exact quiet_onAck _ _ _ env
    · split
      · exact quiet_onAck _ _ _ env
      · split
        · exact quiet_onAck _ _ _ env
        · exact .refl _

variable {hdr : PacketHeader} {data : List UInt8}
variable {exts : List Extension} {off : Nat}

/-- **Reception.**  Up to a quiet rest, handling a packet is its type's arm. -/
theorem quiet_handlePacket {s : UtpConnection} (hp : parsePacket data = some (hdr, exts, off))
    (hr : hdr.type_ ≠ stReset) (env : Env) :
    Quiet ((s.onArrival hdr env).received hdr (data.drop off)) (s.handlePacket data env) := by
  have h := quiet_handleParsed s hdr exts (data.drop off) env
  unfold handlePacket
  rw [hp]
  dsimp only
  rw [if_neg hr]
  split
  · exact h.trans (quiet_sendAck _ env)
  · exact h

/-- A control packet that answers nothing is quiet. -/
theorem quiet_handlePacket_control {s : UtpConnection}
    (hp : parsePacket data = some (hdr, exts, off))
    (ht : hdr.type_ = stSyn ∨ hdr.type_ = stState ∧ s.state ≠ .synSent) (env : Env) :
    Quiet s (s.handlePacket data env) := by
  have harr := quiet_onArrival s hdr env
  have hst : s.state ≠ .synSent → (s.onArrival hdr env).state ≠ .synSent := fun hne => by
    rcases harr.state with hs | hs
    · rw [hs]
      exact hne
    · rw [hs]
      decide
  have hrecv : (s.onArrival hdr env).received hdr (data.drop off) = s.onArrival hdr env := by
    unfold received
    rcases ht with ht | ⟨ht, hne⟩
    · rw [ht, if_neg (by decide), if_neg (by decide), if_neg (by decide)]
    · rw [if_pos ht, onSynAck, if_neg (hst hne)]
  have htype : hdr.type_ ≠ stReset := by
    rcases ht with ht | ⟨ht, -⟩ <;> rw [ht] <;> decide
  exact harr.trans (hrecv ▸ quiet_handlePacket hp htype env)

theorem handlePacket_unparsed {s : UtpConnection} (hp : parsePacket data = none) (env : Env) :
    s.handlePacket data env = s := by
  unfold handlePacket
  rw [hp]

theorem sendQuiet_onSynAck (hdr : PacketHeader) : SendQuiet s (s.onSynAck hdr) := by
  unfold onSynAck
  split <;> exact .of_eq rfl rfl rfl rfl

theorem sendQuiet_onFirstData (hdr : PacketHeader) : SendQuiet s (s.onFirstData hdr) := by
  unfold onFirstData
  split
  · exact .of_eq rfl rfl rfl rfl
  · split <;> exact .of_eq rfl rfl rfl rfl

theorem sendQuiet_onData (hdr : PacketHeader) (payload : List UInt8) :
    SendQuiet s (s.onData hdr payload) := by
  unfold onData
  dsimp only
  split
  · exact .of_eq rfl rfl rfl rfl
  · split
    · exact .of_eq rfl rfl rfl rfl
    · split
      · exact .of_eq rfl rfl rfl rfl
      · split <;> exact .of_eq rfl rfl rfl rfl

theorem sendQuiet_onFin (hdr : PacketHeader) : SendQuiet s (s.onFin hdr) := by
  unfold onFin
  dsimp only
  split <;> exact .of_eq rfl rfl rfl rfl

theorem sendQuiet_received (hdr : PacketHeader) (payload : List UInt8) :
    SendQuiet s (s.received hdr payload) := by
  unfold received
  split
  · exact sendQuiet_onSynAck s hdr
  · split
    · exact (sendQuiet_onFirstData s hdr).trans (sendQuiet_onData _ hdr payload)
    · split
      · exact (sendQuiet_onFirstData s hdr).trans (sendQuiet_onFin _ hdr)
      · exact (Quiet.refl s).toSendQuiet

/-- **Nothing new is sent on reception**, whatever the datagram. -/
theorem sendQuiet_handlePacket (data : List UInt8) (env : Env) :
    SendQuiet s (s.handlePacket data env) := by
  cases hp : parsePacket data with
  | none => exact handlePacket_unparsed hp env ▸ (Quiet.refl s).toSendQuiet
  | some r =>
    obtain ⟨hdr, exts, off⟩ := r
    have harr := (quiet_onArrival s hdr env).toSendQuiet
    by_cases hr : hdr.type_ = stReset
    · unfold handlePacket
      rw [hp]
      dsimp only
      rw [if_pos hr]
      exact harr.trans (.of_eq rfl rfl rfl rfl)
    · exact (harr.trans (sendQuiet_received _ hdr _)).trans (quiet_handlePacket hp hr env).toSendQuiet

theorem state_onFirstData (hdr : PacketHeader) :
    (s.onFirstData hdr).state = s.state ∨
      (s.onFirstData hdr).state = .connected ∧ (s.state = .synRecv ∨ s.state = .synSent) := by
  unfold onFirstData
  split
  · exact .inr ⟨rfl, .inl ‹_›⟩
  · split
    · exact .inr ⟨rfl, .inr ‹_›⟩
    · exact .inl rfl

theorem state_onData (hdr : PacketHeader) (payload : List UInt8) :
    (s.onData hdr payload).state = s.state := by
  unfold onData
  dsimp only
  split
  · rfl
  · split
    · rfl
    · split
      · rfl
      · split <;> rfl

theorem state_onFin (hdr : PacketHeader) : (s.onFin hdr).state = s.state := by
  unfold onFin
  dsimp only
  split <;> rfl

theorem state_received (hdr : PacketHeader) (payload : List UInt8) :
    (s.received hdr payload).state = s.state ∨
      (s.received hdr payload).state = .connected ∧ (s.state = .synRecv ∨ s.state = .synSent) := by
  have hfirst := state_onFirstData s hdr
  have hdata := state_onData (s.onFirstData hdr) hdr payload
  have hfin := state_onFin (s.onFirstData hdr) hdr
  unfold received
  split
  · unfold onSynAck
    split
    · exact .inr ⟨rfl, .inr ‹_›⟩
    · exact .inl rfl
  · split
    · rw [hdata]
      exact hfirst
    · split
      · rw [hfin]
        exact hfirst
      · exact .inl rfl

/-- The states a reception can lead to. -/
theorem state_handlePacket (data : List UInt8) (env : Env) :
    (s.handlePacket data env).state = s.state ∨ (s.handlePacket data env).state = .closed ∨
      (s.handlePacket data env).state = .connected ∧
        (s.state = .synRecv ∨ s.state = .synSent) := by
  cases hp : parsePacket data with
  | none => exact .inl (congrArg UtpConnection.state (handlePacket_unparsed hp env))
  | some r =>
    obtain ⟨hdr, exts, off⟩ := r
    by_cases hr : hdr.type_ = stReset
    · unfold handlePacket
      rw [hp]
      dsimp only
      rw [if_pos hr]
      exact .inr (.inl rfl)
    · rcases (quiet_handlePacket hp hr env (s := s)).state with hs | hs
      · rw [hs]
        rcases (quiet_onArrival s hdr env).state with ha | ha
        · rw [← ha]
          exact (state_received _ hdr _).imp_right .inr
        · rcases state_received (s.onArrival hdr env) hdr (data.drop off) with h | ⟨-, h⟩
          · exact .inr (.inl (h.trans ha))
          · rw [ha] at h
            rcases h with h | h <;> cases h
      · exact .inr (.inl hs)

theorem state_onArrival (hdr : PacketHeader) (env : Env) :
    (s.onArrival hdr env).state = s.state := by
  unfold onArrival
  dsimp only
  split
  · rfl
  · unfold updateDelay
    dsimp only
    split <;> rfl

/-- A SYN that arrives leaves the state as it is. -/
theorem state_handlePacket_syn {s : UtpConnection} (hp : parsePacket data = some (hdr, exts, off))
    (ht : hdr.type_ = stSyn) (env : Env) : (s.handlePacket data env).state = s.state := by
  have hparsed : (s.handleParsed hdr exts (data.drop off) env).state = s.state := by
    unfold handleParsed
    dsimp only
    rw [if_pos ht]
    split
    · exact state_onArrival s hdr env
    · exact state_onArrival s hdr env
  unfold handlePacket
  rw [hp]
  dsimp only
  rw [if_neg (by rw [ht]; decide)]
  split
  · exact hparsed
  · exact hparsed

/-- The answer to the SYN. -/
theorem received_synAck {s : UtpConnection} (hst : s.state = .synSent) (ht : hdr.type_ = stState)
    (payload : List UInt8) :
    (s.received hdr payload).state = .connected ∧
      (s.received hdr payload).recvView = ⟨hdr.seqNr - 1, s.recvOut, s.recvReorder, s.eof⟩ := by
  rw [received, if_pos ht, onSynAck, if_pos hst]
  exact ⟨rfl, rfl⟩

/-- A FIN that comes before the answer to the SYN counts as acknowledged and is not noted. -/
theorem received_fin_unanswered {s : UtpConnection} (hst : s.state = .synSent)
    (ht : hdr.type_ = stFin) (payload : List UInt8) :
    (s.received hdr payload).state = .connected ∧
      (s.received hdr payload).recvView = ⟨hdr.seqNr, s.recvOut, s.recvReorder, s.eof⟩ := by
  have hnext : hdr.seqNr ≠ hdr.seqNr + 1 := by grind
  rw [received, ht, if_neg (by decide), if_neg (by decide), if_pos rfl, onFirstData,
    if_neg (by rw [hst]; decide), if_pos hst, onFin]
  dsimp only
  rw [if_neg fun h => hnext h.1]
  exact ⟨rfl, rfl⟩

/-! ## Ticks -/

/-- The FIN step of a tick that leads from `s` to `t`: a pending FIN takes the next number. -/
structure FinTaken (s t : UtpConnection) : Prop where
  pending : s.finPending = true
  open_ : s.state ≠ .closed
  send : t.sendView = ⟨s.seq, s.pendingSend, true, false, s.seq⟩
  recv : t.recvView = s.recvView
  synSeq : t.synSeq = s.synSeq
  state : t.state = if s.state = .synSent then .closed else .finSent
  queue : t.sendQueue = s.sendQueue
  outbox : ∀ q ∈ t.outbox, q ∈ s.outbox ∨ Carries q stFin s.seq []

/-- Cutting pending bytes into DATA packets leads from `s` to `t`; `chunks` are the payloads,
which take the next sequence numbers in order. -/
structure Flushed (s t : UtpConnection) (chunks : List (List UInt8)) : Prop where
  seq : t.seq = nth s.seq chunks.length
  pending : s.pendingSend = chunks.flatten ++ t.pendingSend
  fin : t.finSent = s.finSent ∧ t.finPending = s.finPending ∧ t.finSeq = s.finSeq
  recv : t.recvView = s.recvView
  synSeq : t.synSeq = s.synSeq
  state : t.state = s.state
  queue : ∃ ops, t.sendQueue = s.sendQueue ++ ops ∧ ops.map OutPacket.payload = chunks
  numbered : ∀ op ∈ t.sendQueue, op ∈ s.sendQueue ∨
    ∃ i, chunks[i]? = some op.payload ∧ op.seq = nth s.seq i
  outbox : ∀ q ∈ t.outbox, q ∈ s.outbox ∨
    ∃ i payload, chunks[i]? = some payload ∧ Carries q stData (nth s.seq i) payload
  open_ : chunks ≠ [] → s.state = .connected ∨ s.state = .finSent
  some_ : chunks ≠ [] → s.pendingSend ≠ []

theorem Flushed.refl : Flushed s s [] where
  seq := (nth_zero _).symm
  pending := rfl
  fin := ⟨rfl, rfl, rfl⟩
  recv := rfl
  synSeq := rfl
  state := rfl
  queue := ⟨[], (List.append_nil _).symm, rfl⟩
  numbered _ hop := .inl hop
  outbox _ hq := .inl hq
  open_ h := absurd rfl h
  some_ h := absurd rfl h

/-- The packet one round of the loop cuts off. -/
def UtpConnection.nextPacket (s : UtpConnection) (env : Env) : OutPacket :=
  { payload := s.pendingSend.take s.packetSize.toNat
    seq := s.seq
    sendTime := env.now
    size := UInt32.ofNat (s.pendingSend.take s.packetSize.toNat).length
    retransmits := 0 }

/-- One round of the loop. -/
def UtpConnection.cutPacket (s : UtpConnection) (env : Env) : UtpConnection :=
  { s with
    pendingSend := s.pendingSend.drop s.packetSize.toNat
    seq := s.seq + 1 }.queueDataPacket (s.nextPacket env) env

theorem flushPending_succ (env : Env) (fuel : Nat) (s : UtpConnection) :
    flushPending env (fuel + 1) s =
      if s.pendingSend.isEmpty then s
      else if !s.canSendData then { s with wantWrite := true }
      else flushPending env fuel (s.cutPacket env) := rfl

theorem carries_cutPacket (env : Env) {q : List UInt8} (hq : q ∈ (s.cutPacket env).outbox) :
    q ∈ s.outbox ∨ Carries q stData s.seq (s.nextPacket env).payload := by
  rcases List.mem_append.mp hq with hq | hq
  · exact .inl hq
  · rw [List.mem_singleton.mp hq]
    exact .inr (carries_dataPacket _ env _ _)

/-- One more packet in front of what a run of the loop cuts. -/
theorem Flushed.cons {s t : UtpConnection} {env : Env} {chunks : List (List UInt8)}
    (hst : s.state = .connected ∨ s.state = .finSent) (hp : s.pendingSend ≠ [])
    (h : Flushed (s.cutPacket env) t chunks) :
    Flushed s t ((s.nextPacket env).payload :: chunks) where
  seq := by
    rw [h.seq, List.length_cons, Nat.add_comm, nth_add, nth_succ, nth_zero]
    rfl
  pending := by
    have hcut := h.pending
    rw [List.flatten_cons, List.append_assoc, ← hcut]
    exact (List.take_append_drop _ _).symm
  fin := h.fin
  recv := h.recv
  synSeq := h.synSeq
  state := h.state
  queue := by
    obtain ⟨ops, hops, hmap⟩ := h.queue
    refine ⟨s.nextPacket env :: ops, ?_, congrArg _ hmap⟩
    rw [hops]
    exact List.append_cons _ _ _ |>.symm
  numbered op hop := by
    rcases h.numbered op hop with hop | ⟨i, hi, hseq⟩
    · rcases List.mem_append.mp hop with hop | hop
      · exact .inl hop
      · rw [List.mem_singleton.mp hop]
        exact .inr ⟨0, rfl, (nth_zero _).symm⟩
    · refine .inr ⟨i + 1, hi, hseq.trans ?_⟩
      rw [Nat.add_comm, nth_add, nth_succ, nth_zero]
      rfl
  outbox q hq := by
    rcases h.outbox q hq with hq | ⟨i, payload, hi, hc⟩
    · rcases carries_cutPacket s env hq with hq | hc
      · exact .inl hq
      · exact .inr ⟨0, _, rfl, (nth_zero s.seq).symm ▸ hc⟩
    · refine .inr ⟨i + 1, payload, hi, ?_⟩
      rw [Nat.add_comm, nth_add, nth_succ, nth_zero]
      exact hc
  open_ _ := hst
  some_ _ := hp

/-- Raising `want_write` is not part of the stream. -/
theorem Flushed.wantWrite : Flushed s { s with wantWrite := true } [] where
  seq := (nth_zero _).symm
  pending := rfl
  fin := ⟨rfl, rfl, rfl⟩
  recv := rfl
  synSeq := rfl
  state := rfl
  queue := ⟨[], (List.append_nil _).symm, rfl⟩
  numbered _ hop := .inl hop
  outbox _ hq := .inl hq
  open_ h := absurd rfl h
  some_ h := absurd rfl h

/-- **The flush loop** cuts the pending bytes in order, for every fuel. -/
theorem flushPending_flushed (env : Env) (fuel : Nat) (s : UtpConnection)
    (hst : s.state = .connected ∨ s.state = .finSent) :
    ∃ chunks, Flushed s (flushPending env fuel s) chunks := by
  induction fuel generalizing s with
  | zero => exact ⟨[], .refl s⟩
  | succ fuel ih =>
    rw [flushPending_succ]
    split
    · exact ⟨[], .refl s⟩
    · rename_i hp
      split
      · exact ⟨[], .wantWrite s⟩
      · obtain ⟨chunks, h⟩ := ih (s.cutPacket env) hst
        exact ⟨_, h.cons hst (mt List.isEmpty_iff.mpr hp)⟩

/-- The FIN step of a tick. -/
theorem flushFin_spec {s : UtpConnection} (ho : s.state ≠ .closed) (env : Env) :
    ((s.flushFin env).1 = s ∧ s.finPending = false ∧ (s.flushFin env).2 = false) ∨
      FinTaken s (s.flushFin env).1 := by
  unfold flushFin
  by_cases hp : s.finPending = true
  · rw [if_pos hp]
    dsimp only
    by_cases hs : s.state = .synSent
    · rw [if_pos hs]
      exact .inr ⟨hp, ho, rfl, rfl, rfl, (if_pos hs).symm, rfl, fun _ hq => .inl hq⟩
    · rw [if_neg hs]
      refine .inr ⟨hp, ho, rfl, rfl, rfl, (if_neg hs).symm, rfl, fun q hq => ?_⟩
      rcases List.mem_append.mp hq with hq | hq
      · exact .inl hq
      · rw [List.mem_singleton.mp hq]
        exact .inr (carries_controlPacket _ rfl env 0)
  · rw [if_neg hp]
    exact .inl ⟨rfl, Bool.not_eq_true _ ▸ hp, rfl⟩

theorem tickFlush_flushed (env : Env) : ∃ chunks, Flushed s (s.tickFlush env) chunks := by
  unfold tickFlush
  split
  · exact flushPending_flushed env _ s ‹_›
  · exact ⟨[], .refl s⟩

theorem quiet_tickEnd (env : Env) : Quiet s (s.tickEnd env) := by
  unfold tickEnd
  dsimp only
  split
  · exact (quiet_sendAck s env).trans (.of_eq rfl rfl rfl rfl rfl rfl)
  · exact .of_eq rfl rfl rfl rfl rfl rfl

theorem sendQueue_tickEnd (env : Env) : (s.tickEnd env).sendQueue = s.sendQueue := by
  unfold tickEnd
  dsimp only
  split <;> rfl

/-- **A tick** takes a number for a pending FIN, cuts pending bytes into packets, and does
nothing else to the streams.  The packets cut are those it appends to the send queue. -/
theorem processTick_spec (env : Env) : ∃ s₁ s₂ chunks,
    (s₁ = s ∨ FinTaken s s₁) ∧ Flushed s₁ s₂ chunks ∧ Quiet s₂ (s.processTick env) ∧
      ((s.processTick env).sendQueue.drop s.sendQueue.length).map OutPacket.payload = chunks := by
  unfold processTick
  split
  · exact ⟨s, s, [], .inl rfl, .refl s, .refl s, by simp⟩
  · rename_i ho
    have hfin := flushFin_spec ho env
    have hqueue : (s.flushFin env).1.sendQueue = s.sendQueue := by
      rcases hfin with ⟨he, -⟩ | h
      · rw [he]
      · exact h.queue
    have hstep : (s.flushFin env).1 = s ∨ FinTaken s (s.flushFin env).1 := by
      rcases hfin with ⟨he, -⟩ | h
      · exact .inl he
      · exact .inr h
    dsimp only
    generalize s.flushFin env = r at *
    split
    · exact ⟨r.1, r.1, [], hstep, .refl _, .refl _, by simp [hqueue]⟩
    · split
      · have hq := quiet_handleTimeout r.1 env
        refine ⟨r.1, r.1, [], hstep, .refl _, hq, ?_⟩
        rw [List.drop_eq_nil_of_le (hqueue ▸ hq.length), List.map_nil]
      · obtain ⟨chunks, hf⟩ := tickFlush_flushed r.1 env
        refine ⟨r.1, _, chunks, hstep, hf, quiet_tickEnd _ env, ?_⟩
        obtain ⟨ops, hops, hmap⟩ := hf.queue
        rw [sendQueue_tickEnd, hops, hqueue, List.drop_left, hmap]

end XferRust.Utp
