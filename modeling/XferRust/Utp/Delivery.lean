import XferRust.Utp.Receiver

/-! # Runs of the link

`LinkOk` collects what holds of both ends in every state of a run that stays near the
acknowledgements, drains its reorder buffers from the least key and takes FIN after the data.
While the initiator waits for the answer to its SYN nothing has happened yet (`Waiting`); from
the answer on, both directions satisfy `RecvOk`.
-/
namespace XferRust.Utp
open UtpConnection SerialNumber

/-- An end that has received nothing. -/
structure Idle (p : Peer) : Prop where
  rcvd : p.rcvd = 0
  handed : p.handed = []
  recvOut : p.conn.recvOut = []
  reorder : p.conn.recvReorder.entries = []
  eof : p.conn.eof = false

/-- The initiator's SYN is unanswered. -/
structure Waiting (l : Link) : Prop where
  synSent : l.a.conn.state = .synSent
  logA : l.a.log = []
  finA : l.a.finAt = none
  logB : l.b.log = []
  stateB : l.b.conn.state ≠ .connected

/-- **The invariant of the link.** -/
structure LinkOk (l : Link) : Prop where
  sendA : SendOk l.a
  sendB : SendOk l.b
  lastA : FinLast l.a
  lastB : FinLast l.b
  toB : RecvOk l.a l.b
  stateB : l.b.conn.state ≠ .synSent
  toA : l.a.conn.state ≠ .synSent ∧ RecvOk l.b l.a ∨
    Idle l.a ∧ (l.a.conn.state = .closed ∨ Waiting l)

variable {p : Peer}

theorem Idle.local_ {p' : Peer} (h : Idle p) (hl : Local p p') : Idle p' := by
  have hs := hl.stream
  rw [h.handed, h.recvOut, List.append_nil, List.append_eq_nil_iff] at hs
  exact ⟨hl.rcvd.trans h.rcvd, hs.1, hs.2, by rw [hl.reorder]; exact h.reorder,
    hl.eof.trans h.eof⟩

theorem FinLast.of_eq {p' : Peer} (h : FinLast p) (hlog : p'.log = p.log)
    (hfin : p'.finAt = p.finAt) : FinLast p' := fun f hf => hlog ▸ h f (hfin ▸ hf)

theorem SendOk.receive (h : SendOk p) (peerIsn : UInt16) (env : Env) (pkt : List UInt8) :
    SendOk (p.receive peerIsn env pkt) := by
  refine h.of_sendQuiet (sendQuiet_handlePacket p.conn pkt env) (fun hs => ?_) rfl rfl rfl rfl rfl
  rcases state_handlePacket p.conn pkt env with he | he | ⟨he, -⟩
  · exact he.symm.trans hs
  · exact absurd (he.symm.trans hs) (by decide)
  · exact absurd (he.symm.trans hs) (by decide)

/-- What a local act leaves of the state an end must not be in. -/
theorem Local.state_ne {p' : Peer} (hl : Local p p') (h : p.conn.state ≠ .synSent) :
    p'.conn.state ≠ .synSent := by
  rcases hl.state with hs | hs | ⟨hs, -⟩
  · exact hs ▸ h
  · rw [hs]
    decide
  · rw [hs]
    decide

/-- **One step** of the link is a local act of one end, or the arrival of a datagram that the
other end has sent. -/
theorem step_cases {l l' : Link} {s : Side} {act : Act} (h : l.step (s, act) = some l') :
    (∃ p', l' = l.set s p' ∧
      (SendOk (l.get s) → l.FinAfterData (s, act) → SendOk p' ∧ Local (l.get s) p')) ∨
    (∃ env pkt, act = .receive env pkt ∧ l.listening s = true ∧ pkt ∈ (l.get s.other).wire ∧
      l' = l.set s ((l.get s).receive (l.get s.other).isn env pkt)) := by
  obtain ⟨hen, rfl⟩ := Link.step_eq_some.mp h
  cases act with
  | write data => exact .inl ⟨_, rfl, fun hs _ => ⟨hs.write data, local_write _ data⟩⟩
  | read len => exact .inl ⟨_, rfl, fun hs _ => ⟨hs.read len, local_read _ len⟩⟩
  | close => exact .inl ⟨_, rfl, fun hs _ => ⟨hs.close, local_close _⟩⟩
  | tick env => exact .inl ⟨_, rfl, fun hs hd => ⟨hs.tick env, local_tick hs env (hd rfl)⟩⟩
  | drain => exact .inl ⟨_, rfl, fun hs _ => ⟨hs.drain, local_drain _⟩⟩
  | receive env pkt =>
    simp only [Link.enabled, Bool.and_eq_true, decide_eq_true_eq] at hen
    exact .inr ⟨env, pkt, rfl, hen.1, hen.2, rfl⟩

/-! ## The beginning -/

theorem sendOk_start {c : UtpConnection} (hp : c.pendingSend = []) (hq : c.sendQueue = [])
    (hfp : c.finPending = false) (hfs : c.finSent = false) (hst : c.state ≠ .finSent)
    (ho : ∀ q ∈ c.outbox, Sent (.start c) q) : SendOk (.start c) where
  seq := (nth_zero _).symm
  cut := hp
  queue op hop := by
    rw [show (Peer.start c).conn.sendQueue = [] from hq] at hop
    cases hop
  pend h := by
    rw [show (Peer.start c).conn.finPending = false from hfp] at h
    cases h
  fin := hfs
  finSeq f hf := by cases hf
  finState h := absurd h hst
  sent q hmem := by
    rcases hmem with hmem | hmem
    · exact ho q hmem
    · cases hmem

theorem finLast_start (c : UtpConnection) : FinLast (.start c) := fun f hf => by cases hf

theorem linkOk_start (idBytes seqBytes : UInt16) (env : Env) :
    LinkOk (.start idBytes seqBytes env) where
  sendA := by
    have hst : UtpState.synSent ≠ .finSent := by decide
    refine sendOk_start rfl rfl rfl rfl hst fun q hq => ?_
    rw [List.mem_singleton.mp hq]
    exact .syn _ (carries_controlPacket _ rfl env 0)
  sendB := by
    have hst : UtpState.synRecv ≠ .finSent := by decide
    refine sendOk_start rfl rfl rfl rfl hst fun q hq => ?_
    rw [List.mem_singleton.mp hq]
    refine .state 0 (Nat.le_refl _) ?_
    rw [nth_zero]
    exact carries_controlPacket _ rfl env 0
  lastA := finLast_start _
  lastB := finLast_start _
  toB := ⟨rfl, rfl, fun e he => (by cases he), nofun, .inl (Nat.le_refl _)⟩
  stateB := show UtpState.synRecv ≠ .synSent by decide
  toA := .inr ⟨⟨rfl, rfl, rfl, rfl, rfl⟩,
    .inr ⟨rfl, rfl, rfl, rfl, show UtpState.synRecv ≠ .connected by decide⟩⟩

/-! ## Local acts -/

namespace LinkOk

variable {l : Link}

theorem localA (h : LinkOk l) {p' : Peer} (hs : SendOk p') (hl : Local l.a p') :
    LinkOk { l with a := p' } where
  sendA := hs
  sendB := h.sendB
  lastA := hl.last h.lastA
  lastB := h.lastB
  toB := h.toB.sender_local hl
  stateB := h.stateB
  toA := by
    rcases h.toA with ⟨hst, hr⟩ | ⟨hi, hc | hw⟩
    · exact .inl ⟨hl.state_ne hst, hr.receiver_local hl⟩
    · refine .inr ⟨hi.local_ hl, .inl ?_⟩
      rcases hl.state with hs | hs | ⟨-, -, hne⟩
      · exact hs.trans hc
      · exact hs
      · exact absurd hc hne
    · refine .inr ⟨hi.local_ hl, ?_⟩
      rcases hl.state with hs | hs | ⟨-, hne, -⟩
      · have hsyn : p'.conn.state = .synSent := hs.trans hw.synSent
        refine .inr ⟨hsyn, ?_, (hl.unanswered hsyn).trans hw.finA, hw.logB, hw.stateB⟩
        rcases hl.cut with hlog | hcon
        · exact hlog.trans hw.logA
        · exact absurd (hw.synSent.symm.trans hcon) (by decide)
      · exact .inl hs
      · exact absurd hw.synSent hne

theorem localB (h : LinkOk l) {p' : Peer} (hs : SendOk p') (hl : Local l.b p') :
    LinkOk { l with b := p' } where
  sendA := h.sendA
  sendB := hs
  lastA := h.lastA
  lastB := hl.last h.lastB
  toB := h.toB.receiver_local hl
  stateB := hl.state_ne h.stateB
  toA := by
    rcases h.toA with ⟨hst, hr⟩ | ⟨hi, hc | hw⟩
    · exact .inl ⟨hst, hr.sender_local hl⟩
    · exact .inr ⟨hi, .inl hc⟩
    · refine .inr ⟨hi, .inr ⟨hw.synSent, hw.logA, hw.finA, ?_, ?_⟩⟩
      · rcases hl.cut with hlog | hcon
        · exact hlog.trans hw.logB
        · exact absurd hcon hw.stateB
      · rcases hl.state with hs | hs | ⟨hs, -⟩
        · exact hs ▸ hw.stateB
        · rw [hs]
          decide
        · rw [hs]
          decide

/-! ## Arrivals -/

variable {pkt : List UInt8} {env : Env}

/-- The conditions on an arriving datagram, spelt out. -/
theorem arrival_conditions {s : Side} (hwin : l.InWindow (s, .receive env pkt))
    (hdrain : l.DrainsFromFirst (s, .receive env pkt)) {hdr : PacketHeader} {exts : List Extension}
    {off : Nat} (hp : parsePacket pkt = some (hdr, exts, off)) :
    (hdr.type_ = stData →
      Link.NearData (l.get s.other) (l.get s).rcvd hdr.seqNr (pkt.drop off)) ∧
    (hdr.type_ = stFin → ∀ f ∈ (l.get s.other).finAt, Link.Near (l.get s).rcvd f) ∧
    (hdr.type_ = stData → hdr.seqNr = (l.get s).conn.ack + 1 → pkt.drop off ≠ [] →
      hdr.seqNr + 1 ∈ (l.get s).conn.recvReorder.keys →
        (l.get s).conn.recvReorder.first?.map Prod.fst = some (hdr.seqNr + 1)) := by
  have hr := Act.arriving_receive env hp
  exact ⟨(hwin _ hr).1, (hwin _ hr).2, hdrain _ hr⟩

/-- An arrival at an end that has been answered. -/
theorem arrived (h : SendOk (l.get s.other)) (hlast : FinLast (l.get s.other))
    (hr : RecvOk (l.get s.other) (l.get s)) (hst : (l.get s).conn.state ≠ .synSent)
    (hmem : pkt ∈ (l.get s.other).wire) (hwin : l.InWindow (s, .receive env pkt))
    (hdrain : l.DrainsFromFirst (s, .receive env pkt)) :
    Arrived (l.get s.other) (l.get s) ((l.get s).receive (l.get s.other).isn env pkt) :=
  hr.receive hst hlast (h.sent pkt (.inr hmem))
    (fun _ _ _ hp => (arrival_conditions hwin hdrain hp).1)
    (fun _ _ _ hp => (arrival_conditions hwin hdrain hp).2.1)
    (fun _ _ _ hp => (arrival_conditions hwin hdrain hp).2.2)

/-- After an answer no end waits for one again. -/
theorem receive_state_ne {p : Peer} (h : p.conn.state ≠ .synSent) (peerIsn : UInt16) (env : Env)
    (pkt : List UInt8) : (p.receive peerIsn env pkt).conn.state ≠ .synSent := by
  rcases state_handlePacket p.conn pkt env with hs | hs | ⟨hs, -⟩
  · exact fun he => h (hs.symm.trans he)
  · exact fun he => absurd (hs.symm.trans he) (by decide)
  · exact fun he => absurd (hs.symm.trans he) (by decide)

theorem arriveB (h : LinkOk l) (hmem : pkt ∈ l.a.wire) (hwin : l.InWindow (.b, .receive env pkt))
    (hdrain : l.DrainsFromFirst (.b, .receive env pkt)) :
    LinkOk { l with b := l.b.receive l.a.isn env pkt } where
  sendA := h.sendA
  sendB := h.sendB.receive _ env pkt
  lastA := h.lastA
  lastB := h.lastB.of_eq rfl rfl
  toB := (arrived (s := .b) h.sendA h.lastA h.toB h.stateB hmem hwin hdrain).ok
  stateB := receive_state_ne h.stateB _ env pkt
  toA := by
    rcases h.toA with ⟨hst, hr⟩ | ⟨hi, hc | hw⟩
    · exact .inl ⟨hst, hr.sender_eq rfl rfl rfl⟩
    · exact .inr ⟨hi, .inl hc⟩
    · -- the initiator has sent nothing but control packets, which establish nothing here
      refine .inr ⟨hi, .inr ⟨hw.synSent, hw.logA, hw.finA, hw.logB, ?_⟩⟩
      have hctl : ∃ hdr exts off, parsePacket pkt = some (hdr, exts, off) ∧
          (hdr.type_ = stSyn ∨ hdr.type_ = stState ∧ l.b.conn.state ≠ .synSent) := by
        cases h.sendA.sent pkt (.inr hmem) with
        | data i payload hpay hq =>
          rw [hw.logA] at hpay
          cases hpay
        | fin f hf hq =>
          rw [hw.finA] at hf
          cases hf
        | state j hj hq =>
          obtain ⟨hdr, exts, off, hp, ht, -⟩ := hq
          exact ⟨hdr, exts, off, hp, .inr ⟨ht, h.stateB⟩⟩
        | syn n hq =>
          obtain ⟨hdr, exts, off, hp, ht, -⟩ := hq
          exact ⟨hdr, exts, off, hp, .inl ht⟩
      obtain ⟨hdr, exts, off, hp, ht⟩ := hctl
      rcases (quiet_handlePacket_control hp ht env).state with hs | hs
      · exact fun he => hw.stateB (hs.symm.trans he)
      · exact fun he => absurd (hs.symm.trans he) (by decide)

/-- The first answer fixes the count: `ack` is number `r - 1` of the peer, which has cut no
data yet. -/
theorem recvOk_answered {snd rcv : Peer} {ack : UInt16} {r : Nat} (hi : Idle rcv)
    (hlog : snd.log = []) (hst : rcv.conn.state = .synSent)
    (hst' : (rcv.conn.handlePacket pkt env).state ≠ .synSent)
    (hview : (rcv.conn.handlePacket pkt env).recvView = ⟨ack, [], rcv.conn.recvReorder, false⟩)
    (hack : ack + 1 = nth snd.isn r) (hr : r < 65536) (hb : r = 0 ∨ snd.finAt.isSome = true) :
    (rcv.receive snd.isn env pkt).rcvd = r ∧ RecvOk snd (rcv.receive snd.isn env pkt) := by
  have hnew : (rcv.conn.handlePacket pkt env).ack + 1 = nth snd.isn r :=
    (congrArg (RecvView.ack · + 1) hview).trans hack
  have hcount : (rcv.receive snd.isn env pkt).rcvd = r := by
    have hsub := toNat_sub snd.isn (Nat.zero_le r) hr
    rw [nth_zero] at hsub
    simp only [Peer.receive, Peer.rcvdAfter, if_pos hst, if_neg hst', hnew]
    exact hsub
  refine ⟨hcount, ?_, ?_, ?_, ?_, ?_⟩
  · rw [hcount]
    exact hnew
  · rw [hlog, List.take_nil, List.flatten_nil,
      show (rcv.receive snd.isn env pkt).handed = [] from hi.handed,
      show (rcv.receive snd.isn env pkt).conn.recvOut = [] from congrArg RecvView.recvOut hview]
    rfl
  · rw [show (rcv.receive snd.isn env pkt).conn.recvReorder = rcv.conn.recvReorder from
      congrArg RecvView.recvReorder hview, hi.reorder]
    intro e he
    cases he
  · rw [show (rcv.receive snd.isn env pkt).conn.eof = false from congrArg RecvView.eof hview]
    intro he
    cases he
  · rw [hcount]
    rcases hb with rfl | hb
    · exact .inl (Nat.zero_le _)
    · exact .inr hb

/-- An arrival at the waiting initiator: the answer to its SYN, a FIN without data before it,
or nothing. -/
theorem arriveA_waiting (h : LinkOk l) (hi : Idle l.a) (hw : Waiting l) (env : Env)
    (hmem : pkt ∈ l.b.wire) :
    (l.a.receive l.b.isn env pkt).conn.state ≠ .synSent ∧
        RecvOk l.b (l.a.receive l.b.isn env pkt) ∧
        (l.AnsweredFirst (.a, .receive env pkt) → (l.a.receive l.b.isn env pkt).rcvd = 0) ∨
      Idle (l.a.receive l.b.isn env pkt) ∧
        (l.a.receive l.b.isn env pkt).conn.state = .synSent := by
  have hstate : ∀ {c : UtpConnection}, c.state = .connected →
      Quiet c (l.a.conn.handlePacket pkt env) →
      (l.a.conn.handlePacket pkt env).state ≠ .synSent := by
    intro c hc hq
    rcases hq.state with hs | hs
    · rw [hs, hc]
      decide
    · rw [hs]
      decide
  cases h.sendB.sent pkt (.inr hmem) with
  | data i payload hpay hq =>
    rw [hw.logB] at hpay
    cases hpay
  | syn n hq =>
    obtain ⟨hdr, exts, off, hp, ht, -⟩ := hq
    have hq := quiet_handlePacket_control (s := l.a.conn) hp (.inl ht) env
    have hs : (l.a.receive l.b.isn env pkt).conn.state = .synSent :=
      (state_handlePacket_syn hp ht env).trans hw.synSent
    refine .inr ⟨⟨?_, hi.handed, hq.recvOut.trans hi.recvOut, ?_, hq.eof.trans hi.eof⟩, hs⟩
    · refine Eq.trans ?_ hi.rcvd
      rw [Peer.receive, Peer.rcvdAfter, if_pos hw.synSent]
      exact if_pos hs
    · exact (congrArg SortedMap.entries hq.recvReorder).trans hi.reorder
  | state j hj hq =>
    obtain rfl : j = 0 := by
      rw [hw.logB] at hj
      exact Nat.le_zero.mp hj
    obtain ⟨hdr, exts, off, hp, ht, hseq, -⟩ := hq
    have harr := quiet_onArrival l.a.conn hdr env
    have hsyn := (state_onArrival l.a.conn hdr env).trans hw.synSent
    obtain ⟨hc, hv⟩ := received_synAck hsyn ht (pkt.drop off)
    have hq := quiet_handlePacket (s := l.a.conn) hp (by rw [ht]; decide) env
    have hview := hq.recv.trans hv
    have hne := hstate hc hq
    have hack : hdr.seqNr - 1 + 1 = nth l.b.isn 0 := by
      rw [hseq]
      grind
    rw [harr.recvOut, harr.recvReorder, harr.eof, hi.recvOut, hi.eof] at hview
    obtain ⟨hr, hok⟩ := recvOk_answered hi hw.logB hw.synSent hne hview hack (by decide)
      (.inl rfl)
    exact .inl ⟨hne, hok, fun _ => hr⟩
  | fin f hf hq =>
    obtain rfl : f = 0 := (h.lastB f hf).trans (congrArg List.length hw.logB)
    obtain ⟨hdr, exts, off, hp, ht, hseq, -⟩ := hq
    have harr := quiet_onArrival l.a.conn hdr env
    have hsyn := (state_onArrival l.a.conn hdr env).trans hw.synSent
    obtain ⟨hc, hv⟩ := received_fin_unanswered hsyn ht (pkt.drop off)
    have hq := quiet_handlePacket (s := l.a.conn) hp (by rw [ht]; decide) env
    have hview := hq.recv.trans hv
    have hne := hstate hc hq
    have hack : hdr.seqNr + 1 = nth l.b.isn 1 := by rw [hseq, nth_succ]
    rw [harr.recvOut, harr.recvReorder, harr.eof, hi.recvOut, hi.eof] at hview
    obtain ⟨-, hok⟩ := recvOk_answered hi hw.logB hw.synSent hne hview hack (by decide)
      (.inr (by rw [hf]; rfl))
    refine .inl ⟨hne, hok, fun hfirst => ?_⟩
    exact absurd ht (hfirst _ (Act.arriving_receive env hp) hw.synSent).2

theorem arriveA (h : LinkOk l) (hlisten : l.listening .a = true) (hmem : pkt ∈ l.b.wire)
    (hwin : l.InWindow (.a, .receive env pkt)) (hdrain : l.DrainsFromFirst (.a, .receive env pkt)) :
    LinkOk { l with a := l.a.receive l.b.isn env pkt } where
  sendA := h.sendA.receive _ env pkt
  sendB := h.sendB
  lastA := h.lastA.of_eq rfl rfl
  lastB := h.lastB
  toB := h.toB.sender_eq rfl rfl rfl
  stateB := h.stateB
  toA := by
    rcases h.toA with ⟨hst, hr⟩ | ⟨hi, hc | hw⟩
    · exact .inl ⟨receive_state_ne hst _ env pkt,
        (arrived (s := .a) h.sendB h.lastB hr hst hmem hwin hdrain).ok⟩
    · simp [Link.listening, Link.get, UtpConnection.isClosed, hc] at hlisten
    · rcases h.arriveA_waiting hi hw env hmem with ⟨hst, hr, -⟩ | ⟨hi', hst⟩
      · exact .inl ⟨hst, hr⟩
      · exact .inr ⟨hi', .inr ⟨hst, hw.logA, hw.finA, hw.logB, hw.stateB⟩⟩

/-- **One step keeps the invariant.** -/
theorem step {l' : Link} {e : Side × Act} (h : LinkOk l) (hwin : l.InWindow e)
    (hdrain : l.DrainsFromFirst e) (hafter : l.FinAfterData e) (hs : l.step e = some l') :
    LinkOk l' := by
  obtain ⟨side, act⟩ := e
  rcases step_cases hs with ⟨p', rfl, hp⟩ | ⟨env, pkt, rfl, hlisten, hmem, rfl⟩
  · cases side with
    | a =>
      obtain ⟨hsend, hl⟩ := hp h.sendA hafter
      exact h.localA hsend hl
    | b =>
      obtain ⟨hsend, hl⟩ := hp h.sendB hafter
      exact h.localB hsend hl
  · cases side with
    | a => exact h.arriveA hlisten hmem hwin hdrain
    | b => exact h.arriveB hmem hwin hdrain

end LinkOk

end XferRust.Utp
