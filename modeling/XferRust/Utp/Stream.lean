import XferRust.Utp.Delivery

/-! # Stream safety, close and acknowledgement

The three properties an application relies on, for every run whose steps meet the conditions
of `Link`, and for each of them a run outside those conditions in which the code breaks it:
the reorder buffer compares wrapping numbers as plain ones, FIN takes its number before the
pending data is cut, and a packet that overtakes the answer to the SYN is acknowledged but not
delivered.
-/
namespace XferRust.Utp
open UtpConnection SerialNumber

variable {l : Link} {p : Peer}

/-- The two ends satisfy the invariant in both directions. -/
theorem LinkOk.send (h : LinkOk l) (s : Side) : SendOk (l.get s) := by
  cases s
  · exact h.sendA
  · exact h.sendB

theorem LinkOk.last (h : LinkOk l) (s : Side) : FinLast (l.get s) := by
  cases s
  · exact h.lastA
  · exact h.lastB

/-- An end has either received from the other one or is idle. -/
theorem LinkOk.recv (h : LinkOk l) (s : Side) :
    RecvOk (l.get s.other) (l.get s) ∨ Idle (l.get s) := by
  cases s
  · rcases h.toA with ⟨-, hr⟩ | ⟨hi, -⟩
    · exact .inl hr
    · exact .inr hi
  · exact .inl h.toB

/-- The stream an end has received so far. -/
theorem LinkOk.stream (h : LinkOk l) (s : Side) :
    (l.get s).handed ++ (l.get s).conn.recvOut =
      ((l.get s.other).log.take (l.get s).rcvd).flatten := by
  rcases h.recv s with hr | hi
  · exact hr.stream
  · rw [hi.handed, hi.recvOut, hi.rcvd]
    rfl

/-- A prefix of the log is a prefix of what was written. -/
theorem SendOk.take_written (h : SendOk p) (n : Nat) : (p.log.take n).flatten <+: p.accepted := by
  rw [← h.cut]
  refine List.IsPrefix.trans ?_ (List.prefix_append _ _)
  conv => rhs; rw [← List.take_append_drop n p.log, List.flatten_append]
  exact List.prefix_append _ _

/-! ## Runs to look at -/

/-- Clock and wall clock at zero; the window never grows. -/
def still : Env := ⟨0, 0, fun _ _ _ _ => 0⟩

/-- A datagram without extensions, sent while the clock is still. -/
def datagram (type_ : UInt8) (connectionId : UInt16) (wndSize : UInt32) (seqNr ackNr : UInt16)
    (payload : List UInt8) : List UInt8 :=
  encodeHeader
    { type_, version := protocolVersion, extension := extNone, connectionId, timestamp := 0
      timestampDiff := 0, wndSize, seqNr, ackNr } ++ payload

/-- The responder's first number is 65533, and its SYN-ACK arrives. -/
def handshake : List (Side × Act) :=
  [(.a, .drain), (.b, .drain), (.a, .receive still (datagram stState 0 recvWindow 65533 1 []))]

/-- Both ends write; the responder's second packet overtakes its first one, across the wrap,
and the initiator reads. -/
def orderly : List (Side × Act) :=
  handshake ++
    [(Side.a, Act.write [1]), (.a, .tick still), (.a, .drain),
      (.b, .receive still (datagram stData 1 recvWindow 2 65532 [1])),
      (.b, .write [10]), (.b, .tick still), (.b, .write [11]), (.b, .tick still), (.b, .drain),
      (.a, .receive still (datagram stData 0 (recvWindow - 1) 65534 2 [11])),
      (.a, .receive still (datagram stData 0 (recvWindow - 1) 65533 2 [10])),
      (.a, .read 2)]

/-- After `orderly` the responder closes, and its FIN arrives. -/
def orderlyClose : List (Side × Act) :=
  orderly ++
    [(Side.b, Act.close), (.b, .tick still), (.b, .drain),
      (.a, .receive still (datagram stFin 0 (recvWindow - 1) 65535 2 []))]

/-! ## Stream safety -/

/-- What end `s` has received is the other end's stream: what it handed out is a prefix of
what was written, every byte comes once and in order, and every buffered packet lies beyond
the next one in order. -/
structure InOrder (l : Link) (s : Side) : Prop where
  written : (l.get s).handed <+: (l.get s.other).accepted
  once : (l.get s).handed ++ (l.get s).conn.recvOut =
    ((l.get s.other).log.take (l.get s).rcvd).flatten
  beyond : ∀ k ∈ (l.get s).conn.recvReorder.keys, seqAfter k ((l.get s).conn.ack + 1) = true

theorem LinkOk.inOrder (h : LinkOk l) (s : Side) : InOrder l s where
  written := by
    refine List.IsPrefix.trans ?_ ((h.send s.other).take_written (l.get s).rcvd)
    rw [← h.stream s]
    exact List.prefix_append _ _
  once := h.stream s
  beyond k hk := by
    obtain ⟨v, he⟩ := SortedMap.mem_keys.mp hk
    rcases h.recv s with hr | hi
    · obtain ⟨i, hlo, hhi, hkey, -⟩ := hr.reorder _ he
      rw [show k = nth (l.get s.other).isn i from hkey]
      exact seqAfter_ahead hr.ack hlo hhi
    · rw [hi.reorder] at he
      cases he

/-- An end whose application has not closed. -/
def Unclosed (p : Peer) : Prop := p.conn.finPending = false ∧ p.conn.finSent = false

theorem Unclosed.act (h : Unclosed p) (hs : SendOk p) (peerIsn : UInt16) {act : Act}
    (hn : act.isClose = false) : Unclosed (p.act peerIsn act) := by
  cases act with
  | write data =>
    simp only [Peer.act, Peer.write, UtpConnection.write]
    split <;> exact h
  | read len => exact h
  | close => cases hn
  | drain => exact h
  | receive env pkt =>
    have hq := sendQuiet_handlePacket p.conn pkt env
    exact ⟨hq.finPending.trans h.1, hq.finSent.trans h.2⟩
  | tick env =>
    obtain ⟨s₁, s₂, chunks, finAt, hstep, hf, hq, -⟩ := tick_spec hs env
    rcases hstep with ⟨rfl, -⟩ | ⟨ht, -⟩
    · exact ⟨hq.finPending.trans (hf.fin.2.1.trans h.1), hq.finSent.trans (hf.fin.1.trans h.2)⟩
    · exact absurd (h.1.symm.trans ht.pending) (by decide)

/-- A property of each end that every act of an end keeps is kept by every step. -/
theorem forall_get_step {P : Peer → Prop} {l' : Link} {e : Side × Act} (h : ∀ s, P (l.get s))
    (hact : P ((l.get e.1).act (l.get e.1.other).isn e.2)) (hs : l.step e = some l') :
    ∀ s, P (l'.get s) := by
  obtain ⟨-, rfl⟩ := Link.step_eq_some.mp hs
  obtain ⟨side, act⟩ := e
  intro s
  cases side <;> cases s
  · exact hact
  · exact h .b
  · exact h .a
  · exact hact

/-- **Stream safety.**  In every run of two ends that do not close, with every arriving packet
near the acknowledgement, and with the reorder buffer drained only when the packet to drain
has its least key, both ends receive the other's stream in order. -/
theorem run_inOrder {idBytes seqBytes : UInt16} {env : Env} {es : List (Side × Act)} {l : Link}
    (hrun : Link.run (.start idBytes seqBytes env) es = some l)
    (hclose : ∀ e ∈ es, Link.NoClose e)
    (hwin : StepRun.Along Link.step Link.InWindow (.start idBytes seqBytes env) es)
    (hdrain : StepRun.Along Link.step Link.DrainsFromFirst (.start idBytes seqBytes env) es)
    (s : Side) : InOrder l s := by
  have hinv : LinkOk l ∧ ∀ s, Unclosed (l.get s) := by
    refine StepRun.run_invariant (I := fun l => LinkOk l ∧ ∀ s, Unclosed (l.get s))
      (P := fun l e => (Link.NoClose e ∧ l.InWindow e) ∧ l.DrainsFromFirst e) ?_ ?_ ?_ hrun
    · rintro l e l' ⟨hl, hu⟩ ⟨⟨hn, hw⟩, hd⟩ hs
      have hafter : l.FinAfterData e := fun _ hp => by
        rw [(hu e.1).1, (hu e.1).2] at hp
        rcases hp with hp | hp <;> cases hp
      exact ⟨hl.step hw hd hafter hs,
        forall_get_step hu ((hu e.1).act (hl.send e.1) _ hn) hs⟩
    · refine ⟨linkOk_start idBytes seqBytes env, fun s => ?_⟩
      cases s <;> exact ⟨rfl, rfl⟩
    · exact ((StepRun.along_of_forall hclose).and hwin).and hdrain
  exact hinv.1.inOrder s

theorem orderly_inOrder :
    InOrder ((Link.run (.start 0 65533 still) orderly).get (by decide +kernel)) .a :=
  run_inOrder (Option.some_get _).symm (by decide +kernel) (by decide +kernel)
    (by decide +kernel) .a

/-- The responder sends 65533, 65534, 65535 and 0; the second, the fourth and the first
arrive in this order. -/
def straddle : List (Side × Act) :=
  handshake ++
    [(Side.a, Act.write [1]), (.a, .tick still), (.a, .drain),
      (.b, .receive still (datagram stData 1 recvWindow 2 65532 [1])),
      (.b, .write [10]), (.b, .tick still), (.b, .write [11]), (.b, .tick still),
      (.b, .write [12]), (.b, .tick still), (.b, .write [13]), (.b, .tick still), (.b, .drain),
      (.a, .receive still (datagram stData 0 (recvWindow - 1) 65534 2 [11])),
      (.a, .receive still (datagram stData 0 (recvWindow - 1) 0 2 [13])),
      (.a, .receive still (datagram stData 0 (recvWindow - 1) 65533 2 [10]))]

/-- The least key is 0, so 65534 stays buffered although it is next. -/
theorem straddle_not_inOrder : ∃ l, Link.run (.start 0 65533 still) straddle = some l ∧
    (∀ e ∈ straddle, Link.NoClose e) ∧
    StepRun.Along Link.step Link.InWindow (.start 0 65533 still) straddle ∧
    ¬ InOrder l .a := by
  refine ⟨(Link.run (.start 0 65533 still) straddle).get (by decide +kernel),
    (Option.some_get _).symm, by decide +kernel, by decide +kernel, fun h => ?_⟩
  have hstuck := h.beyond 65534 (by decide +kernel)
  exact absurd hstuck (by decide +kernel)

/-! ## Close -/

/-- What an end of stream means for end `s`: all that was written has arrived, and no DATA
packet was cut after the FIN, so none shares its number. -/
structure CloseSafe (l : Link) (s : Side) : Prop where
  eof : (l.get s).conn.eofReceived = true →
    (l.get s).handed ++ (l.get s).conn.recvOut = (l.get s.other).accepted
  fin : ∀ f, (l.get s.other).finAt = some f → (l.get s.other).log.length ≤ f

/-- Once FIN is sent nothing is left to cut. -/
def FinDone (p : Peer) : Prop := p.conn.finSent = true → p.conn.pendingSend = []

theorem LinkOk.closeSafe (h : LinkOk l) {s : Side} (hd : FinDone (l.get s.other)) :
    CloseSafe l s where
  eof heof := by
    have he : (l.get s).conn.eof = true := by
      rw [eofReceived, Bool.and_eq_true, Bool.and_eq_true] at heof
      exact heof.1.1
    rcases h.recv s with hr | hi
    · obtain ⟨f, hf, hlt⟩ := hr.eof he
      have hlen := h.last s.other f hf
      have hdone := hd ((h.send s.other).fin.trans (by rw [hf]; rfl))
      have hcut := (h.send s.other).cut
      rw [hdone, List.append_nil] at hcut
      rw [hr.stream, List.take_of_length_le (by omega)]
      exact hcut
    · rw [hi.eof] at he
      cases he
  fin f hf := Nat.le_of_eq (h.last s.other f hf).symm

theorem FinDone.act (h : FinDone p) (hs : SendOk p) (peerIsn : UInt16) {act : Act}
    (hwrite : act.isWrite = true → p.conn.finPending = false ∧ p.conn.finSent = false)
    (htick : act.isTick = true → p.conn.finPending = true → p.conn.pendingSend = []) :
    FinDone (p.act peerIsn act) := by
  cases act with
  | write data =>
    have hn := (hwrite rfl).2
    intro hf
    have hsame : (p.act peerIsn (.write data)).conn.finSent = p.conn.finSent := by
      simp only [Peer.act, Peer.write, UtpConnection.write]
      split <;> rfl
    exact absurd (hn.symm.trans (hsame.symm.trans hf)) (by decide)
  | read len => exact h
  | close =>
    simp only [Peer.act, Peer.close, UtpConnection.close]
    split
    · exact h
    · split <;> exact h
  | drain => exact h
  | receive env pkt =>
    have hq := sendQuiet_handlePacket p.conn pkt env
    exact fun hf => hq.pendingSend.trans (h (hq.finSent.symm.trans hf))
  | tick env =>
    obtain ⟨s₁, s₂, chunks, finAt, hstep, hf, hq, -⟩ := tick_spec hs env
    have hrest : s₁.pendingSend = [] → (p.tick env).conn.pendingSend = [] := by
      intro hnil
      have hp := hf.pending
      rw [hnil, eq_comm, List.append_eq_nil_iff] at hp
      exact hq.pendingSend.trans hp.2
    rcases hstep with ⟨rfl, -⟩ | ⟨ht, -⟩
    · exact fun hfin => hrest (h (hf.fin.1.symm.trans (hq.finSent.symm.trans hfin)))
    · exact fun _ => hrest ((congrArg SendView.pendingSend ht.send).trans (htick rfl ht.pending))

/-- **Close loses no data.**  In every run in which no application writes after it has closed,
FIN takes its number only when nothing is left to cut, packets arrive near the
acknowledgement and the reorder buffer drains from its least key, an end of stream means that
everything has arrived. -/
theorem run_closeSafe {idBytes seqBytes : UInt16} {env : Env} {es : List (Side × Act)} {l : Link}
    (hrun : Link.run (.start idBytes seqBytes env) es = some l)
    (hwrite : StepRun.Along Link.step Link.NoWriteAfterClose (.start idBytes seqBytes env) es)
    (hfin : StepRun.Along Link.step Link.FinWhenFlushed (.start idBytes seqBytes env) es)
    (hwin : StepRun.Along Link.step Link.InWindow (.start idBytes seqBytes env) es)
    (hdrain : StepRun.Along Link.step Link.DrainsFromFirst (.start idBytes seqBytes env) es)
    (s : Side) : CloseSafe l s := by
  have hinv : LinkOk l ∧ ∀ s, FinDone (l.get s) := by
    refine StepRun.run_invariant (I := fun l => LinkOk l ∧ ∀ s, FinDone (l.get s))
      (P := fun l e => (l.NoWriteAfterClose e ∧ l.FinWhenFlushed e) ∧
        l.InWindow e ∧ l.DrainsFromFirst e) ?_ ?_ ?_ hrun
    · rintro l e l' ⟨hl, hd⟩ ⟨⟨hn, hf⟩, hw, hdr⟩ hs
      have hafter : l.FinAfterData e := by
        rintro ht (hp | hp)
        · exact hf ht hp
        · exact hd e.1 hp
      exact ⟨hl.step hw hdr hafter hs,
        forall_get_step hd ((hd e.1).act (hl.send e.1) _ hn hf) hs⟩
    · refine ⟨linkOk_start idBytes seqBytes env, fun s => ?_⟩
      cases s <;> exact fun _ => rfl
    · exact (hwrite.and hfin).and (hwin.and hdrain)
  exact hinv.1.closeSafe (hinv.2 s.other)

theorem orderlyClose_closeSafe :
    CloseSafe ((Link.run (.start 0 65533 still) orderlyClose).get (by decide +kernel)) .a :=
  run_closeSafe (Option.some_get _).symm (by decide +kernel) (by decide +kernel)
    (by decide +kernel) (by decide +kernel) .a

/-- One byte is written and the connection closed before the next tick. -/
def earlyFin : List (Side × Act) :=
  handshake ++
    [(Side.a, Act.write [1]), (.a, .close), (.a, .tick still), (.a, .drain),
      (.b, .receive still (datagram stFin 1 recvWindow 2 65532 []))]

/-- FIN has taken the number of the first DATA packet, and its arrival ends the stream. -/
theorem earlyFin_not_closeSafe : ∃ l, Link.run (.start 0 65533 still) earlyFin = some l ∧
    StepRun.Along Link.step Link.NoWriteAfterClose (.start 0 65533 still) earlyFin ∧
    ¬ CloseSafe l .b := by
  refine ⟨(Link.run (.start 0 65533 still) earlyFin).get (by decide +kernel),
    (Option.some_get _).symm, by decide +kernel, fun h => ?_⟩
  have hall := h.eof (by decide +kernel)
  exact absurd hall (by decide +kernel)

/-! ## Acknowledgement -/

/-- What end `s` acknowledges it has: the count `rcvd` is `ack` without wrapping, every DATA
packet below it is part of the stream in its place, and a FIN below it is noted. -/
structure AckDelivered (l : Link) (s : Side) : Prop where
  count : 0 < (l.get s).rcvd →
    (l.get s).conn.ack + 1 = nth (l.get s.other).isn (l.get s).rcvd
  data : ∀ i payload, i < (l.get s).rcvd → (l.get s.other).log[i]? = some payload →
    ((l.get s.other).log.take i).flatten ++ payload <+:
      (l.get s).handed ++ (l.get s).conn.recvOut
  fin : ∀ f, (l.get s.other).finAt = some f → f < (l.get s).rcvd → (l.get s).conn.eof = true

theorem LinkOk.ackDelivered (h : LinkOk l) {s : Side} (he : EofOk (l.get s.other) (l.get s)) :
    AckDelivered l s where
  count hpos := by
    rcases h.recv s with hr | hi
    · exact hr.ack
    · rw [hi.rcvd] at hpos
      cases hpos
  data i payload hi hpay := by
    rw [h.stream s, ← flatten_take_succ hpay]
    have htake : (l.get s.other).log.take (i + 1) =
        ((l.get s.other).log.take (l.get s).rcvd).take (i + 1) := by
      rw [List.take_take, Nat.min_eq_left hi]
    rw [htake]
    conv => rhs; rw [← List.take_append_drop (i + 1) (List.take _ _), List.flatten_append]
    exact List.prefix_append _ _
  fin f hf hlt := by
    have hlen := h.last s.other f hf
    rcases he with hle | heof
    · omega
    · exact heof

/-- A step keeps `EofOk` in both directions if no packet overtakes the answer to the SYN. -/
theorem LinkOk.step_eofOk {l' : Link} {e : Side × Act} (h : LinkOk l)
    (he : EofOk l.a l.b ∧ EofOk l.b l.a) (hwin : l.InWindow e) (hdrain : l.DrainsFromFirst e)
    (hafter : l.FinAfterData e) (hfirst : l.AnsweredFirst e) (hs : l.step e = some l') :
    EofOk l'.a l'.b ∧ EofOk l'.b l'.a := by
  have hsnd : ∀ {snd snd' rcv : Peer}, Local snd snd' → EofOk snd rcv → EofOk snd' rcv :=
    fun hl h => h.imp_left fun hle => Nat.le_trans hle hl.log.length_le
  obtain ⟨side, act⟩ := e
  rcases step_cases hs with ⟨p', rfl, hp⟩ | ⟨env, pkt, rfl, hlisten, hmem, rfl⟩
  · cases side with
    | a =>
      obtain ⟨-, hl⟩ := hp h.sendA hafter
      exact ⟨hsnd hl he.1, he.2.of_eq hl.rcvd hl.eof⟩
    | b =>
      obtain ⟨-, hl⟩ := hp h.sendB hafter
      exact ⟨he.1.of_eq hl.rcvd hl.eof, hsnd hl he.2⟩
  · cases side with
    | b => exact ⟨(LinkOk.arrived (s := .b) h.sendA h.lastA h.toB h.stateB hmem hwin hdrain).eof
        he.1, he.2⟩
    | a =>
      refine ⟨he.1, ?_⟩
      rcases h.toA with ⟨hst, hr⟩ | ⟨hi, hc | hw⟩
      · exact (LinkOk.arrived (s := .a) h.sendB h.lastB hr hst hmem hwin hdrain).eof he.2
      · simp [Link.listening, Link.get, UtpConnection.isClosed, hc] at hlisten
      · rcases h.arriveA_waiting hi hw env hmem with ⟨-, -, hr⟩ | ⟨hi', -⟩
        · exact .inl (Nat.le_trans (Nat.le_of_eq (hr hfirst)) (Nat.zero_le _))
        · exact .inl (Nat.le_trans (Nat.le_of_eq hi'.rcvd) (Nat.zero_le _))

/-- **Acknowledged means delivered.**  In every run in which no DATA or FIN overtakes the answer
to the SYN, FIN comes after the data, packets arrive near the acknowledgement and the reorder
buffer drains from its least key, both ends have what they acknowledge. -/
theorem run_ackDelivered {idBytes seqBytes : UInt16} {env : Env} {es : List (Side × Act)}
    {l : Link} (hrun : Link.run (.start idBytes seqBytes env) es = some l)
    (hfirst : StepRun.Along Link.step Link.AnsweredFirst (.start idBytes seqBytes env) es)
    (hfin : StepRun.Along Link.step Link.FinAfterData (.start idBytes seqBytes env) es)
    (hwin : StepRun.Along Link.step Link.InWindow (.start idBytes seqBytes env) es)
    (hdrain : StepRun.Along Link.step Link.DrainsFromFirst (.start idBytes seqBytes env) es)
    (s : Side) : AckDelivered l s := by
  have hinv : LinkOk l ∧ EofOk l.a l.b ∧ EofOk l.b l.a := by
    refine StepRun.run_invariant (I := fun l => LinkOk l ∧ EofOk l.a l.b ∧ EofOk l.b l.a)
      (P := fun l e => (l.AnsweredFirst e ∧ l.FinAfterData e) ∧
        l.InWindow e ∧ l.DrainsFromFirst e) ?_ ?_ ?_ hrun
    · rintro l e l' ⟨hl, he⟩ ⟨⟨hf, ha⟩, hw, hd⟩ hs
      exact ⟨hl.step hw hd ha hs, hl.step_eofOk he hw hd ha hf hs⟩
    · exact ⟨linkOk_start idBytes seqBytes env, .inl (Nat.zero_le _), .inl (Nat.zero_le _)⟩
    · exact (hfirst.and hfin).and (hwin.and hdrain)
  refine hinv.1.ackDelivered ?_
  cases s
  · exact hinv.2.2
  · exact hinv.2.1

theorem orderlyClose_ackDelivered :
    AckDelivered ((Link.run (.start 0 65533 still) orderlyClose).get (by decide +kernel)) .a :=
  run_ackDelivered (Option.some_get _).symm (by decide +kernel) (by decide +kernel)
    (by decide +kernel) (by decide +kernel) .a

/-- The SYN-ACK is lost, the responder closes at once, and its FIN arrives. -/
def lostAnswer : List (Side × Act) :=
  [(.a, .drain), (.b, .drain), (.b, .close), (.b, .tick still), (.b, .drain),
    (.a, .receive still (datagram stFin 0 recvWindow 65533 1 []))]

/-- The initiator acknowledges the FIN and does not note the end of the stream. -/
theorem lostAnswer_not_ackDelivered :
    ∃ l, Link.run (.start 0 65533 still) lostAnswer = some l ∧ ¬ AckDelivered l .a := by
  refine ⟨(Link.run (.start 0 65533 still) lostAnswer).get (by decide +kernel),
    (Option.some_get _).symm, fun h => ?_⟩
  have heof := h.fin 0 (by decide +kernel) (by decide +kernel)
  exact absurd heof (by decide +kernel)

end XferRust.Utp
