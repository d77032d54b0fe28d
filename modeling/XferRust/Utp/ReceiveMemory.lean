import XferRust.Utp.ReadOut
import XferRust.Utp.WindowAccounts

/-! # How much a connection holds for its reader

What has arrived is kept in two places: the reorder buffer, which turns away what it has no room
for, and the receive stream, which takes whatever comes in order.  The advertised window tells the
peer to stop, but nothing stops a peer that goes on: each DATA packet in order is appended, however
much the reader has left there.

If DATA in order only comes while the window is open (`WindowOpen`), the two places together hold
no more than the two windows and one packet (`held_of_windowOpen`).
-/
namespace XferRust.Utp
open UtpConnection Tiling StepRun

namespace UtpConnection

/-- The bytes received and not yet read. -/
def held (s : UtpConnection) : Nat := s.recvBuffered.toNat + s.recvOut.length

/-- The condition on a call: DATA in order only comes while what is held fits in the receive
window, so that some of it is still advertised. -/
def WindowOpen (s : UtpConnection) : Operation → Prop
  | .packet datagram _ => s.TakesNext datagram.bytes → s.held ≤ recvWindow.toNat
  | _ => True

instance (s : UtpConnection) : ∀ op, Decidable (s.WindowOpen op)
  | .packet datagram _ =>
    inferInstanceAs (Decidable (s.TakesNext datagram.bytes → s.held ≤ recvWindow.toNat))
  | .write _ | .read _ | .close | .tick _ | .drain => isTrue trivial

end UtpConnection

variable {s : UtpConnection}

theorem held_of_eq {t : UtpConnection} (h : t.recvAccount = s.recvAccount) : t.held = s.held := by
  show t.recvAccount.buffered.toNat + t.recvAccount.out.length = _
  rw [h]
  rfl

/-- The length of the datagram of a call. -/
def Operation.datagramLength : Operation → Nat
  | .packet datagram _ => datagram.bytes.length
  | _ => 0

/-! ## What a call adds to the stream -/

/-- DATA appends its payload, and moves what follows it from the buffer. -/
theorem length_recvOut_onData (h : s.recvAccount.Ok) (hdr : PacketHeader) (payload : List UInt8) :
    (s.onData hdr payload).recvOut.length ≤ s.held + payload.length := by
  have hbuf : s.recvBuffered.toNat = payloads s.recvReorder.entries := h.buffered
  have hself : s.recvOut.length ≤ s.held + payload.length := by
    unfold held
    omega
  unfold onData
  dsimp only
  split
  · exact hself
  · split
    · exact hself
    · split
      · have hmove := (drainReorder_account hbuf hdr.seqNr (s.recvOut ++ payload)).2
        rw [List.length_append] at hmove
        show (drainReorder hdr.seqNr (s.recvOut ++ payload) s.recvBuffered
          s.recvReorder.entries).2.1.length ≤ _
        unfold held
        omega
      · split
        · exact hself
        · exact hself

/-- **What a datagram adds.**  The stream stays as it is, or the datagram is DATA that comes next and
the stream has what was held and the payload at most. -/
theorem recvOut_handlePacket_le (h : s.recvAccount.Ok) (data : List UInt8) (env : Env) :
    (s.handlePacket data env).recvOut = s.recvOut ∨
      s.TakesNext data ∧ (s.handlePacket data env).recvOut.length ≤ s.held + data.length := by
  by_cases htakes : s.TakesNext data
  · refine .inr ⟨htakes, ?_⟩
    rcases recvAccount_handlePacket s data env with heq | ⟨hdr, exts, off, hp, heq⟩
    · rw [show (s.handlePacket data env).recvOut = s.recvOut from congrArg RecvAccount.out heq]
      unfold held
      omega
    · have htype : hdr.type_ = stData := by
        unfold TakesNext at htakes
        rw [hp] at htakes
        exact htakes.1
      have hbefore : s.beforeAck hdr (data.drop off) env =
          ((s.onArrival hdr env).onFirstData hdr).onData hdr (data.drop off) := by
        unfold beforeAck received
        rw [htype, if_neg (by decide), if_pos rfl]
      have hsame := (neutral_onArrival s hdr env).trans (neutral_onFirstData _ hdr)
      have hlen := length_recvOut_onData (h.of_eq hsame.recv) hdr (data.drop off)
      rw [show (s.handlePacket data env).recvOut = _ from congrArg RecvAccount.out heq, hbefore]
      refine Nat.le_trans hlen ?_
      rw [held_of_eq hsame.recv, List.length_drop]
      omega
  · exact .inl (Decidable.not_not.mp (mt (recvOut_handlePacket s data env).2.mp htakes))

/-- The stream has what the receive window allows and one packet of `limit` bytes. -/
structure WithinWindow (limit : Nat) (s : UtpConnection) : Prop where
  book : s.recvAccount.Ok
  out : s.recvOut.length ≤ recvWindow.toNat + limit

theorem WithinWindow.held {limit : Nat} (h : WithinWindow limit s) :
    s.held ≤ recvWindow.toNat + reorderWindow.toNat + limit := by
  have hbound : s.recvBuffered.toNat ≤ 1048576 := h.book.bounded
  have hout := h.out
  have hreorder : reorderWindow.toNat = 1048576 := by decide
  unfold UtpConnection.held
  omega

/-- **Every call** keeps the stream within the window, when DATA comes while the window is open. -/
theorem WithinWindow.apply {limit : Nat} (h : WithinWindow limit s) {op : Operation}
    (hopen : s.WindowOpen op) (hlen : op.datagramLength ≤ limit) :
    WithinWindow limit (s.apply op) := by
  refine ⟨h.book.apply op, ?_⟩
  have hout := h.out
  cases op with
  | write data =>
    rw [show (s.apply (.write data)).recvOut = s.recvOut from
      congrArg RecvAccount.out (neutral_write s data).recv]
    exact hout
  | read len =>
    show (s.recvOut.drop _).length ≤ _
    rw [List.length_drop]
    omega
  | close =>
    rw [show (s.apply .close).recvOut = s.recvOut from
      congrArg RecvAccount.out (neutral_close s).recv]
    exact hout
  | packet datagram env =>
    rcases recvOut_handlePacket_le h.book datagram.bytes env with heq | ⟨htakes, hle⟩
    · show (s.handlePacket datagram.bytes env).recvOut.length ≤ _
      rw [heq]
      exact hout
    · have hheld := hopen htakes
      have hlim : datagram.bytes.length ≤ limit := hlen
      show (s.handlePacket datagram.bytes env).recvOut.length ≤ _
      omega
  | tick env =>
    rw [show (s.apply (.tick env)).recvOut = s.recvOut from
      congrArg RecvAccount.out (recvAccount_processTick s env)]
    exact hout
  | drain => exact hout

/-- **Receive memory.**  In every run in which DATA in order only comes while the window is open, a
connection never holds more than the two windows and one packet. -/
theorem held_of_windowOpen {s : UtpConnection} (hs : Fresh s) {ops : List Operation} {limit : Nat}
    (hlen : ∀ op ∈ ops, op.datagramLength ≤ limit) (hopen : Along step WindowOpen s ops) :
    Everywhere step (fun t => t.held ≤ recvWindow.toNat + reorderWindow.toNat + limit) s ops := by
  have hstart : WithinWindow limit s := by
    refine ⟨recvOk_fresh hs, ?_⟩
    cases hs with
    | outbound idBytes env => exact Nat.zero_le _
    | inbound peerRecvId ackNr seqBytes env => exact Nat.zero_le _
  exact everywhere_of_along (fun _ => WithinWindow.held)
    (fun _ _ _ h hP hstep => Option.some.inj hstep ▸ h.apply hP.1 hP.2) hstart
    (hopen.and (along_of_forall hlen))

theorem held_busyRun : Everywhere step
    (fun t => t.held ≤ recvWindow.toNat + reorderWindow.toNat + 21) (newInbound 7 0 5 (envAt 0))
    busyRun :=
  held_of_windowOpen (.inbound 7 0 5 (envAt 0)) (by decide +kernel) (by decide +kernel)

/-! ## A peer that goes on -/

/-- DATA of full size. -/
def fullDatagram (seqNr : UInt16) : Datagram :=
  ⟨encodeHeader (peerHeader stData seqNr 4 1048576) ++ fullPayload, by
    rw [List.length_append, length_encodeHeader, length_fullPayload]
    decide⟩

/-- A peer that sends `k` packets of full size one after the other, whatever it is told. -/
def flood : UInt16 → Nat → List Operation
  | _, 0 => []
  | n, k + 1 => .packet (fullDatagram (n + 1)) (envAt 0) :: flood (n + 1) k

/-- **One packet more**, with nothing read. -/
theorem flood_step (hst : s.state ≠ .synSent) (hempty : s.recvReorder.entries = []) :
    (s.apply (.packet (fullDatagram (s.ack + 1)) (envAt 0))).state ≠ .synSent ∧
      (s.apply (.packet (fullDatagram (s.ack + 1)) (envAt 0))).recvReorder.entries = [] ∧
      (s.apply (.packet (fullDatagram (s.ack + 1)) (envAt 0))).ack = s.ack + 1 ∧
      (s.apply (.packet (fullDatagram (s.ack + 1)) (envAt 0))).recvOut = s.recvOut ++ fullPayload := by
  have hwf : (peerHeader stData (s.ack + 1) 4 1048576).WellFormed :=
    ⟨(by decide : stData &&& 0x0F = stData), rfl⟩
  have hparse : parsePacket (fullDatagram (s.ack + 1)).bytes =
      some (peerHeader stData (s.ack + 1) 4 1048576, [], headerLen) := parsePacket_plain hwf rfl _
  have hpay : (fullDatagram (s.ack + 1)).bytes.drop headerLen = fullPayload := rfl
  have hquiet := quiet_handlePacket hparse (show stData ≠ stReset by decide) (envAt 0) (s := s)
  rw [hpay] at hquiet
  have harr := quiet_onArrival s (peerHeader stData (s.ack + 1) 4 1048576) (envAt 0)
  have hst' : (s.onArrival (peerHeader stData (s.ack + 1) 4 1048576) (envAt 0)).state ≠ .synSent := by
    rw [state_onArrival]
    exact hst
  have hview : ((s.onArrival (peerHeader stData (s.ack + 1) 4 1048576) (envAt 0)).onFirstData
      (peerHeader stData (s.ack + 1) 4 1048576)).recvView = s.recvView := by
    rw [RecvOk.recvView_onFirstData hst']
    exact harr.recv
  have hrecv : ∀ u : UtpConnection, u.recvView = s.recvView →
      (u.onData (peerHeader stData (s.ack + 1) 4 1048576) fullPayload).recvView =
        ⟨s.ack + 1, s.recvOut ++ fullPayload, s.recvReorder, s.eof⟩ := by
    intro u hu
    have hack : u.ack = s.ack := congrArg RecvView.ack hu
    have hout : u.recvOut = s.recvOut := congrArg RecvView.recvOut hu
    have hbuf : u.recvReorder = s.recvReorder := congrArg RecvView.recvReorder hu
    have heof : u.eof = s.eof := congrArg RecvView.eof hu
    have hseq : (peerHeader stData (s.ack + 1) 4 1048576).seqNr = s.ack + 1 := rfl
    unfold onData
    dsimp only
    rw [hseq, hack, hout, hbuf, hempty, if_neg (by decide), if_neg (by rw [seqLeq_next]; decide),
      if_pos rfl]
    show RecvView.mk (s.ack + 1) (s.recvOut ++ fullPayload) (s.recvReorder.dropFirst 0) u.eof = _
    rw [heof]
    rfl
  have hall : (s.handlePacket (fullDatagram (s.ack + 1)).bytes (envAt 0)).recvView =
      ⟨s.ack + 1, s.recvOut ++ fullPayload, s.recvReorder, s.eof⟩ := by
    rw [hquiet.recv]
    unfold received
    rw [show (peerHeader stData (s.ack + 1) 4 1048576).type_ = stData from rfl,
      if_neg (by decide), if_pos rfl]
    exact hrecv _ hview
  refine ⟨?_, ?_, congrArg RecvView.ack hall, congrArg RecvView.recvOut hall⟩
  · rcases state_handlePacket s (fullDatagram (s.ack + 1)).bytes (envAt 0) with h | h | ⟨h, -⟩
    · exact fun heq => hst (h.symm.trans heq)
    · exact fun heq => (by cases h.symm.trans heq)
    · exact fun heq => (by cases h.symm.trans heq)
  · rw [show (s.apply (.packet (fullDatagram (s.ack + 1)) (envAt 0))).recvReorder = s.recvReorder from
      congrArg RecvView.recvReorder hall]
    exact hempty

/-- **All of it is held.** -/
theorem flood_held (hst : s.state ≠ .synSent) (hempty : s.recvReorder.entries = []) (k : Nat) :
    ∃ t, run step s (flood s.ack k) = some t ∧ t.recvOut.length = s.recvOut.length + 1400 * k := by
  induction k generalizing s with
  | zero => exact ⟨s, rfl, rfl⟩
  | succ k ih =>
    obtain ⟨hst', hempty', hack, hout⟩ := flood_step hst hempty
    obtain ⟨t, hrun, ht⟩ := ih hst' hempty'
    rw [hack] at hrun
    refine ⟨t, run_cons_eq_some.mpr
      ⟨s.apply (.packet (fullDatagram (s.ack + 1)) (envAt 0)), rfl, hrun⟩, ?_⟩
    rw [ht, hout, List.length_append, length_fullPayload]
    omega

/-- **Nothing stops the stream.**  Seven thousand packets of 1420 bytes to a reader that does not
read come to more than both windows and a packet. -/
theorem flood_exceeds : ∃ t, run step (newInbound 7 0 5 (envAt 0)) (flood 0 7000) = some t ∧
    recvWindow.toNat + reorderWindow.toNat + 1420 < t.held := by
  have hrecv : recvWindow.toNat = 8388608 := by decide
  have hreorder : reorderWindow.toNat = 1048576 := by decide
  have hst : (newInbound 7 0 5 (envAt 0)).state ≠ .synSent := nofun
  have hack : (newInbound 7 0 5 (envAt 0)).ack = 0 := rfl
  have hall := flood_held hst (rfl : (newInbound 7 0 5 (envAt 0)).recvReorder.entries = []) 7000
  rw [hack] at hall
  obtain ⟨t, hrun, ht⟩ := hall
  refine ⟨t, hrun, ?_⟩
  have hzero : (newInbound 7 0 5 (envAt 0)).recvOut.length = 0 := rfl
  unfold held
  omega

end XferRust.Utp
