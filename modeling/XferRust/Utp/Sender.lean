import XferRust.Utp.Calls
import XferRust.Utp.Link

/-! # The outgoing stream of one end

`SendOk` ties a connection to its history: what was cut into packets and what is still
pending is what the application wrote, packet `i` of the log has number `nth isn i`, and every
datagram sent carries an entry of the log, the FIN, or a control packet with a number that is
not beyond the next one.  Every act keeps it.  An act other than a reception also leaves the
incoming stream alone (`Local`).
-/
namespace XferRust.Utp
open UtpConnection SerialNumber

/-- What an end can have sent. -/
inductive Sent (p : Peer) (q : List UInt8) : Prop
  | data (i : Nat) (payload : List UInt8) (hi : p.log[i]? = some payload)
      (hq : Carries q stData (nth p.isn i) payload)
  | fin (f : Nat) (hf : p.finAt = some f) (hq : Carries q stFin (nth p.isn f) [])
  | state (j : Nat) (hj : j ≤ p.log.length) (hq : Carries q stState (nth p.isn j) [])
  | syn (n : UInt16) (hq : Carries q stSyn n [])

theorem Sent.carries {p : Peer} {q : List UInt8} (h : Sent p q) :
    ∃ t seq payload, Carries q t seq payload ∧ t ≠ stReset := by
  cases h with
  | data i payload hi hq => exact ⟨_, _, _, hq, by decide⟩
  | fin f hf hq => exact ⟨_, _, _, hq, by decide⟩
  | state j hj hq => exact ⟨_, _, _, hq, by decide⟩
  | syn n hq => exact ⟨_, _, _, hq, by decide⟩

/-- The outgoing stream of an end agrees with its history. -/
structure SendOk (p : Peer) : Prop where
  seq : p.conn.seq = nth p.isn p.log.length
  cut : p.log.flatten ++ p.conn.pendingSend = p.accepted
  queue : ∀ op ∈ p.conn.sendQueue, ∃ i, p.log[i]? = some op.payload ∧ op.seq = nth p.isn i
  pend : p.conn.finPending = true → p.conn.finSent = false
  fin : p.conn.finSent = p.finAt.isSome
  finSeq : ∀ f, p.finAt = some f → p.conn.finSeq = nth p.isn f ∧ f ≤ p.log.length
  finState : p.conn.state = .finSent → p.conn.finSent = true
  sent : ∀ q, q ∈ p.conn.outbox ∨ q ∈ p.wire → Sent p q

/-- The log of `p'` extends that of `p`; a FIN keeps its place. -/
structure Extends (p p' : Peer) : Prop where
  isn : p'.isn = p.isn
  log : p.log <+: p'.log
  fin : ∀ f, p.finAt = some f → p'.finAt = some f

theorem Sent.extends {p p' : Peer} {q : List UInt8} (h : Sent p q) (he : Extends p p') :
    Sent p' q := by
  cases h with
  | data i payload hi hq =>
    refine .data i payload ?_ (he.isn ▸ hq)
    obtain ⟨more, hmore⟩ := he.log
    rw [← hmore, List.getElem?_append_left (List.getElem?_eq_some_iff.mp hi).1]
    exact hi
  | fin f hf hq => exact .fin f (he.fin f hf) (he.isn ▸ hq)
  | state j hj hq => exact .state j (Nat.le_trans hj he.log.length_le) (he.isn ▸ hq)
  | syn n hq => exact .syn n hq

/-- Datagrams stay accounted for when log and FIN do not move. -/
theorem Sent.of_eq {p p' : Peer} {q : List UInt8} (h : Sent p q) (hisn : p'.isn = p.isn)
    (hlog : p'.log = p.log) (hfin : p'.finAt = p.finAt) : Sent p' q :=
  h.extends ⟨hisn, hlog ▸ List.prefix_refl _, fun _ hf => hfin ▸ hf⟩

namespace SendOk

variable {p p' : Peer} {c : UtpConnection}

theorem emitted (h : SendOk p) {q : List UInt8} (hq : Emitted p.conn q) : Sent p q := by
  cases hq with
  | data op hop hc =>
    obtain ⟨i, hi, hseq⟩ := h.queue op hop
    exact .data i op.payload hi (hseq ▸ hc)
  | state hc => exact .state p.log.length (Nat.le_refl _) (h.seq ▸ hc)
  | fin hfin hc =>
    obtain ⟨f, hf⟩ := Option.isSome_iff_exists.mp (h.fin ▸ hfin)
    exact .fin f hf ((h.finSeq f hf).1 ▸ hc)
  | syn hc => exact .syn _ hc

/-- A call that sends nothing new, with the same history of what was sent. -/
theorem of_sendQuiet (h : SendOk p) (hq : SendQuiet p.conn p'.conn)
    (hst : p'.conn.state = .finSent → p.conn.state = .finSent) (hisn : p'.isn = p.isn)
    (hacc : p'.accepted = p.accepted) (hlog : p'.log = p.log) (hfin : p'.finAt = p.finAt)
    (hwire : p'.wire = p.wire) : SendOk p' where
  seq := by rw [hq.seq, hisn, hlog]; exact h.seq
  cut := by rw [hq.pendingSend, hlog, hacc]; exact h.cut
  queue op hop := by
    obtain ⟨op', hop', hseq, hpay⟩ := hq.queue op hop
    rw [hlog, hisn, ← hseq, ← hpay]
    exact h.queue op' hop'
  pend := by rw [hq.finPending, hq.finSent]; exact h.pend
  fin := by rw [hq.finSent, hfin]; exact h.fin
  finSeq := by rw [hq.finSeq, hfin, hisn, hlog]; exact h.finSeq
  finState hs := by rw [hq.finSent]; exact h.finState (hst hs)
  sent q hmem := by
    refine Sent.of_eq ?_ hisn hlog hfin
    rcases hmem with hmem | hmem
    · rcases hq.outbox q hmem with hmem | hem
      · exact h.sent q (.inl hmem)
      · exact h.emitted hem
    · exact h.sent q (.inr (hwire ▸ hmem))

/-- The FIN takes the number after the last packet of the log. -/
theorem finTaken (h : SendOk p) (ht : FinTaken p.conn c) :
    SendOk { p with conn := c, finAt := some p.log.length } := by
  have hnone : p.finAt = none := by
    rw [← Option.isNone_iff_eq_none, ← Option.not_isSome, ← h.fin, h.pend ht.pending]
    rfl
  have hseq : c.seq = p.conn.seq := congrArg SendView.seq ht.send
  have he : Extends p { p with conn := c, finAt := some p.log.length } :=
    ⟨rfl, List.prefix_refl _, fun f hf => by rw [hnone] at hf; cases hf⟩
  refine ⟨hseq.trans h.seq, ?_, ?_, ?_, ?_, ?_, ?_, ?_⟩
  · exact (congrArg (p.log.flatten ++ ·) (congrArg SendView.pendingSend ht.send)).trans h.cut
  · intro op hop
    exact h.queue op (ht.queue ▸ hop)
  · intro hp
    have : c.finPending = false := congrArg SendView.finPending ht.send
    rw [this] at hp
    cases hp
  · exact congrArg SendView.finSent ht.send
  · intro f hf
    obtain rfl := Option.some.inj hf
    exact ⟨(congrArg SendView.finSeq ht.send).trans h.seq, Nat.le_refl _⟩
  · intro _
    exact congrArg SendView.finSent ht.send
  · rintro q (hmem | hmem)
    · rcases ht.outbox q hmem with hmem | hc
      · exact (h.sent q (.inl hmem)).extends he
      · exact .fin p.log.length rfl (h.seq ▸ hc)
    · exact (h.sent q (.inr hmem)).extends he

/-- The chunks cut off the pending bytes go to the end of the log. -/
theorem flushed (h : SendOk p) {chunks : List (List UInt8)} (hf : Flushed p.conn c chunks) :
    SendOk { p with conn := c, log := p.log ++ chunks } := by
  obtain ⟨hfs, hfp, hfq⟩ := hf.fin
  have he : Extends p { p with conn := c, log := p.log ++ chunks } :=
    ⟨rfl, List.prefix_append _ _, fun f hf => hf⟩
  have hget : ∀ {i : Nat} {payload : List UInt8}, chunks[i]? = some payload →
      (p.log ++ chunks)[p.log.length + i]? = some payload := by
    intro i payload hi
    rw [List.getElem?_append_right (Nat.le_add_right _ _), Nat.add_sub_cancel_left]
    exact hi
  have hnum : ∀ i, nth p.conn.seq i = nth p.isn (p.log.length + i) := by
    intro i
    rw [h.seq, ← nth_add]
  refine ⟨?_, ?_, ?_, ?_, ?_, ?_, ?_, ?_⟩
  · rw [hf.seq, hnum, List.length_append]
  · rw [List.flatten_append, List.append_assoc, ← hf.pending]
    exact h.cut
  · intro op hop
    rcases hf.numbered op hop with hop | ⟨i, hi, hseq⟩
    · obtain ⟨i, hi, hseq⟩ := h.queue op hop
      refine ⟨i, ?_, hseq⟩
      rw [List.getElem?_append_left (List.getElem?_eq_some_iff.mp hi).1]
      exact hi
    · exact ⟨p.log.length + i, hget hi, hseq.trans (hnum i)⟩
  · rw [hfp, hfs]
    exact h.pend
  · exact hfs.trans h.fin
  · intro f hf'
    obtain ⟨hseq, hle⟩ := h.finSeq f hf'
    exact ⟨hfq.trans hseq, Nat.le_trans hle (List.prefix_append _ _).length_le⟩
  · intro hs
    rw [hfs]
    exact h.finState (hf.state ▸ hs)
  · rintro q (hmem | hmem)
    · rcases hf.outbox q hmem with hmem | ⟨i, payload, hi, hc⟩
      · exact (h.sent q (.inl hmem)).extends he
      · exact .data _ payload (hget hi) (hnum i ▸ hc)
    · exact (h.sent q (.inr hmem)).extends he

end SendOk

/-! ## The acts of an end -/

/-- FIN has the number after the last packet, so that no later packet shares it. -/
def FinLast (p : Peer) : Prop := ∀ f, p.finAt = some f → f = p.log.length

/-- An act that is not a reception leads from `p` to `p'`: the incoming stream is as before,
and packets are cut only on an established connection and never after FIN. -/
structure Local (p p' : Peer) : Prop extends Extends p p' where
  ack : p'.conn.ack = p.conn.ack
  reorder : p'.conn.recvReorder = p.conn.recvReorder
  eof : p'.conn.eof = p.conn.eof
  rcvd : p'.rcvd = p.rcvd
  stream : p'.handed ++ p'.conn.recvOut = p.handed ++ p.conn.recvOut
  last : FinLast p → FinLast p'
  frozen : p.finAt.isSome = true → p'.log = p.log
  cut : p'.log = p.log ∨ p.conn.state = .connected
  state : p'.conn.state = p.conn.state ∨ p'.conn.state = .closed ∨
    p'.conn.state = .finSent ∧ p.conn.state ≠ .synSent ∧ p.conn.state ≠ .closed
  unanswered : p'.conn.state = .synSent → p'.finAt = p.finAt

namespace Local

/-- An act that cuts no packet and takes no number. -/
theorem of_eq {p p' : Peer} (hisn : p'.isn = p.isn) (hlog : p'.log = p.log)
    (hfin : p'.finAt = p.finAt) (hack : p'.conn.ack = p.conn.ack)
    (hreorder : p'.conn.recvReorder = p.conn.recvReorder) (heof : p'.conn.eof = p.conn.eof)
    (hrcvd : p'.rcvd = p.rcvd)
    (hstream : p'.handed ++ p'.conn.recvOut = p.handed ++ p.conn.recvOut)
    (hst : p'.conn.state = p.conn.state ∨ p'.conn.state = .closed) : Local p p' where
  isn := hisn
  log := hlog ▸ List.prefix_refl _
  fin _ hf := hfin ▸ hf
  ack := hack
  reorder := hreorder
  eof := heof
  rcvd := hrcvd
  stream := hstream
  last h f hf := hlog ▸ h f (hfin ▸ hf)
  frozen _ := hlog
  cut := .inl hlog
  state := hst.imp_right .inl
  unanswered _ := hfin

end Local

section Acts
variable {p : Peer}

theorem SendOk.write (h : SendOk p) (data : List UInt8) : SendOk (p.write data) := by
  unfold Peer.write UtpConnection.write
  dsimp only
  split
  · refine ⟨h.seq, ?_, h.queue, h.pend, h.fin, h.finSeq, h.finState, fun q hq => ?_⟩
    · exact h.cut.trans (List.append_nil _).symm
    · exact (h.sent q hq).of_eq rfl rfl rfl
  · refine ⟨h.seq, ?_, h.queue, h.pend, h.fin, h.finSeq, h.finState, fun q hq => ?_⟩
    · dsimp only
      rw [← List.append_assoc, h.cut]
    · exact (h.sent q hq).of_eq rfl rfl rfl

theorem local_write (p : Peer) (data : List UInt8) : Local p (p.write data) := by
  unfold Peer.write UtpConnection.write
  dsimp only
  split <;> exact .of_eq rfl rfl rfl rfl rfl rfl rfl rfl (.inl rfl)

theorem SendOk.read (h : SendOk p) (len : Nat) : SendOk (p.read len) :=
  h.of_sendQuiet (.of_eq rfl rfl rfl rfl) id rfl rfl rfl rfl rfl

theorem local_read (p : Peer) (len : Nat) : Local p (p.read len) := by
  refine .of_eq rfl rfl rfl rfl rfl rfl rfl ?_ (.inl rfl)
  unfold Peer.read UtpConnection.read
  dsimp only
  rw [List.append_assoc, List.take_append_drop]

theorem SendOk.close (h : SendOk p) : SendOk p.close := by
  unfold Peer.close UtpConnection.close
  split
  · exact h
  · rename_i hn
    split
    · refine ⟨h.seq, h.cut, h.queue, h.pend, h.fin, h.finSeq, nofun, ?_⟩
      exact fun q hq => (h.sent q hq).of_eq rfl rfl rfl
    · refine ⟨h.seq, h.cut, h.queue, fun _ => ?_, h.fin, h.finSeq, h.finState, ?_⟩
      · exact Bool.not_eq_true _ ▸ fun hs => hn (.inr (.inl hs))
      · exact fun q hq => (h.sent q hq).of_eq rfl rfl rfl

theorem local_close (p : Peer) : Local p p.close := by
  unfold Peer.close UtpConnection.close
  split
  · exact .of_eq rfl rfl rfl rfl rfl rfl rfl rfl (.inl rfl)
  · split
    · exact .of_eq rfl rfl rfl rfl rfl rfl rfl rfl (.inr rfl)
    · exact .of_eq rfl rfl rfl rfl rfl rfl rfl rfl (.inl rfl)

theorem SendOk.drain (h : SendOk p) : SendOk p.drain := by
  refine ⟨h.seq, h.cut, h.queue, h.pend, h.fin, h.finSeq, h.finState, fun q hq => ?_⟩
  refine (h.sent q ?_).of_eq rfl rfl rfl
  rcases hq with hq | hq
  · cases hq
  · exact (List.mem_append.mp hq).symm

theorem local_drain (p : Peer) : Local p p.drain :=
  .of_eq rfl rfl rfl rfl rfl rfl rfl rfl (.inl rfl)

/-- A tick of an end, in the terms of its history. -/
theorem tick_spec (h : SendOk p) (env : Env) : ∃ s₁ s₂ chunks finAt,
    (s₁ = p.conn ∧ finAt = p.finAt ∨ FinTaken p.conn s₁ ∧ finAt = some p.log.length) ∧
      Flushed s₁ s₂ chunks ∧ Quiet s₂ (p.tick env).conn ∧
      p.tick env =
        { p with conn := (p.tick env).conn, log := p.log ++ chunks, finAt := finAt } := by
  obtain ⟨s₁, s₂, chunks, hstep, hf, hq, hcut⟩ := processTick_spec p.conn env
  have hfin : (p.tick env).conn.finSent = s₁.finSent := hq.finSent.trans hf.fin.1
  rcases hstep with rfl | ht
  · refine ⟨_, s₂, chunks, p.finAt, .inl ⟨rfl, rfl⟩, hf, hq, ?_⟩
    have hsame : ¬ ((p.conn.processTick env).finSent ∧ !p.conn.finSent) := by
      rintro ⟨hs, hn⟩
      rw [show (p.conn.processTick env).finSent = p.conn.finSent from hfin] at hs
      rw [hs] at hn
      cases hn
    simp only [Peer.tick, hcut, if_neg hsame]
  · refine ⟨s₁, s₂, chunks, some p.log.length, .inr ⟨ht, rfl⟩, hf, hq, ?_⟩
    have hnew : (p.conn.processTick env).finSent ∧ !p.conn.finSent := by
      refine ⟨?_, ?_⟩
      · exact hfin.trans (congrArg SendView.finSent ht.send)
      · rw [h.pend ht.pending]
        rfl
    simp only [Peer.tick, hcut, if_pos hnew]

theorem SendOk.tick (h : SendOk p) (env : Env) : SendOk (p.tick env) := by
  obtain ⟨s₁, s₂, chunks, finAt, hstep, hf, hq, htick⟩ := tick_spec h env
  have hquiet : s₂.state = .finSent ∨ (p.tick env).conn.state ≠ .finSent := by
    rcases hq.state with hs | hs
    · exact (Decidable.em (s₂.state = .finSent)).imp_right (hs ▸ ·)
    · exact .inr (by rw [hs]; decide)
  have hst : (p.tick env).conn.state = .finSent → s₂.state = .finSent := fun hs =>
    hquiet.resolve_right (not_not_intro hs)
  rw [htick]
  rcases hstep with ⟨rfl, rfl⟩ | ⟨ht, rfl⟩
  · exact (h.flushed hf).of_sendQuiet hq.toSendQuiet hst rfl rfl rfl rfl rfl
  · have h₁ := h.finTaken ht
    exact (h₁.flushed (c := s₂) hf).of_sendQuiet hq.toSendQuiet hst rfl rfl rfl rfl rfl

/-- What FIN-after-data means for the packets a tick cuts. -/
theorem Flushed.eq_nil_of_done {s t : UtpConnection} {chunks : List (List UInt8)}
    (hf : Flushed s t chunks) (hdone : s.pendingSend = []) : chunks = [] :=
  Decidable.byContradiction fun hne => hf.some_ hne hdone

theorem local_tick (h : SendOk p) (env : Env)
    (hafter : p.conn.finPending = true ∨ p.conn.finSent = true → p.conn.pendingSend = []) :
    Local p (p.tick env) := by
  obtain ⟨s₁, s₂, chunks, finAt, hstep, hf, hq, htick⟩ := tick_spec h env
  have hrecv : (p.tick env).conn.recvView = p.conn.recvView := by
    rw [hq.recv, hf.recv]
    rcases hstep with ⟨rfl, -⟩ | ⟨ht, -⟩
    · rfl
    · exact ht.recv
  have hnil : p.conn.finPending = true ∨ p.conn.finSent = true → chunks = [] := by
    intro hp
    refine hf.eq_nil_of_done ?_
    rcases hstep with ⟨rfl, -⟩ | ⟨ht, -⟩
    · exact hafter hp
    · exact (congrArg SendView.pendingSend ht.send).trans (hafter hp)
  have hlog : (p.tick env).log = p.log ++ chunks := congrArg Peer.log htick
  have hfin : (p.tick env).finAt = finAt := congrArg Peer.finAt htick
  have hsame : chunks = [] → (p.tick env).log = p.log := by
    rintro rfl
    exact hlog.trans (List.append_nil _)
  have hsome : p.finAt.isSome = true → chunks = [] := fun hs => hnil (.inr (h.fin.trans hs))
  refine { isn := rfl, log := hlog ▸ List.prefix_append _ _, fin := ?_
           ack := congrArg RecvView.ack hrecv, reorder := congrArg RecvView.recvReorder hrecv
           eof := congrArg RecvView.eof hrecv, rcvd := rfl
           stream := ?_, last := ?_, frozen := fun hs => hsame (hsome hs), cut := ?_
           state := ?_, unanswered := ?_ }
  · intro f hf'
    rw [hfin]
    rcases hstep with ⟨-, rfl⟩ | ⟨ht, -⟩
    · exact hf'
    · have := h.fin.symm.trans (h.pend ht.pending)
      rw [hf'] at this
      cases this
  · rw [show (p.tick env).handed = p.handed from rfl,
      show (p.tick env).conn.recvOut = p.conn.recvOut from congrArg RecvView.recvOut hrecv]
  · intro hlast f hf'
    rw [hfin] at hf'
    rcases hstep with ⟨-, rfl⟩ | ⟨ht, rfl⟩
    · rw [hsame (hsome (by rw [hf']; rfl))]
      exact hlast f hf'
    · rw [hsame (hnil (.inl ht.pending))]
      exact (Option.some.inj hf').symm
  · rcases hstep with ⟨rfl, -⟩ | ⟨ht, -⟩
    · by_cases hne : chunks = []
      · exact .inl (hsame hne)
      · rcases hf.open_ hne with hs | hs
        · exact .inr hs
        · exact absurd (hnil (.inr (h.finState hs))) hne
    · exact .inl (hsame (hnil (.inl ht.pending)))
  · rcases hq.state with hs | hs
    · rw [hs, hf.state]
      rcases hstep with ⟨rfl, -⟩ | ⟨ht, -⟩
      · exact .inl rfl
      · rw [ht.state]
        split
        · exact .inr (.inl rfl)
        · rename_i hne
          exact .inr (.inr ⟨rfl, hne, ht.open_⟩)
    · exact .inr (.inl hs)
  · intro hs
    rw [hfin]
    rcases hstep with ⟨-, rfl⟩ | ⟨ht, -⟩
    · rfl
    · rcases hq.state with hs' | hs'
      · rw [hs', hf.state, ht.state] at hs
        split at hs <;> cases hs
      · rw [hs'] at hs
        cases hs

end Acts

end XferRust.Utp
