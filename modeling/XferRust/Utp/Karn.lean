import Mathlib.Data.List.TakeWhile
import XferRust.Utp.WindowAccounts

/-! # Round-trip samples and retransmissions

A round-trip sample is the age of a packet when it is acknowledged.  If the packet was sent more
than once, nobody knows which of its transmissions is acknowledged, and the sample says nothing.
The send queue therefore counts retransmissions, and an acknowledgement samples the first packet
whose count is zero.

Three paths send a packet again: the timeout and the three duplicate acknowledgements count it; SACK
fast retransmit works on a clone and counts nothing.  `Traced` carries, next to the connection, the
instants at which each packet in flight was put into the outbox, and whether the first packet is one
that SACK fast retransmit has sent again.  No step reads them.
-/
namespace XferRust.Utp
open UtpConnection StepRun

/-! ## What is sent again -/

namespace UtpConnection

/-- SACK fast retransmit sends the first packet of the queue again. -/
def sackFires (s : UtpConnection) (ackNr : UInt16) (sackBits : UInt32) : Bool :=
  match s.sendQueue with
  | [] => false
  | front :: _ =>
    seqAfter front.seq ackNr ∧ sacksAfter ackNr front.seq sackBits ≥ 3 ∧
      ¬ (s.fastRecoveryValid ∧ s.lastFastRecoverySeq = front.seq)

/-- The place in the queue of the packet that three duplicate acknowledgements send again. -/
def dupResends (s : UtpConnection) (ackNr : UInt16) : Option Nat :=
  if s.dupAckCount ≥ 3 ∧ ¬ (s.fastRecoveryValid ∧ s.lastFastRecoverySeq = ackNr + 1) then
    s.sendQueue.findIdx? fun p => p.seq = ackNr + 1
  else none

/-- The tick is a timeout that sends the whole queue again. -/
def resendsAll (s : UtpConnection) (env : Env) : Bool :=
  s.state ≠ .closed ∧ (s.flushFin env).2 = false ∧ (s.flushFin env).1.timerExpired env ∧
    (s.flushFin env).1.state ≠ .synSent ∧ (s.flushFin env).1.consecutiveTimeouts + 1 < 5

/-- The connection when `on_ack` has taken the acknowledged packets off the queue. -/
def afterQueue (s : UtpConnection) (ackNr : UInt16) (env : Env) : UtpConnection :=
  ((s.noteDupAck ackNr).onAckQueue ackNr env).onAckFin ackNr

/-- What `handle_packet` gives to `update_rtt`. -/
def rttGiven (s : UtpConnection) (hdr : PacketHeader) (payload : List UInt8) (env : Env) :
    Option Nat :=
  let r := ((s.beforeAck hdr payload env).noteDupAck hdr.ackNr).acked hdr.ackNr env.now
  if r.freed > 0 then r.rttSample else none

/-- The place in the queue of the packet an acknowledgement samples. -/
def sampled (s : UtpConnection) (ackNr : UInt16) : Option Nat :=
  (s.sendQueue.takeWhile fun p => seqLeq p.seq ackNr).findIdx? fun p => p.retransmits = 0

end UtpConnection

/-! ## Connections with their transmissions -/

/-- A connection and the history of what it has in flight. -/
structure Traced where
  conn : UtpConnection
  /-- Of each packet of the send queue the instants at which it was put into the outbox. -/
  sends : List (List Nat)
  /-- SACK fast retransmit has sent the first packet of the queue again. -/
  resent : Bool

namespace Traced

/-- The history behind the acknowledgement part of a packet, which meets the connection `s`. -/
def ackSends (s : UtpConnection) (ackNr : UInt16) (sackBits : UInt32) (env : Env)
    (sends : List (List Nat)) : List (List Nat) :=
  let kept := sends.drop (s.sendQueue.length - (s.afterQueue ackNr env).sendQueue.length)
  let sacked :=
    if (s.afterQueue ackNr env).sackFires ackNr sackBits then kept.modify 0 (· ++ [env.now])
    else kept
  match ((s.afterQueue ackNr env).onAckSack ackNr sackBits env).dupResends ackNr with
  | some i => sacked.modify i (· ++ [env.now])
  | none => sacked

/-- Whether the first packet is one sent again by SACK, behind the acknowledgement part. -/
def ackResent (s : UtpConnection) (ackNr : UInt16) (sackBits : UInt32) (env : Env)
    (resent : Bool) : Bool :=
  (s.afterQueue ackNr env).sackFires ackNr sackBits ||
    (resent && (s.afterQueue ackNr env).sendQueue.length = s.sendQueue.length)

/-- One call. -/
def apply (t : Traced) (op : Operation) : Traced :=
  let conn := t.conn.apply op
  match op with
  | .packet datagram env =>
    match parsePacket datagram.bytes with
    | some (hdr, exts, off) =>
      if Acknowledges hdr then
        let s := t.conn.beforeAck hdr (datagram.bytes.drop off) env
        { conn
          sends := ackSends s hdr.ackNr (sackOf exts) env t.sends
          resent := ackResent s hdr.ackNr (sackOf exts) env t.resent }
      else { t with conn }
    | none => { t with conn }
  | .tick env =>
    if t.conn.resendsAll env then { t with conn, sends := t.sends.map (· ++ [env.now]) }
    else
      { t with
        conn
        sends := t.sends ++
          List.replicate (conn.sendQueue.length - t.conn.sendQueue.length) [env.now] }
  | _ => { t with conn }

def step (t : Traced) (op : Operation) : Option Traced := some (t.apply op)

/-- **Karn's rule** for a call: what it gives to `update_rtt` is the age of a packet that was sent
exactly once. -/
def Karn (t : Traced) : Operation → Prop
  | .packet datagram env =>
    ∀ hdr exts off, parsePacket datagram.bytes = some (hdr, exts, off) → Acknowledges hdr →
      ∀ age, t.conn.rttGiven hdr (datagram.bytes.drop off) env = some age →
        ∃ i instant, t.conn.sampled hdr.ackNr = some i ∧ t.sends[i]? = some [instant] ∧
          age = env.now - instant
  | _ => True

/-- No retransmission count of a packet in flight is at its last value. -/
def CountsFit (t : Traced) : Prop := ∀ p ∈ t.conn.sendQueue, p.retransmits ≠ 0xFFFFFFFF

/-- The condition on a call: it does not acknowledge a packet that SACK fast retransmit has sent
again and no other path has counted, and no retransmission count wraps. -/
def Clear (t : Traced) : Operation → Prop
  | .packet datagram _ =>
    t.CountsFit ∧ ∀ hdr exts off, parsePacket datagram.bytes = some (hdr, exts, off) →
      Acknowledges hdr → t.resent = true → ∀ p ∈ t.conn.sendQueue.head?, p.retransmits = 0 →
        seqLeq p.seq hdr.ackNr = false
  | .tick _ => t.CountsFit
  | _ => True

/-- What is asked of the parts of a parsed packet. -/
instance decidableParsed {P : PacketHeader → List Extension → Nat → Prop}
    [∀ hdr exts off, Decidable (P hdr exts off)] :
    ∀ parsed : Option (PacketHeader × List Extension × Nat),
      Decidable (∀ hdr exts off, parsed = some (hdr, exts, off) → P hdr exts off)
  | none => isTrue fun _ _ _ h => (by cases h)
  | some (hdr, exts, off) =>
    decidable_of_iff (P hdr exts off)
      ⟨fun h _ _ _ he => by cases he; exact h, fun h => h hdr exts off rfl⟩

instance : DecidablePred CountsFit := fun t =>
  inferInstanceAs (Decidable (∀ p ∈ t.conn.sendQueue, p.retransmits ≠ 0xFFFFFFFF))

instance (t : Traced) : ∀ op, Decidable (t.Clear op)
  | .packet datagram _ =>
    inferInstanceAs (Decidable (t.CountsFit ∧ ∀ hdr exts off,
      parsePacket datagram.bytes = some (hdr, exts, off) → Acknowledges hdr → t.resent = true →
        ∀ p ∈ t.conn.sendQueue.head?, p.retransmits = 0 → seqLeq p.seq hdr.ackNr = false))
  | .tick _ => inferInstanceAs (Decidable t.CountsFit)
  | .write _ | .read _ | .close | .drain => isTrue trivial

end Traced

/-! ## The history is what the outbox says -/

theorem find?_eq_getElem? {α : Type} {p : α → Bool} {xs : List α} :
    xs.find? p = (xs.findIdx? p).bind fun i => xs[i]? := by
  induction xs with
  | nil => rfl
  | cons x xs ih =>
    rw [List.find?_cons, List.findIdx?_cons]
    split
    · rename_i h
      rw [h]
      rfl
    · rename_i h
      rw [h, ih]
      cases xs.findIdx? p with
      | none => rfl
      | some i => rfl

/-! ## The queue call by call -/

theorem queue_onAckSack (s : UtpConnection) (ackNr : UInt16) (bits : UInt32) (env : Env) :
    (s.onAckSack ackNr bits env).sendQueue = s.sendQueue := by
  unfold onAckSack
  split
  · rfl
  · split <;> rfl

theorem queue_onAckDup (s : UtpConnection) (ackNr : UInt16) (env : Env) :
    (s.onAckDup ackNr env).sendQueue =
      match s.dupResends ackNr with
      | some _ => markRetransmit (ackNr + 1) env.now s.sendQueue
      | none => s.sendQueue := by
  unfold onAckDup dupResends
  by_cases hcount : s.dupAckCount ≥ 3
  · rw [if_pos hcount]
    show (s.recoverTarget (ackNr + 1) env).sendQueue = _
    unfold recoverTarget
    rw [find?_eq_getElem?]
    by_cases hdone : s.fastRecoveryValid = true ∧ s.lastFastRecoverySeq = ackNr + 1
    · rw [if_neg fun h => h.2 hdone]
      split
      · rfl
      · rw [if_pos hdone]
    · rw [if_pos ⟨hcount, hdone⟩]
      cases hi : s.sendQueue.findIdx? fun p => p.seq = ackNr + 1 with
      | none => rfl
      | some i =>
        have hlt : i < s.sendQueue.length := (List.findIdx?_eq_some_iff_getElem.mp hi).1
        rw [Option.bind_some, List.getElem?_eq_getElem hlt]
        dsimp only
        rw [if_neg hdone]
        rfl
  · rw [if_neg hcount, if_neg fun h => hcount h.1]

theorem queue_afterQueue (s : UtpConnection) (ackNr : UInt16) (env : Env) :
    (s.afterQueue ackNr env).sendQueue =
      s.sendQueue.drop (s.sendQueue.length - (s.afterQueue ackNr env).sendQueue.length) := by
  have hnote : (s.noteDupAck ackNr).sendQueue = s.sendQueue :=
    congrArg SendAccount.queue (neutral_noteDupAck s ackNr).send
  have hfin : (s.afterQueue ackNr env).sendQueue =
      ((s.noteDupAck ackNr).onAckQueue ackNr env).sendQueue :=
    congrArg SendAccount.queue (neutral_onAckFin _ ackNr).send
  have hsuffix : (s.afterQueue ackNr env).sendQueue <:+ s.sendQueue := by
    rw [hfin, ← hnote]
    have h := dropAcked_suffix (s.noteDupAck ackNr).finSent (s.noteDupAck ackNr).finSeq ackNr
      env.now ⟨(s.noteDupAck ackNr).sendQueue, 0, none, (s.noteDupAck ackNr).finAcked⟩
    unfold onAckQueue
    dsimp only
    split
    · rw [show (creditFreed _ _ _ _).sendQueue = _ from
        congrArg SendAccount.queue (sendAccount_creditFreed _ _ _ env)]
      exact h
    · exact h
  exact List.suffix_iff_eq_drop.mp hsuffix

variable {s : UtpConnection} {hdr : PacketHeader}

theorem state_beforeAck (ha : Acknowledges hdr) (payload : List UInt8) (env : Env) :
    (s.beforeAck hdr payload env).state ≠ .synSent := by
  have hfirst : ∀ u : UtpConnection, (u.onFirstData hdr).state ≠ .synSent := by
    intro u
    unfold onFirstData
    split
    · exact nofun
    · split
      · exact nofun
      · assumption
  unfold beforeAck received
  split
  · unfold onSynAck
    split
    · exact nofun
    · assumption
  · split
    · rw [state_onData]
      exact hfirst _
    · split
      · rw [state_onFin]
        exact hfirst _
      · rename_i hstate hdata hfin
        exact absurd ha (by rintro (h | h | h) <;> contradiction)

/-- **The queue behind an acknowledgement.** -/
theorem queue_onAck (hst : s.state ≠ .synSent) (ackNr : UInt16) (bits : UInt32) (env : Env) :
    (s.onAck ackNr bits env).sendQueue =
      match ((s.afterQueue ackNr env).onAckSack ackNr bits env).dupResends ackNr with
      | some _ => markRetransmit (ackNr + 1) env.now (s.afterQueue ackNr env).sendQueue
      | none => (s.afterQueue ackNr env).sendQueue := by
  have hparts : (((s.afterQueue ackNr env).onAckSack ackNr bits env).onAckDup ackNr env).sendQueue =
      match ((s.afterQueue ackNr env).onAckSack ackNr bits env).dupResends ackNr with
      | some _ => markRetransmit (ackNr + 1) env.now (s.afterQueue ackNr env).sendQueue
      | none => (s.afterQueue ackNr env).sendQueue := by
    rw [queue_onAckDup, queue_onAckSack]
  unfold onAck
  rw [if_neg fun h => hst h.1]
  dsimp only
  split
  · exact (congrArg SendAccount.queue (neutral_finishCloseIfIdle _).send).trans hparts
  · exact hparts

theorem queue_flushPending (env : Env) (fuel : Nat) (s : UtpConnection) :
    ∃ ops, (flushPending env fuel s).sendQueue = s.sendQueue ++ ops ∧
      ∀ op ∈ ops, op.retransmits = 0 ∧ op.sendTime = env.now := by
  induction fuel generalizing s with
  | zero => exact ⟨[], (List.append_nil _).symm, fun op hop => (by cases hop)⟩
  | succ fuel ih =>
    rw [flushPending_succ]
    split
    · exact ⟨[], (List.append_nil _).symm, fun op hop => (by cases hop)⟩
    · split
      · exact ⟨[], (List.append_nil _).symm, fun op hop => (by cases hop)⟩
      · obtain ⟨ops, hq, hops⟩ := ih (s.cutPacket env)
        refine ⟨s.nextPacket env :: ops, ?_, fun op hop => ?_⟩
        · rw [hq]
          exact (List.append_cons _ _ _).symm
        · rcases List.mem_cons.mp hop with rfl | hop
          · exact ⟨rfl, rfl⟩
          · exact hops op hop

/-- A packet sent again by the timeout. -/
def recount (now : Nat) (p : OutPacket) : OutPacket :=
  { p with sendTime := now, retransmits := p.retransmits + 1 }

/-- **The queue behind a tick.** -/
theorem queue_processTick (s : UtpConnection) (env : Env) :
    (s.resendsAll env = true ∧ (s.processTick env).sendQueue = s.sendQueue.map (recount env.now)) ∨
      (s.resendsAll env = false ∧ ∃ ops, (s.processTick env).sendQueue = s.sendQueue ++ ops ∧
        ∀ op ∈ ops, op.retransmits = 0 ∧ op.sendTime = env.now) := by
  have hfin : (s.flushFin env).1.sendQueue = s.sendQueue :=
    congrArg SendAccount.queue (neutral_flushFin s env).send
  -- nothing joins the queue
  have hsame : ∀ {q : List OutPacket}, q = s.sendQueue → ∃ ops, q = s.sendQueue ++ ops ∧
      ∀ op ∈ ops, op.retransmits = 0 ∧ op.sendTime = env.now := fun h =>
    ⟨[], h.trans (List.append_nil _).symm, fun op hop => (by cases hop)⟩
  unfold processTick resendsAll
  by_cases hclosed : s.state = .closed
  · rw [if_pos hclosed]
    exact .inr ⟨by simp [hclosed], hsame rfl⟩
  · rw [if_neg hclosed]
    dsimp only
    generalize s.flushFin env = r at *
    by_cases hret : r.2 = true
    · rw [if_pos hret]
      exact .inr ⟨by simp [hret], hsame hfin⟩
    · rw [if_neg hret]
      by_cases htimer : r.1.timerExpired env = true
      · rw [if_pos htimer]
        unfold handleTimeout
        by_cases hsyn : r.1.state = .synSent
        · rw [if_pos hsyn]
          refine .inr ⟨by simp [hsyn], hsame ?_⟩
          exact (congrArg SendAccount.queue (neutral_synTimeout r.1 env).send).trans hfin
        · rw [if_neg hsyn]
          dsimp only
          by_cases hcount : r.1.consecutiveTimeouts + 1 ≥ 5
          · rw [if_pos hcount]
            exact .inr ⟨by simp; omega, hsame hfin⟩
          · rw [if_neg hcount]
            refine .inl ⟨by simp [*]; omega, ?_⟩
            split
            · exact congrArg (List.map (recount env.now)) hfin
            · exact congrArg (List.map (recount env.now)) hfin
      · rw [if_neg htimer]
        refine .inr ⟨by simp [htimer], ?_⟩
        rw [show ((r.1.tickFlush env).tickEnd env).sendQueue = (r.1.tickFlush env).sendQueue from
          congrArg SendAccount.queue (neutral_tickEnd _ env).send]
        unfold tickFlush
        split
        · rw [← hfin]
          exact queue_flushPending env _ r.1
        · exact hsame hfin

/-! ## The history fits the queue -/

/-- The history of the packet at place `i`: it was sent, and if no path has counted a further
transmission, then it was sent once, at the instant it carries, or it is the first packet and SACK
fast retransmit has sent it again. -/
def Told (resent : Bool) (i : Nat) (p : OutPacket) (instants : List Nat) : Prop :=
  instants ≠ [] ∧
    (p.retransmits = 0 → (i = 0 ∧ resent = true) ∨ instants = [p.sendTime])

/-- The history of a queue. -/
structure Logged (resent : Bool) (queue : List OutPacket) (sends : List (List Nat)) : Prop where
  length : sends.length = queue.length
  told : ∀ i p instants, queue[i]? = some p → sends[i]? = some instants → Told resent i p instants

/-- No retransmission count is at its last value. -/
def CountsBelow (queue : List OutPacket) : Prop := ∀ p ∈ queue, p.retransmits ≠ 0xFFFFFFFF

theorem count_ne_zero {c : UInt32} (h : c ≠ 0xFFFFFFFF) : c + 1 ≠ 0 := by
  intro hz
  apply h
  grind

namespace Logged

variable {resent : Bool} {queue : List OutPacket} {sends : List (List Nat)} {now : Nat}

/-- Packets leave at the front. -/
theorem drop (h : Logged resent queue sends) (n : Nat) :
    Logged (resent && n = 0) (queue.drop n) (sends.drop n) where
  length := by rw [List.length_drop, List.length_drop, h.length]
  told i p instants hp hi := by
    rw [List.getElem?_drop] at hp hi
    obtain ⟨hne, honce⟩ := h.told _ p instants hp hi
    refine ⟨hne, fun hzero => (honce hzero).imp_left ?_⟩
    rintro ⟨hplace, hres⟩
    have hn : n = 0 := by omega
    exact ⟨by omega, by simp [hres, hn]⟩

/-- SACK fast retransmit sends the first packet again. -/
theorem sacked (h : Logged resent queue sends) :
    Logged true queue (sends.modify 0 (· ++ [now])) where
  length := by rw [List.length_modify, h.length]
  told i p instants hp hi := by
    by_cases h0 : i = 0
    · refine ⟨?_, fun _ => .inl ⟨h0, rfl⟩⟩
      rw [h0, List.getElem?_modify_eq] at hi
      obtain ⟨old, -, rfl⟩ := Option.map_eq_some_iff.mp hi
      exact List.append_ne_nil_of_right_ne_nil _ (List.cons_ne_nil _ _)
    · rw [List.getElem?_modify_ne _ _ (Ne.symm h0)] at hi
      obtain ⟨hne, honce⟩ := h.told i p instants hp hi
      exact ⟨hne, fun hzero => .inr ((honce hzero).resolve_left fun hh => h0 hh.1)⟩

theorem markRetransmit_eq {target : UInt16} {ps : List OutPacket} {i : Nat}
    (hi : (ps.findIdx? fun p => p.seq = target) = some i) :
    markRetransmit target now ps = ps.modify i (recount now) := by
  induction ps generalizing i with
  | nil => cases hi
  | cons p ps ih =>
    rw [List.findIdx?_cons] at hi
    rw [markRetransmit]
    by_cases hp : p.seq = target
    · rw [if_pos (decide_eq_true hp)] at hi
      obtain rfl := Option.some.inj hi
      rw [if_pos hp]
      rfl
    · rw [if_neg (fun h => hp (of_decide_eq_true h))] at hi
      obtain ⟨j, hj, rfl⟩ := Option.map_eq_some_iff.mp hi
      rw [if_neg hp, ih hj]
      rfl

/-- Three duplicate acknowledgements send a packet again, and count it. -/
theorem marked (h : Logged resent queue sends) (hcount : CountsBelow queue) (i : Nat) :
    Logged resent (queue.modify i (recount now)) (sends.modify i (· ++ [now])) where
  length := by rw [List.length_modify, List.length_modify, h.length]
  told j p instants hp hi := by
    by_cases hij : i = j
    · subst hij
      rw [List.getElem?_modify_eq] at hp hi
      obtain ⟨old, hold, rfl⟩ := Option.map_eq_some_iff.mp hp
      obtain ⟨before, -, rfl⟩ := Option.map_eq_some_iff.mp hi
      refine ⟨List.append_ne_nil_of_right_ne_nil _ (List.cons_ne_nil _ _), fun hzero => ?_⟩
      exact absurd hzero (count_ne_zero (hcount old (List.mem_of_getElem? hold)))
    · rw [List.getElem?_modify_ne _ _ hij] at hp hi
      exact h.told j p instants hp hi

/-- The timeout sends every packet again, and counts it. -/
theorem all (h : Logged resent queue sends) (hcount : CountsBelow queue) :
    Logged resent (queue.map (recount now)) (sends.map (· ++ [now])) where
  length := by rw [List.length_map, List.length_map, h.length]
  told j p instants hp hi := by
    rw [List.getElem?_map] at hp hi
    obtain ⟨old, hold, rfl⟩ := Option.map_eq_some_iff.mp hp
    obtain ⟨before, -, rfl⟩ := Option.map_eq_some_iff.mp hi
    refine ⟨List.append_ne_nil_of_right_ne_nil _ (List.cons_ne_nil _ _), fun hzero => ?_⟩
    exact absurd hzero (count_ne_zero (hcount old (List.mem_of_getElem? hold)))

/-- Packets that are sent for the first time join at the end. -/
theorem append (h : Logged resent queue sends) {ops : List OutPacket}
    (hops : ∀ op ∈ ops, op.retransmits = 0 ∧ op.sendTime = now) :
    Logged resent (queue ++ ops) (sends ++ List.replicate ops.length [now]) where
  length := by rw [List.length_append, List.length_append, List.length_replicate, h.length]
  told j p instants hp hi := by
    by_cases hj : j < queue.length
    · rw [List.getElem?_append_left hj] at hp
      rw [List.getElem?_append_left (h.length ▸ hj)] at hi
      exact h.told j p instants hp hi
    · have hle : queue.length ≤ j := Nat.le_of_not_lt hj
      rw [List.getElem?_append_right hle] at hp
      rw [List.getElem?_append_right (h.length ▸ hle)] at hi
      have hnow := List.eq_of_mem_replicate (List.mem_of_getElem? hi)
      refine ⟨hnow ▸ List.cons_ne_nil _ _, fun _ => .inr ?_⟩
      rw [hnow, (hops p (List.mem_of_getElem? hp)).2]

end Logged

/-- The history of a traced connection fits its queue. -/
def Traced.Ok (t : Traced) : Prop := Logged t.resent t.conn.sendQueue t.sends

/-- **An acknowledgement** keeps the history. -/
theorem Logged.onAck {resent : Bool} {sends : List (List Nat)} (h : Logged resent s.sendQueue sends)
    (hcount : CountsBelow s.sendQueue) (hst : s.state ≠ .synSent) (ackNr : UInt16) (bits : UInt32)
    (env : Env) :
    Logged (Traced.ackResent s ackNr bits env resent) (s.onAck ackNr bits env).sendQueue
      (Traced.ackSends s ackNr bits env sends) := by
  have hdrop := queue_afterQueue s ackNr env
  have hle : (s.afterQueue ackNr env).sendQueue.length ≤ s.sendQueue.length := by
    rw [hdrop, List.length_drop]
    exact Nat.sub_le _ _
  have hkept := h.drop (s.sendQueue.length - (s.afterQueue ackNr env).sendQueue.length)
  rw [← hdrop] at hkept
  have hcount' : CountsBelow (s.afterQueue ackNr env).sendQueue := by
    intro p hp
    rw [hdrop] at hp
    exact hcount p (List.mem_of_mem_drop hp)
  have hflag : decide (s.sendQueue.length - (s.afterQueue ackNr env).sendQueue.length = 0) =
      decide ((s.afterQueue ackNr env).sendQueue.length = s.sendQueue.length) := by
    congr 1
    exact propext ⟨fun hz => by omega, fun hz => by omega⟩
  rw [hflag] at hkept
  have hsacked : Logged (Traced.ackResent s ackNr bits env resent)
      (s.afterQueue ackNr env).sendQueue
      (if (s.afterQueue ackNr env).sackFires ackNr bits then
        (sends.drop (s.sendQueue.length -
          (s.afterQueue ackNr env).sendQueue.length)).modify 0 (· ++ [env.now])
      else sends.drop (s.sendQueue.length - (s.afterQueue ackNr env).sendQueue.length)) := by
    unfold Traced.ackResent
    cases (s.afterQueue ackNr env).sackFires ackNr bits with
    | true => exact hkept.sacked
    | false => exact hkept
  rw [queue_onAck hst]
  unfold Traced.ackSends
  dsimp only
  cases hd : ((s.afterQueue ackNr env).onAckSack ackNr bits env).dupResends ackNr with
  | none => exact hsacked
  | some i =>
    have hfind : ((s.afterQueue ackNr env).sendQueue.findIdx? fun p => p.seq = ackNr + 1) =
        some i := by
      unfold dupResends at hd
      split at hd
      · rwa [queue_onAckSack] at hd
      · cases hd
    dsimp only
    rw [Logged.markRetransmit_eq hfind]
    exact hsacked.marked hcount' i

theorem queue_beforeAck (s : UtpConnection) (hdr : PacketHeader) (payload : List UInt8)
    (env : Env) : (s.beforeAck hdr payload env).sendQueue = s.sendQueue :=
  congrArg SendAccount.queue
    ((sendAccount_received _ hdr payload).trans (neutral_onArrival s hdr env).send)

/-- The queue behind a datagram that acknowledges. -/
theorem queue_handlePacket {data : List UInt8} {exts : List Extension} {off : Nat}
    (hp : parsePacket data = some (hdr, exts, off)) (ha : Acknowledges hdr) (env : Env) :
    (s.handlePacket data env).sendQueue =
      ((s.beforeAck hdr (data.drop off) env).onAck hdr.ackNr (sackOf exts) env).sendQueue := by
  rcases handlePacket_cases s data env with ⟨hnone, -⟩ | ⟨hdr', exts', off', hp', hcases⟩
  · rw [hp] at hnone
    cases hnone
  · obtain ⟨rfl, hpair⟩ := Prod.mk.inj (Option.some.inj (hp.symm.trans hp'))
    obtain ⟨rfl, rfl⟩ := Prod.mk.inj hpair
    rcases hcases with ⟨-, hno⟩ | ⟨t, heq, ⟨hno, -⟩ | ⟨-, rfl⟩⟩
    · exact absurd ha hno
    · exact absurd ha hno
    · rcases heq with heq | heq
      · rw [heq]
      · rw [heq]
        rfl

/-- Every other datagram leaves the queue alone. -/
theorem queue_handlePacket_other {data : List UInt8}
    (ha : ∀ hdr exts off, parsePacket data = some (hdr, exts, off) → ¬ Acknowledges hdr)
    (env : Env) : (s.handlePacket data env).sendQueue = s.sendQueue := by
  rcases handlePacket_cases s data env with ⟨-, heq⟩ | ⟨hdr, exts, off, hp, hcases⟩
  · rw [heq]
  · have harr : (s.onArrival hdr env).sendQueue = s.sendQueue :=
      congrArg SendAccount.queue (neutral_onArrival s hdr env).send
    rcases hcases with ⟨heq, -⟩ | ⟨t, heq, ⟨-, ht⟩ | ⟨hyes, -⟩⟩
    · rw [heq]
      exact harr
    · have hqueue : t.sendQueue = s.sendQueue := by
        rcases ht with rfl | rfl
        · exact harr
        · exact harr
      rcases heq with heq | heq
      · rw [heq]
        exact hqueue
      · rw [heq]
        exact hqueue
    · exact absurd hyes (ha hdr exts off hp)

/-- **Every call** keeps the history while no count wraps. -/
theorem Traced.Ok.apply {t : Traced} (h : t.Ok) {op : Operation} (hclear : t.Clear op) :
    (t.apply op).Ok := by
  have hsame : ∀ {c : UtpConnection}, c.sendQueue = t.conn.sendQueue →
      Traced.Ok { t with conn := c } := by
    intro c hc
    unfold Traced.Ok
    rw [hc]
    exact h
  cases op with
  | write data => exact hsame (congrArg SendAccount.queue (neutral_write t.conn data).send)
  | read len => exact hsame rfl
  | close => exact hsame (congrArg SendAccount.queue (neutral_close t.conn).send)
  | drain => exact hsame rfl
  | packet datagram env =>
    unfold Traced.apply
    dsimp only
    split
    · rename_i hdr exts off hp
      split
      · rename_i ha
        have hbefore := queue_beforeAck t.conn hdr (datagram.bytes.drop off) env
        have hlog : Logged t.resent
            (t.conn.beforeAck hdr (datagram.bytes.drop off) env).sendQueue t.sends := by
          rw [hbefore]
          exact h
        have hcount : CountsBelow
            (t.conn.beforeAck hdr (datagram.bytes.drop off) env).sendQueue := by
          rw [hbefore]
          exact hclear.1
        have hack := hlog.onAck hcount (state_beforeAck ha _ env) hdr.ackNr (sackOf exts) env
        unfold Traced.Ok
        dsimp only
        rw [show (t.conn.apply (.packet datagram env)).sendQueue = _ from
          queue_handlePacket hp ha env]
        exact hack
      · rename_i hno
        refine hsame (queue_handlePacket_other (fun hdr' exts' off' hp' => ?_) env)
        obtain ⟨rfl, -⟩ := Prod.mk.inj (Option.some.inj (hp.symm.trans hp'))
        exact hno
    · rename_i hp
      exact hsame (queue_handlePacket_other (fun hdr exts off hp' => by rw [hp] at hp'; cases hp')
        env)
  | tick env =>
    unfold Traced.apply
    dsimp only
    rcases queue_processTick t.conn env with ⟨hall, hq⟩ | ⟨hnot, ops, hq, hops⟩
    · rw [if_pos hall]
      unfold Traced.Ok
      dsimp only
      rw [show (t.conn.apply (.tick env)).sendQueue = _ from hq]
      exact Logged.all h hclear
    · rw [if_neg (by rw [hnot]; decide)]
      unfold Traced.Ok
      dsimp only
      rw [show (t.conn.apply (.tick env)).sendQueue = _ from hq, List.length_append,
        Nat.add_sub_cancel_left]
      exact Logged.append h hops

/-! ## Karn's rule -/

/-- **What an acknowledgement samples**: the age of the first packet it takes off the queue whose
count is zero. -/
theorem rttSample_go (finSent : Bool) (finSeq ackNr : UInt16) (now : Nat) (ps : List OutPacket)
    (freed : UInt32) (sample : Option Nat) (fin : Bool) :
    (dropAcked.go finSent finSeq ackNr now ps freed sample fin).rttSample =
      sample.or (((ps.takeWhile fun p => seqLeq p.seq ackNr).find? fun p => p.retransmits = 0).map
        fun p => now - p.sendTime) := by
  induction ps generalizing freed sample fin with
  | nil => exact Option.or_none.symm
  | cons p ps ih =>
    rw [dropAcked.go, List.takeWhile_cons]
    split
    · rw [ih, List.find?_cons]
      cases sample with
      | some d => rfl
      | none =>
        by_cases hzero : p.retransmits = 0
        · rw [if_pos ⟨rfl, hzero⟩, decide_eq_true hzero]
          rfl
        · rw [if_neg fun h => hzero h.2, decide_eq_false hzero]
    · exact Option.or_none.symm

/-- The sample that is given is that of the sampled packet. -/
theorem rttGiven_eq {payload : List UInt8} {env : Env} {age : Nat}
    (h : s.rttGiven hdr payload env = some age) :
    ∃ i p, s.sampled hdr.ackNr = some i ∧ s.sendQueue[i]? = some p ∧ p.retransmits = 0 ∧
      seqLeq p.seq hdr.ackNr = true ∧ age = env.now - p.sendTime := by
  have hqueue : ((s.beforeAck hdr payload env).noteDupAck hdr.ackNr).sendQueue = s.sendQueue :=
    (congrArg SendAccount.queue (neutral_noteDupAck _ _).send).trans (queue_beforeAck _ _ _ _)
  unfold rttGiven at h
  dsimp only at h
  split at h
  · have hgo := rttSample_go ((s.beforeAck hdr payload env).noteDupAck hdr.ackNr).finSent
      ((s.beforeAck hdr payload env).noteDupAck hdr.ackNr).finSeq hdr.ackNr env.now s.sendQueue 0
      none ((s.beforeAck hdr payload env).noteDupAck hdr.ackNr).finAcked
    rw [← hqueue] at hgo
    replace hgo := hgo.symm.trans h
    rw [hqueue] at hgo
    obtain ⟨p, hfind, rfl⟩ := Option.map_eq_some_iff.mp hgo
    have hzero : p.retransmits = 0 := by simpa using List.find?_some hfind
    rw [find?_eq_getElem?] at hfind
    obtain ⟨i, hi, hp⟩ := Option.bind_eq_some_iff.mp hfind
    have hleq := List.mem_takeWhile_imp (List.mem_of_getElem? hp)
    obtain ⟨behind, hbehind⟩ : _ <+: s.sendQueue :=
      List.takeWhile_prefix fun p : OutPacket => seqLeq p.seq hdr.ackNr
    refine ⟨i, p, hi, ?_, hzero, hleq, rfl⟩
    rw [← hbehind, List.getElem?_append_left (List.getElem?_eq_some_iff.mp hp).1]
    exact hp
  · cases h

/-- **A clear call obeys Karn's rule.** -/
theorem Traced.Ok.karn {t : Traced} (h : t.Ok) {op : Operation} (hclear : t.Clear op) :
    t.Karn op := by
  cases op with
  | write data => trivial
  | read len => trivial
  | close => trivial
  | drain => trivial
  | tick env => trivial
  | packet datagram env =>
    intro hdr exts off hp ha age hage
    obtain ⟨i, p, hi, hget, hzero, hleq, hval⟩ := rttGiven_eq hage
    have hlt : i < t.sends.length := by
      rw [h.length]
      exact (List.getElem?_eq_some_iff.mp hget).1
    obtain ⟨-, honce⟩ := h.told i p t.sends[i] hget (List.getElem?_eq_getElem hlt)
    have hlog : t.sends[i] = [p.sendTime] := by
      refine (honce hzero).resolve_left ?_
      rintro ⟨rfl, hres⟩
      have hhead : p ∈ t.conn.sendQueue.head? := by
        rw [List.head?_eq_getElem?]
        exact hget
      have := hclear.2 hdr exts off hp ha hres p hhead hzero
      rw [this] at hleq
      cases hleq
    exact ⟨i, p.sendTime, hi, by rw [List.getElem?_eq_getElem hlt, hlog], hval⟩

/-- **Karn's rule.**  In every run of a connection, with any peer, any application and any clock, in
which no acknowledgement takes a packet off the queue that only SACK fast retransmit has sent again,
every round-trip sample is the age of a packet that was sent exactly once. -/
theorem karn_of_clear {s : UtpConnection} (hs : Fresh s) {ops : List Operation}
    (hclear : Along Traced.step Traced.Clear ⟨s, [], false⟩ ops) :
    Along Traced.step Traced.Karn ⟨s, [], false⟩ ops := by
  have hstart : Traced.Ok ⟨s, [], false⟩ := by
    have hempty : s.sendQueue = [] := by
      cases hs with
      | outbound idBytes env => rfl
      | inbound peerRecvId ackNr seqBytes env => rfl
    refine ⟨by rw [hempty]; rfl, fun i p instants hp => ?_⟩
    rw [hempty] at hp
    cases hp
  exact along_of_along (fun _ _ h => h.karn)
    (fun _ _ _ h hP hstep => Option.some.inj hstep ▸ h.apply hP) hstart hclear

/-- Two packets: one is acknowledged in time, the other is sent again by the timeout and gives no
sample. -/
theorem karn_busyRun :
    Along Traced.step Traced.Karn ⟨newInbound 7 0 5 (envAt 0), [], false⟩ busyRun :=
  karn_of_clear (.inbound 7 0 5 (envAt 0)) (by decide +kernel)

/-- An acknowledgement of the other side that names packets behind a gap. -/
def sackDatagram (ackNr : UInt16) (bits : UInt32) : Datagram :=
  ⟨encodeHeader { peerHeader stState 2 ackNr 1048576 with extension := extSack } ++
      encodeSack bits, by
    have hlen : (encodeSack bits).length = 6 := rfl
    rw [List.length_append, length_encodeHeader, hlen]
    decide⟩

/-- Four packets, of which the first is lost and sent again at 50 by SACK fast retransmit. -/
def sackRun : List Operation :=
  [.packet (peerDatagram stData 1 4 (some 9)) (envAt 0), .write [1], .tick (envAt 10), .write [2],
    .tick (envAt 20), .write [3], .tick (envAt 30), .write [4], .tick (envAt 40),
    .packet (sackDatagram 4 7) (envAt 50)]

/-- The acknowledgement of all four at 60. -/
def sackRunAck : Operation := .packet (peerDatagram stState 2 8 none) (envAt 60)

/-- **The clone is not counted.**  The acknowledgement at 60 gives 50 as the round trip of a packet
that was sent at 10 and at 50. -/
theorem sackRun_samples_resent : ¬ Along Traced.step Traced.Karn
    ⟨newInbound 7 0 5 (envAt 0), [], false⟩ (sackRun ++ [sackRunAck]) := by
  have hrun : ((run Traced.step ⟨newInbound 7 0 5 (envAt 0), [], false⟩ sackRun).map fun t =>
      (t.sends.head?, t.conn.sampled 8,
        t.conn.rttGiven (peerHeader stState 2 8 1048576) [] (envAt 60))) =
      some (some [10, 50], some 0, some 50) := by decide +kernel
  have hparse : parsePacket (peerDatagram stState 2 8 none).bytes =
      some (peerHeader stState 2 8 1048576, [], headerLen) := by decide +kernel
  have hack : Acknowledges (peerHeader stState 2 8 1048576) := by decide
  intro hkarn
  obtain ⟨t, ht, hvalues⟩ := Option.map_eq_some_iff.mp hrun
  obtain ⟨hsends, hvalues⟩ := Prod.mk.inj hvalues
  obtain ⟨hsampled, hage⟩ := Prod.mk.inj hvalues
  obtain ⟨i, instant, hi, honce, -⟩ := hkarn.at_run ht _ _ _ hparse hack 50 hage
  obtain rfl : 0 = i := Option.some.inj (hsampled.symm.trans hi)
  rw [← List.head?_eq_getElem?, hsends] at honce
  cases honce

end XferRust.Utp
