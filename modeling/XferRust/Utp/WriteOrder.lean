import Mathlib.Data.List.Basic
import XferRust.Utp.Manager
import XferRust.Utp.Stream

/-! # What is written goes out in order

A buffer that the connection does not take whole goes on waiting in the backlog, which is drained
when the next commands are collected, and not between them.  Each command of a batch runs a tick,
and a tick makes room: a buffer further back in the batch then goes straight to the connection, in
front of what waits (`Managed.overtaken`).  A `Close` further back gives the FIN its number in front
of it as well.

Without that, what was accepted and what waits are always what was written (`ordered_of_run`).
-/
namespace XferRust.Utp

open UtpConnection StepRun

/-- `write` takes nothing. -/
def UtpConnection.Full (s : UtpConnection) : Prop :=
  s.state = .closed ∨ s.error = true ∨ maxPendingSend ≤ s.pendingSend.length

instance (s : UtpConnection) : Decidable s.Full := inferInstanceAs (Decidable (_ ∨ _ ∨ _))

namespace UtpConnection

variable {s : UtpConnection} {data : List UInt8}

theorem write_le (s : UtpConnection) (data : List UInt8) : (s.write data).2 ≤ data.length := by
  unfold write
  dsimp only
  split
  · exact Nat.zero_le _
  · exact Nat.min_le_right _ _

theorem write_full (h : s.Full) : (s.write data).2 = 0 := by
  unfold write
  dsimp only
  obtain hclosed | herror | hlen := h
  · rw [if_pos (.inl hclosed)]
  · rw [if_pos (.inr herror)]
  · split
    · rfl
    · rw [Nat.sub_eq_zero_of_le hlen, Nat.zero_min]

theorem write_open (hstate : s.state ≠ .closed) (herror : s.error = false) (data : List UInt8) :
    (s.write data).2 = min (maxPendingSend - s.pendingSend.length) data.length ∧
      (s.write data).1.pendingSend = s.pendingSend ++ data.take (s.write data).2 := by
  have hopen : ¬ (s.state = .closed ∨ s.error = true) := by
    rintro (h | h)
    · exact hstate h
    · exact absurd (herror.symm.trans h) Bool.noConfusion
  unfold write
  dsimp only
  rw [if_neg hopen]
  exact ⟨rfl, rfl⟩

/-- What `write` leaves alone. -/
theorem write_rest (s : UtpConnection) (data : List UInt8) :
    (s.write data).1.state = s.state ∧ (s.write data).1.error = s.error ∧
      (s.write data).1.finPending = s.finPending ∧ (s.write data).1.finSent = s.finSent ∧
      (s.write data).1.sendQueue = s.sendQueue ∧ (s.write data).1.packetSize = s.packetSize ∧
      (s.write data).1.canSendData = s.canSendData := by
  unfold write
  dsimp only
  split
  · exact ⟨rfl, rfl, rfl, rfl, rfl, rfl, rfl⟩
  · exact ⟨rfl, rfl, rfl, rfl, rfl, rfl, rfl⟩

end UtpConnection

/-- What the loop leaves of the backlog is its end. -/
theorem ConnContext.drainBacklog_eq (fuel : Nat) (conn : UtpConnection) (backlog : List UInt8) :
    ∃ k ≤ backlog.length, (ConnContext.drainBacklog fuel conn backlog).2 = backlog.drop k := by
  induction fuel generalizing conn backlog with
  | zero => exact ⟨0, Nat.zero_le _, rfl⟩
  | succ fuel ih =>
    rw [ConnContext.drainBacklog]
    by_cases hnil : backlog.isEmpty = true
    · rw [if_pos hnil]
      exact ⟨0, Nat.zero_le _, rfl⟩
    · rw [if_neg hnil]
      dsimp only
      by_cases hzero : (conn.write backlog).2 = 0
      · rw [if_pos hzero]
        exact ⟨0, Nat.zero_le _, rfl⟩
      · rw [if_neg hzero]
        obtain ⟨k, hk, heq⟩ := ih (conn.write backlog).1 (backlog.drop (conn.write backlog).2)
        have hle := conn.write_le backlog
        rw [List.length_drop] at hk
        exact ⟨(conn.write backlog).2 + k, by omega, by rw [heq, List.drop_drop]⟩

namespace Managed

variable {m m' : Managed} {e : ManagedEvent}

/-- **The order of the stream**: what was accepted and what waits is what was written, and what was
written before a `Close` was accepted before it. -/
structure Ordered (m : Managed) : Prop where
  whole : m.handed ++ m.ctx.writeBacklog = m.written
  closed : ∀ n ∈ m.closedAt, n ≤ m.handed.length

/-- **No command comes past the backlog**: while something waits, the connection takes nothing, and
the first `Close` finds nothing waiting. -/
def InTurn (m : Managed) (e : ManagedEvent) : Prop :=
  match e, m.stage with
  | .command _, .commands (.write data :: _) =>
    m.ctx.writeBacklog = [] ∨ data = [] ∨ m.ctx.conn.Full
  | .command _, .commands (.close :: _) => m.ctx.writeBacklog = [] ∨ m.closedAt.isSome = true
  | _, _ => True

instance (m : Managed) (e : ManagedEvent) : Decidable (m.InTurn e) := by
  unfold InTurn
  split <;> infer_instance

theorem Ordered.collect (h : m.Ordered) : m.collect.Ordered := by
  obtain ⟨k, hk, heq⟩ := ConnContext.drainBacklog_eq m.ctx.writeBacklog.length m.ctx.conn
    m.ctx.writeBacklog
  have hlen : m.ctx.writeBacklog.length -
      (ConnContext.drainBacklog m.ctx.writeBacklog.length m.ctx.conn m.ctx.writeBacklog).2.length =
        k := by
    rw [heq, List.length_drop]
    omega
  constructor
  · show m.handed ++ m.ctx.writeBacklog.take _ ++ _ = m.written
    rw [hlen, List.append_assoc]
    exact (congrArg (m.handed ++ ·) ((congrArg _ heq).trans (List.take_append_drop k _))).trans
      h.whole
  · intro n hn
    have hle := h.closed n hn
    show n ≤ (m.handed ++ _).length
    rw [List.length_append]
    omega

/-- A buffer goes to the connection as far as it takes it, and to the backlog. -/
theorem command_write (m : Managed) (data : List UInt8) (rest : List UtpCmd) (env : Env) :
    (m.command (.write data) rest env).written = m.written ++ data ∧
      (m.command (.write data) rest env).handed =
        m.handed ++ data.take (m.ctx.conn.write data).2 ∧
      (m.command (.write data) rest env).ctx.writeBacklog =
        m.ctx.writeBacklog ++ data.drop (m.ctx.conn.write data).2 ∧
      (m.command (.write data) rest env).ctx.conn =
        ((m.ctx.conn.write data).1.processTick env).drainOutbox.1 := by
  refine ⟨rfl, rfl, ?_, rfl⟩
  have hle := m.ctx.conn.write_le data
  show (if (m.ctx.conn.write data).2 < data.length then
    m.ctx.writeBacklog ++ data.drop (m.ctx.conn.write data).2 else m.ctx.writeBacklog) = _
  split
  · rfl
  · rw [List.drop_eq_nil_of_le (by omega), List.append_nil]

theorem Ordered.command (h : m.Ordered) {cmd : UtpCmd} {rest : List UtpCmd} {env : Env}
    (hstage : m.stage = .commands (cmd :: rest)) (hturn : m.InTurn (.command env)) :
    (m.command cmd rest env).Ordered := by
  cases cmd with
  | write data =>
    have hdata : m.ctx.writeBacklog = [] ∨ data = [] ∨ m.ctx.conn.Full := by
      unfold InTurn at hturn
      rw [hstage] at hturn
      exact hturn
    obtain ⟨hwritten, hhanded, hbacklog, -⟩ := m.command_write data rest env
    constructor
    · -- what is left of the buffer joins the backlog, which is empty if any was taken
      have hpast : data.take (m.ctx.conn.write data).2 ++ m.ctx.writeBacklog =
          m.ctx.writeBacklog ++ data.take (m.ctx.conn.write data).2 := by
        obtain hnil | rfl | hfull := hdata
        · rw [hnil, List.append_nil, List.nil_append]
        · rw [List.take_nil, List.append_nil, List.nil_append]
        · rw [write_full hfull, List.take_zero, List.append_nil, List.nil_append]
      rw [hwritten, hhanded, hbacklog, ← h.whole, List.append_assoc,
        ← List.append_assoc (data.take _), hpast, List.append_assoc m.ctx.writeBacklog,
        List.take_append_drop, List.append_assoc]
    · intro n hn
      have hn' := h.closed n hn
      show n ≤ (m.handed ++ _).length
      rw [List.length_append]
      omega
  | close =>
    have hclose : m.ctx.writeBacklog = [] ∨ m.closedAt.isSome = true := by
      unfold InTurn at hturn
      rw [hstage] at hturn
      exact hturn
    refine ⟨h.whole, fun n hn => ?_⟩
    have hn : n ∈ m.closedAt.or (some m.written.length) := hn
    show n ≤ m.handed.length
    cases hc : m.closedAt with
    | some k =>
      rw [hc] at hn
      exact h.closed n (hc.trans hn)
    | none =>
      rw [hc] at hn
      obtain hnil | hsome := hclose
      · have hwhole := h.whole
        rw [hnil, List.append_nil] at hwhole
        exact Nat.le_of_eq ((Option.some.inj hn).symm.trans (congrArg List.length hwhole.symm))
      · rw [hc] at hsome
        cases hsome

theorem Ordered.step (h : m.Ordered) (he : m.InTurn e) (hs : m.step e = some m') : m'.Ordered := by
  unfold Managed.step at hs
  split at hs
  · cases hs
  · split at hs
    · obtain rfl := Option.some.inj hs
      exact ⟨h.whole, h.closed⟩
    · cases hs
  · unfold recv at hs
    split at hs
    · cases hs
    · split at hs
      · obtain rfl := Option.some.inj hs
        exact ⟨h.whole, h.closed⟩
      · obtain rfl := Option.some.inj hs
        exact ⟨h.whole, h.closed⟩
      · split at hs
        · obtain rfl := Option.some.inj hs
          exact ⟨h.whole, h.closed⟩
        · cases hs
  · obtain rfl := Option.some.inj hs
    exact ⟨h.whole, h.closed⟩
  · -- collect
    obtain rfl := Option.some.inj hs
    have hcollect := h.collect
    split
    · exact ⟨hcollect.whole, hcollect.closed⟩
    · exact hcollect
  · next hstage =>
    obtain rfl := Option.some.inj hs
    exact h.command hstage he
  · -- readable
    obtain rfl := Option.some.inj hs
    unfold readable
    dsimp only
    split
    · refine ⟨?_, h.closed⟩
      unfold ConnContext.finalize
      split
      · exact h.whole
      · exact h.whole
    · exact ⟨h.whole, h.closed⟩
  · split at hs
    · obtain rfl := Option.some.inj hs
      exact ⟨h.whole, h.closed⟩
    · cases hs
  · split at hs
    · obtain rfl := Option.some.inj hs
      exact ⟨h.whole, h.closed⟩
    · cases hs
  · cases hs

/-- The initiator behind its handshake. -/
def established : UtpConnection :=
  ((newOutbound 0 still).drainOutbox.1).handlePacket (datagram stState 0 recvWindow 65533 1 []) still

/-- **What was accepted and what waits is what was written**, and a `Close` takes effect behind it:
in every run in which no command comes past the backlog. -/
theorem ordered_of_run (conn : UtpConnection) (es : List ManagedEvent) (m : Managed)
    (hrun : run step (start conn) es = some m) (h : Along step InTurn (start conn) es) :
    m.Ordered :=
  run_invariant (fun _ _ _ hm he hs => hm.step he hs)
    ⟨rfl, fun n hn => by cases hn⟩ h hrun

/-- Two buffers and a `Close` in one batch. -/
def writesAndClose : List ManagedEvent :=
  [.send (.write [1, 2]), .send (.write [3]), .send .close, .tick still, .collect, .command still,
    .command still, .command still]

theorem writesAndClose_ordered :
    ∃ m, run step (start established) writesAndClose = some m ∧ m.Ordered ∧
      m.handed = [1, 2, 3] ∧ m.closedAt = some 3 :=
  ⟨_, rfl, ordered_of_run established writesAndClose _ rfl (by decide +kernel), rfl, rfl⟩

/-! ## A buffer that is too long -/

/-- One byte more than the connection takes. -/
def tooLong : List UInt8 := List.replicate (maxPendingSend + 1) 1

/-- Two buffers in one batch. -/
def twoWrites (data : List UInt8) : List ManagedEvent :=
  [.send (.write data), .send (.write [2]), .tick still, .collect, .command still, .command still]

theorem flushPending_error (env : Env) (fuel : Nat) (s : UtpConnection) :
    (flushPending env fuel s).error = s.error := by
  induction fuel generalizing s with
  | zero => rfl
  | succ fuel ih =>
    rw [flushPending_succ]
    split
    · rfl
    · split
      · rfl
      · exact ih (s.cutPacket env)

/-- A tick makes room when a packet may be sent. -/
theorem processTick_room {s : UtpConnection} {env : Env} (hstate : s.state = .connected)
    (hpending : s.finPending = false) (hfin : s.finSent = false) (hqueue : s.sendQueue = [])
    (hsend : s.canSendData = true) (hsize : 0 < s.packetSize.toNat) (hne : s.pendingSend ≠ []) :
    (s.processTick env).state = .connected ∧ (s.processTick env).error = s.error ∧
      (s.processTick env).pendingSend.length < s.pendingSend.length := by
  have hflush : s.flushFin env = (s, false) := by
    rw [flushFin, if_neg (ne_true_of_eq_false hpending)]
  have htimer : s.timerExpired env = false := by
    unfold timerExpired
    rw [hstate, hfin, hqueue, Bool.and_comm]
    cases s.lastRecv with
    | none => exact Bool.and_false _
    | some t => exact Bool.and_false _
  have htick : s.processTick env = (s.tickFlush env).tickEnd env := by
    unfold processTick
    rw [if_neg (by rw [hstate]; decide), hflush]
    dsimp only
    rw [if_neg Bool.false_ne_true, htimer, if_neg Bool.false_ne_true]
  obtain ⟨k, hk⟩ := Nat.exists_eq_succ_of_ne_zero (mt List.length_eq_zero_iff.mp hne)
  have hcut : s.tickFlush env = flushPending env k (s.cutPacket env) := by
    rw [tickFlush, if_pos (.inl hstate), hk, flushPending_succ,
      if_neg (mt List.isEmpty_iff.mp hne), hsend, if_neg (by decide)]
  obtain ⟨chunks, hflushed⟩ := flushPending_flushed env k (s.cutPacket env) (.inl hstate)
  have herror := flushPending_error env k (s.cutPacket env)
  rw [← hcut] at hflushed herror
  have hend : ((s.tickFlush env).tickEnd env).state = (s.tickFlush env).state ∧
      ((s.tickFlush env).tickEnd env).error = (s.tickFlush env).error ∧
      ((s.tickFlush env).tickEnd env).pendingSend = (s.tickFlush env).pendingSend := by
    unfold tickEnd
    dsimp only
    split
    · exact ⟨rfl, rfl, rfl⟩
    · exact ⟨rfl, rfl, rfl⟩
  rw [htick, hend.1, hend.2.1, hend.2.2]
  refine ⟨hflushed.state.trans hstate, herror, ?_⟩
  have hlen := congrArg List.length hflushed.pending
  rw [List.length_append] at hlen
  have hdrop : (s.cutPacket env).pendingSend.length = s.pendingSend.length - s.packetSize.toNat :=
    List.length_drop
  omega

/-- The connection in front of the first buffer. -/
def beforeFirst : UtpConnection := (established.processTick still).drainOutbox.1

/-- The connection in front of the second buffer. -/
def beforeSecond (data : List UInt8) : UtpConnection :=
  ((beforeFirst.write data).1.processTick still).drainOutbox.1

theorem beforeSecond_eq (data : List UInt8) :
    (beforeSecond data).state = ((beforeFirst.write data).1.processTick still).state ∧
      (beforeSecond data).error = ((beforeFirst.write data).1.processTick still).error ∧
      (beforeSecond data).pendingSend =
        ((beforeFirst.write data).1.processTick still).pendingSend :=
  ⟨rfl, rfl, rfl⟩

/-- The manager in front of the first buffer. -/
theorem collected (data : List UInt8) :
    ∃ m, run step (start established) ((twoWrites data).take 4) = some m ∧
      m.stage = .commands [.write data, .write [2]] ∧ m.ctx.conn = beforeFirst ∧
      m.ctx.writeBacklog = [] ∧ m.handed = [] ∧ m.written = [] :=
  ⟨_, rfl, rfl, rfl, rfl, rfl, rfl⟩

theorem step_command {cmd : UtpCmd} {rest : List UtpCmd} {env : Env}
    (h : m.stage = .commands (cmd :: rest)) :
    m.step (.command env) = some (m.command cmd rest env) := by
  unfold Managed.step
  rw [h]

theorem beforeFirst_open : beforeFirst.state = .connected ∧ beforeFirst.error = false ∧
    beforeFirst.pendingSend = [] ∧ beforeFirst.finPending = false ∧
    beforeFirst.finSent = false ∧ beforeFirst.sendQueue.isEmpty = true ∧
    0 < beforeFirst.packetSize.toNat ∧ beforeFirst.canSendData = true := by
  decide +kernel

theorem write_first : (beforeFirst.write tooLong).2 = maxPendingSend ∧
    (beforeFirst.write tooLong).1.pendingSend = List.replicate maxPendingSend 1 := by
  obtain ⟨hstate, herror, hnil, -⟩ := beforeFirst_open
  obtain ⟨hlen, hpend⟩ := write_open (by rw [hstate]; decide) herror tooLong
  have htaken : (beforeFirst.write tooLong).2 = maxPendingSend := by
    rw [hlen, hnil, tooLong, List.length_replicate, List.length_nil]
    exact Nat.min_eq_left (Nat.le_succ _)
  refine ⟨htaken, ?_⟩
  rw [hpend, htaken, hnil, List.nil_append, tooLong, List.take_replicate,
    Nat.min_eq_left (Nat.le_succ _)]

theorem write_second : ((beforeSecond tooLong).write [2]).2 = 1 := by
  obtain ⟨hstate, herror, -, hpending, hfin, hqueue, hsize, hsend⟩ := beforeFirst_open
  obtain ⟨hstate', herror', hpending', hfin', hqueue', hsize', hsend'⟩ :=
    beforeFirst.write_rest tooLong
  obtain ⟨-, hpend⟩ := write_first
  obtain ⟨hconn, hok, hroom⟩ := @processTick_room _ still (hstate'.trans hstate)
    (hpending'.trans hpending) (hfin'.trans hfin) (hqueue'.trans (List.isEmpty_iff.mp hqueue))
    (hsend'.trans hsend) (hsize'.symm ▸ hsize) (by rw [hpend, Ne, List.replicate_eq_nil_iff]; decide)
  obtain ⟨hstate₂, herror₂, hpend₂⟩ := beforeSecond_eq tooLong
  rw [hpend, List.length_replicate, ← hpend₂] at hroom
  have hopen : (beforeSecond tooLong).state ≠ .closed := by
    rw [hstate₂, hconn]
    decide
  rw [(write_open hopen (herror₂.trans (hok.trans (herror'.trans herror))) [2]).1]
  refine Nat.min_eq_right ?_
  rw [List.length_singleton]
  omega

/-- **A buffer overtakes the rest of the one before it.**  The first is a byte too long, its tick
makes room, and the second goes to the connection in front of that byte. -/
theorem overtaken : ∃ m, run step (start established) (twoWrites tooLong) = some m ∧
    ¬ m.Ordered := by
  obtain ⟨m, hrun, hstage, hconn, hbacklog, hhanded, hwritten⟩ := collected tooLong
  obtain ⟨hwritten₁, hhanded₁, hbacklog₁, hconn₁⟩ :=
    m.command_write tooLong [.write [2]] still
  obtain ⟨hwritten₂, hhanded₂, hbacklog₂, -⟩ :=
    (m.command (.write tooLong) [.write [2]] still).command_write [2] [] still
  have hrun₂ : run step m [.command still, .command still] =
      some ((m.command (.write tooLong) [.write [2]] still).command (.write [2]) [] still) := by
    rw [run_cons, step_command hstage, Option.bind_some, run_cons, step_command rfl]
    rfl
  have hruns : run step (start established)
      ((twoWrites tooLong).take 4 ++ [.command still, .command still]) = some _ :=
    run_append.mpr ⟨m, hrun, hrun₂⟩
  refine ⟨_, hruns, fun h => ?_⟩
  rw [hconn] at hhanded₁ hbacklog₁ hconn₁
  rw [hconn₁, ← beforeSecond, write_second, hhanded₁, hhanded, write_first.1] at hhanded₂
  rw [hconn₁, ← beforeSecond, write_second, hbacklog₁, hbacklog, write_first.1] at hbacklog₂
  rw [hwritten₁, hwritten] at hwritten₂
  have hwhole := h.whole
  rw [hhanded₂, hbacklog₂, hwritten₂] at hwhole
  -- behind the front of the first buffer stand the second one and its last byte
  have hlast : tooLong.drop maxPendingSend = [1] := by
    rw [tooLong, List.drop_replicate, Nat.add_sub_cancel_left]
    rfl
  have hfront := List.take_append_drop maxPendingSend tooLong
  rw [hlast] at hwhole hfront
  generalize tooLong.take maxPendingSend = front at hwhole hfront
  rw [← hfront, List.nil_append, List.nil_append, List.nil_append, List.append_assoc,
    List.append_assoc] at hwhole
  exact absurd (List.append_cancel_left hwhole) (by decide)

end Managed

end XferRust.Utp
